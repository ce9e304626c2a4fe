import Stencil.Digest.Xxh3

/-!
# Keys of content

A key is the hash of one text or of several. Several texts are hashed as one stream in which every
text is followed by the byte 255, which no text contains, so that the parts can be told apart.
-/

namespace Stencil

/-- A 64-bit hash of content. -/
structure Key where
  value : UInt64
  deriving DecidableEq, Repr, Inhabited

namespace Key

/-- The bytes of a text. -/
def bytes (s : String) : List UInt8 := s.toUTF8.toList

/-- The byte behind every part. -/
def separator : UInt8 := 0xff

/-- The bytes of several texts. -/
def stream (parts : List String) : List UInt8 :=
  parts.flatMap fun part => bytes part ++ [separator]

/-- The key of a list of bytes. -/
def ofBytes (b : List UInt8) : Key := ⟨Xxh3.hash b.toArray⟩

/-- The key of one text. -/
def ofText (s : String) : Key := ofBytes (bytes s)

/-- The key of several texts. -/
def ofParts (parts : List String) : Key := ofBytes (stream parts)

/-- The key in sixteen digits. -/
def hex (k : Key) : String :=
  let digits := Nat.toDigits 16 k.value.toNat
  String.ofList (List.replicate (16 - digits.length) '0' ++ digits)

end Key

end Stencil
