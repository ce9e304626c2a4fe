import Stencil.Digest.Key

/-!
# The cache of compiled media

Compiled scripts, stylesheets and bundles by key. A key gets a slot before its content is computed;
if the computation fails the slot stays empty, and the next request computes again.
-/

namespace Stencil

/-- The slots of a cache. A slot is empty until a computation for its key has succeeded. -/
structure Cache where
  slots : List (Key × Option String) := []
  deriving DecidableEq, Repr, Inhabited

namespace Cache

/-- What is stored under a key. -/
def get? (c : Cache) (k : Key) : Option String :=
  (c.slots.lookup k).join

/-- How many contents are stored. -/
def size (c : Cache) : Nat :=
  (c.slots.filter (·.2.isSome)).length

/-- Whether nothing is stored. There may be empty slots. -/
def isEmpty (c : Cache) : Bool := c.size == 0

/-- The cache with a slot for a key, which is new if there is none yet. -/
def reserve (c : Cache) (k : Key) : Cache :=
  if (c.slots.lookup k).isSome then c else ⟨(k, none) :: c.slots⟩

/-- The cache with a content in the slot for a key, if there is such a slot. -/
def fill (c : Cache) (k : Key) (content : String) : Cache :=
  ⟨c.slots.map fun (k', v) => if k' = k then (k', some content) else (k', v)⟩

/-- The cache without the slot for a key. -/
def erase (c : Cache) (k : Key) : Cache :=
  ⟨c.slots.filter (·.1 ≠ k)⟩

variable {ε : Type}

/-- The content under a key: what is stored, or else what is computed now, which is stored if the
computation succeeds. A computation may have effects; it is carried out only if nothing is stored. -/
def fetchM {m : Type → Type} [Monad m] (c : Cache) (k : Key) (compute : m (Except ε String)) :
    m (Except ε String × Cache) := do
  match c.get? k with
  | some content => return (.ok content, c)
  | none =>
    match ← compute with
    | .ok content => return (.ok content, (c.reserve k).fill k content)
    | .error e => return (.error e, c.reserve k)

/-- The content under a key, for a computation without effects. -/
def fetch (c : Cache) (k : Key) (compute : Unit → Except ε String) : Except ε String × Cache :=
  Id.run (c.fetchM k (compute ()))

end Cache

end Stencil
