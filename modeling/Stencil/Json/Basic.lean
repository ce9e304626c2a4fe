/-!
# JSON values

An object keeps its fields in order, repeated ones included. A string may escape half of a surrogate
pair; such a string is no text, and is kept as `none`.
-/

namespace Stencil

/-- A JSON value. Numbers are kept as they are written. -/
inductive Json where
  | null
  | bool (value : Bool)
  | number (digits : String)
  | string (text : Option String)
  | array (items : List Json)
  | object (fields : List (Option String × Json))
  deriving Repr, Inhabited

namespace Json

/-- The string of a text. -/
def ofString (s : String) : Json := string (some s)

/-- The boolean, if it is one. -/
def bool? : Json → Option Bool
  | bool b => some b
  | _ => none

/-- The text, if it is one. -/
def text? : Json → Option String
  | string s => s
  | _ => none

/-- The text, if it is one, or nothing for `null`. -/
def optionalText? : Json → Option (Option String)
  | null => some none
  | j => j.text?.map some

/-- The fields of an object whose names are all texts. -/
def fields? : Json → Option (List (String × Json))
  | object fields => fields.mapM fun (name, value) => name.map (·, value)
  | _ => none

end Json

/-- One named part of a record `α` and how it is written as JSON. -/
structure Json.Field (α : Type) where
  name : String
  get : α → Json
  set : Json → α → Option α

/-- Reads a record. An object gives fields by name: unknown ones are ignored, and a repeated one
is an error. An array gives the fields in order. Fields that are not given keep the value they have
in `base`. -/
def Json.record? {α : Type} (parts : List (Json.Field α)) (base : α) : Json → Option α
  | .array items =>
    if parts.length < items.length then none
    else (parts.zip items).foldlM (fun r (part, value) => part.set value r) base
  | j => do
    let given := (← j.fields?).filter fun (name, _) => parts.any (·.name == name)
    if (given.map (·.1)).eraseDups.length < given.length then none
    else given.foldlM (fun r (name, value) =>
      match parts.find? (·.name == name) with
      | some part => part.set value r
      | none => some r) base

end Stencil
