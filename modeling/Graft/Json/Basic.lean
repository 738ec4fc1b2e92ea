/-!
# JSON trees

A tree keeps the fields of an object in the order of the text, and keeps a field that is given twice. A part of a text
that follows the grammar but denotes no value is `broken`: such a part does no harm where nobody looks at it.

* `Json.depth` is the number of arrays and objects that enclose the innermost value.
* `Json.isSound` says that no part is broken.
-/

namespace Graft

/-- A JSON value. -/
inductive Json where
  | null
  | bool (b : Bool)
  /-- A number without fraction and exponent. -/
  | int (n : Int)
  /-- Any other number, by its text. Negative zero is one of these. -/
  | real (token : String)
  | str (s : String)
  | arr (items : List Json)
  | obj (fields : List (String × Json))
  /-- No value: what stands here in the text does not denote one. -/
  | broken
deriving Inhabited

namespace Json

mutual

/-- How deep arrays and objects are nested. -/
def depth : Json → Nat
  | arr items => depthOfItems items + 1
  | obj fields => depthOfFields fields + 1
  | _ => 0

/-- The greatest depth of an item. -/
def depthOfItems : List Json → Nat
  | [] => 0
  | j :: js => max j.depth (depthOfItems js)

/-- The greatest depth of a field's value. -/
def depthOfFields : List (String × Json) → Nat
  | [] => 0
  | (_, j) :: fs => max j.depth (depthOfFields fs)

end

mutual

/-- Whether no part of a tree is broken. -/
def isSound : Json → Bool
  | broken => false
  | arr items => allSound items
  | obj fields => allSoundFields fields
  | _ => true

/-- Whether no part of an item is broken. -/
def allSound : List Json → Bool
  | [] => true
  | j :: js => j.isSound && allSound js

/-- Whether no part of a field's value is broken. -/
def allSoundFields : List (String × Json) → Bool
  | [] => true
  | (_, j) :: fs => j.isSound && allSoundFields fs

end

/-- The value of the first field with a given name. -/
def field? (name : String) : Json → Option Json
  | obj fields => fields.lookup name
  | _ => none

end Json

end Graft
