import Graft.Json.Reader
import Graft.Json.Writer

/-!
# Forms

The form of a type says how its values are written as JSON trees and which trees are read as values. Several trees may
be read as one value; what is written is one of them. No form reads a broken tree, but fields at which a form does not
look may be broken.

* `Json.record?` takes the fields of a record from an object, or from an array that holds them in their order.
* `Json.tagged?` takes what tells the alternative from an object or an array.
* `Form.ofText?` reads a text, in which arrays and objects may be nested `Form.nesting` deep.
-/

namespace Graft

namespace Json

/-- The values of all fields with a given name. -/
def valuesOf (name : String) (fields : List (String × Json)) : List Json :=
  (fields.filter fun f => f.1 == name).map Prod.snd

/-- The value of the only field with a given name, which may be missing; fails if the name is given twice. -/
def unique? (name : String) (fields : List (String × Json)) : Option (Option Json) :=
  match valuesOf name fields with
  | [] => some none
  | [j] => some (some j)
  | _ => none

/-- The fields of a record, by name from an object or by place from an array. An object may have other fields, but none
of these twice. An array must hold at least the first `least` fields, and nothing behind the last. -/
def record? (names : List String) (least : Nat) : Json → Option (List (Option Json))
  | obj fields => names.mapM fun name => unique? name fields
  | arr items =>
    if least ≤ items.length ∧ items.length ≤ names.length then
      some (items.map some ++ List.replicate (names.length - items.length) none)
    else none
  | _ => none

/-- What stands under the name `tag` in an object, or first in an array, with the tree in which the other fields are
found. -/
def tagged? (tag : String) : Json → Option (Json × Json)
  | obj fields =>
    match valuesOf tag fields with
    | [j] => some (j, obj fields)
    | _ => none
  | arr (j :: items) => some (j, arr items)
  | _ => none

/-- The one of `names` that a tree gives: a string or, if it may be `numbered`, its place among them, counted from
zero. -/
def nameOf? (names : List String) (numbered : Bool) : Json → Option String
  | str s => if s ∈ names then some s else none
  | int n => if numbered && 0 ≤ n then names[n.toNat]? else none
  | _ => none

end Json

/-- How the values of a type are written and read as JSON trees. -/
structure Form (α : Type) where
  write : α → Json
  read : Json → Option α

namespace Form

variable {α : Type}

/-- How deep arrays and objects may be nested in a text. -/
def nesting : Nat := 127

/-- The value that a text denotes. -/
def ofText? (f : Form α) (s : String) : Option α := (Json.read? nesting s).bind f.read

/-- The text of a value, without blank characters. -/
def text (f : Form α) (a : α) : String := (f.write a).compact

/-- The text of a value, with a line for each item and each field. -/
def pretty (f : Form α) (a : α) : String := (f.write a).pretty

/-- The value of a field that must be there. -/
def required (f : Form α) (j : Option Json) : Option α := j.bind f.read

/-- The value of a field that may be missing. -/
def optional (f : Form α) (absent : α) : Option Json → Option α
  | none => some absent
  | some j => f.read j

/-- The value of a field that may be missing or null. -/
def nullable (f : Form α) : Option Json → Option (Option α)
  | none => some none
  | some .null => some none
  | some j => (f.read j).map some

/-- A value, or null. -/
def writeNullable (f : Form α) : Option α → Json
  | none => .null
  | some a => f.write a

/-- The form of a list: an array. -/
def list (f : Form α) : Form (List α) where
  write l := .arr (l.map f.write)
  read
    | .arr items => items.mapM f.read
    | _ => none

/-- The form of a text: a string. -/
def string : Form String where
  write s := .str s
  read
    | .str s => some s
    | _ => none

/-- The form of the numbers from `least` on and below `bound`. -/
def natural (least bound : Nat) : Form Nat where
  write n := .int n
  read
    | .int n => if least ≤ n ∧ n < bound then some n.toNat else none
    | _ => none

/-- The form of a slot or row number. -/
def uint16 : Form UInt16 where
  write n := .int n.toNat
  read j := ((natural 0 UInt16.size).read j).map UInt16.ofNat

end Form

end Graft
