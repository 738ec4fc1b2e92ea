import Graft.Text.Blank
import Graft.Value

/-!
# Methods by name

A method is identified by its declaring type and its name, written `Type::name`, and has a signature.

* `MethodId.ofText?` splits at the last `::`, so a declaring type may hold `::` itself.
-/

namespace Graft

/-- The identity of a method. -/
structure MethodId where
  declaringType : String
  name : String
deriving DecidableEq, Repr, Inhabited

namespace MethodId

/-- The written form, `Type::name`. -/
def text (id : MethodId) : String := id.declaringType ++ "::" ++ id.name

instance : ToString MethodId := ⟨text⟩

/-- The two sides of the last `::`. -/
def splitLast? : List Char → Option (List Char × List Char)
  | [] => none
  | c :: cs =>
    match splitLast? cs with
    | some (l, r) => some (c :: l, r)
    | none =>
      match c, cs with
      | ':', ':' :: r => some ([], r)
      | _, _ => none

/-- The method that a written form names; blank characters around it do not count. -/
def ofText? (cs : List Char) : Option MethodId :=
  match splitLast? (Text.trim cs) with
  | some (c :: l, d :: r) => some ⟨String.ofList (c :: l), String.ofList (d :: r)⟩
  | _ => none

/-- Methods are ordered by declaring type and then by name, both by code points. -/
instance : LT MethodId where
  lt a b := a.declaringType < b.declaringType ∨ (a.declaringType = b.declaringType ∧ a.name < b.name)

instance : DecidableLT MethodId := fun a b =>
  inferInstanceAs (Decidable (a.declaringType < b.declaringType ∨ (a.declaringType = b.declaringType ∧ a.name < b.name)))

end MethodId

/-- The types of a method's parameters, locals and result; a method without result type returns nothing. -/
structure Signature where
  params : List ValueType
  locals : List ValueType
  returns : Option ValueType
deriving DecidableEq, Repr, Inhabited

end Graft
