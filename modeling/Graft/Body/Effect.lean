import Graft.Body.Basic

/-!
# Stack effects

How many values an instruction takes from the stack and puts on it, as far as that is known without running it.
-/

namespace Graft

/-- The numbers of values that an instruction takes and puts, and the type of what it puts if that is one value whose
type is known. -/
structure Effect where
  pops : Nat
  pushes : Nat
  type : Option ValueType
deriving DecidableEq, Repr

/-- The written form of an effect. -/
def Effect.text (e : Effect) : String :=
  let counts := "pops " ++ Text.Numeral.ofNat e.pops ++ ", pushes " ++ Text.Numeral.ofNat e.pushes
  match e.type with
  | some t => counts ++ " (" ++ t.keyword ++ ")"
  | none => counts

namespace Body

/-- The effect of putting one value of type `t`. -/
private def putting (t : ValueType) : Effect := ⟨0, 1, some t⟩

/-- The effect of an instruction in a body; there is none if an operand that decides the type does not resolve. -/
def effect? (b : Body) (i : Instruction) : Option Effect :=
  match i.op with
  | .nop | .br => some ⟨0, 0, none⟩
  | .ldcI4 | .ldcI8 | .ldcBool => i.immediate?.map fun v => putting v.type
  | .ldarg => (i.slot?.bind fun n => b.signature.params[n]?).map putting
  | .ldloc => (i.slot?.bind fun n => b.signature.locals[n]?).map putting
  | .starg | .stloc | .pop | .brtrue | .brfalse => some ⟨1, 0, none⟩
  | .call => (b.binding? i).map fun x => putting x.type
  | .add | .sub | .mul | .div | .rem | .and | .or => some ⟨2, 1, none⟩
  | .ceq | .clt | .cgt => some ⟨2, 1, some .bool⟩
  | .not => some ⟨1, 1, none⟩
  | .dup => some ⟨1, 2, none⟩
  | .ret => some ⟨if b.signature.returns.isSome then 1 else 0, 0, none⟩

end Body

end Graft
