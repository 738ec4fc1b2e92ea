import Graft.Body.Basic
import Graft.Typing.Finding

/-!
# Operands that fit

The first stage of verification looks at each instruction alone: its operands have the shape that the opcode takes,
and slots, external values and labels exist.
-/

namespace Graft.Typing

/-- The rule that the operands of an instruction break, if any. -/
def operandCause? (b : Body) (i : Instruction) : Option Cause :=
  if !i.hasShape then some (.badOperands i.op)
  else
    match i.op, i.operands with
    | .ldarg, [.index n] | .starg, [.index n] =>
      let count := b.signature.params.length
      if n.toNat < count then none else some (.noArgument n.toNat count)
    | .ldloc, [.index n] | .stloc, [.index n] =>
      let count := b.signature.locals.length
      if n.toNat < count then none else some (.noLocal n.toNat count)
    | .call, [.external n] => if n.toNat < b.externals.size then none else some (.noExternal n.toNat)
    | _, [.label t] => if (b.positionOf? t).isSome then none else some (.noTarget t)
    | _, _ => none

/-- The findings of the first stage, in the order of the instructions. -/
def operandFindings (b : Body) : List Finding :=
  b.instrs.zipIdx.filterMap fun (i, pos) => (operandCause? b i).map fun c => ⟨some pos, c⟩

end Graft.Typing
