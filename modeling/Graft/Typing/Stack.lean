import Graft.Body.Basic
import Graft.Typing.Finding

/-!
# The typed stack

What each instruction does to the types of the values on the stack.

* `next` is the rule for one instruction, and `through` applies it along a list of instructions.
-/

namespace Graft.Typing

/-- The top of the stack and what is below it. -/
def pop (op : Opcode) : Stack → Except Cause (ValueType × Stack)
  | t :: s => .ok (t, s)
  | [] => .error (.underflow op)

/-- The two values at the top of the stack, the lower one first, and what is below them. -/
def popTwo (op : Opcode) (s : Stack) : Except Cause (ValueType × ValueType × Stack) := do
  let (rhs, s) ← pop op s
  let (lhs, s) ← pop op s
  return (lhs, rhs, s)

/-- The stack below a value of type `expected`. -/
def popExpecting (op : Opcode) (expected : ValueType) (s : Stack) : Except Cause Stack := do
  let (found, s) ← pop op s
  if found = expected then return s else throw (.unexpected op expected found)

/-- The type of a slot, in the list of types that the slots of the opcode name. -/
def slotType (i : Instruction) (types : List ValueType) : Except Cause ValueType :=
  match i.slot?.bind fun n => types[n]? with
  | some t => .ok t
  | none => .error (.badOperands i.op)

/-- The stack after an instruction, or the rule that the instruction breaks. -/
def next (b : Body) (i : Instruction) (s : Stack) : Except Cause Stack :=
  match i.op with
  | .nop | .br => .ok s
  | .ldcI4 | .ldcI8 | .ldcBool =>
    match i.immediate? with
    | some v => .ok (v.type :: s)
    | none => .error (.badOperands i.op)
  | .ldarg => do return (← slotType i b.signature.params) :: s
  | .ldloc => do return (← slotType i b.signature.locals) :: s
  | .starg => do popExpecting i.op (← slotType i b.signature.params) s
  | .stloc => do popExpecting i.op (← slotType i b.signature.locals) s
  | .call =>
    match b.binding? i with
    | some x => .ok (x.type :: s)
    | none => .error (.badOperands i.op)
  | .add | .sub | .mul | .div | .rem => do
    let (lhs, rhs, s) ← popTwo i.op s
    if lhs.isNumeric ∧ lhs = rhs then return lhs :: s else throw (.notNumeric i.op lhs rhs)
  | .and | .or => do
    let (lhs, rhs, s) ← popTwo i.op s
    if lhs = rhs then return lhs :: s else throw (.notAlike i.op lhs rhs)
  | .ceq => do
    let (lhs, rhs, s) ← popTwo i.op s
    if rhs = lhs then return .bool :: s else throw (.unexpected i.op lhs rhs)
  | .clt | .cgt => do
    let (lhs, rhs, s) ← popTwo i.op s
    if lhs.isNumeric ∧ lhs = rhs then return .bool :: s else throw (.notComparable i.op lhs rhs)
  | .not => do
    let (t, s) ← pop i.op s
    return t :: s
  | .dup => do
    let (t, s) ← pop i.op s
    return t :: t :: s
  | .pop | .brtrue | .brfalse => do
    let (_, s) ← pop i.op s
    return s
  | .ret => do
    let s ← match b.signature.returns with
      | some t => popExpecting i.op t s
      | none => pure s
    if s.isEmpty then return s else throw (.leftOver s)

/-- The stack after a list of instructions, the first of which stands at position `pos`. -/
def through (b : Body) : (pos : Nat) → List Instruction → Stack → Except Finding Stack
  | _, [], s => .ok s
  | pos, i :: is, s =>
    match next b i s with
    | .ok s => through b (pos + 1) is s
    | .error c => .error ⟨some pos, c⟩

end Graft.Typing
