import Graft.Opcode

/-!
# Instructions

An instruction is an opcode with a list of operands. Nothing here ties the operands to the opcode: whether they have
the shape that the opcode takes is a predicate of its own.

* `Instruction.hasShape` says that the operands are those that the opcode takes.
* `Instruction.retarget` moves the labels that name one instruction to another.
-/

namespace Graft

/-- The identity of an instruction within its body. Positions shift when a body is edited, identities do not. The number
fits in 32 bits as long as fewer than `2 ^ 32` instructions are added to the body (`Body.nextId`). -/
structure InstrId where
  number : Nat
deriving DecidableEq, Repr, Inhabited

/-- The written form, `#` and the number. -/
def InstrId.text (id : InstrId) : String := "#" ++ Text.Numeral.ofNat id.number

instance : ToString InstrId := ⟨InstrId.text⟩

/-- An operand of an instruction. -/
inductive Operand where
  /-- A constant. -/
  | immediate (value : Value)
  /-- The instruction that a branch goes to. -/
  | label (target : InstrId)
  /-- The slot of an argument or a local. -/
  | index (slot : UInt16)
  /-- A row in the body's table of external values. -/
  | external (row : UInt16)
deriving DecidableEq, Inhabited

/-- An opcode with its operands. -/
structure Instruction where
  op : Opcode
  operands : List Operand
deriving DecidableEq, Inhabited

namespace Operand

/-- The written form, for messages. -/
def text : Operand → String
  | immediate v => v.text
  | label t => t.text
  | index n => Text.Numeral.ofNat n.toNat
  | external n => "ext" ++ Text.Numeral.ofNat n.toNat

/-- The operand with a label on `source` moved to `target`. -/
def retarget (source target : InstrId) : Operand → Operand
  | label t => if t = source then label target else label t
  | o => o

/-- Whether the operand is a label on `target`. -/
def isLabelOn (target : InstrId) : Operand → Bool
  | label t => t == target
  | _ => false

end Operand

namespace Instruction

/-- The written form, for messages: the mnemonic and the operands, separated by blanks. -/
def text (i : Instruction) : String :=
  i.operands.foldl (fun s o => s ++ " " ++ o.text) i.op.mnemonic

instance : ToString Instruction := ⟨text⟩

/-- The constant in the first operand. -/
def immediate? (i : Instruction) : Option Value :=
  match i.operands with
  | .immediate v :: _ => some v
  | _ => none

/-- The label in the first operand. -/
def label? (i : Instruction) : Option InstrId :=
  match i.operands with
  | .label t :: _ => some t
  | _ => none

/-- The slot in the first operand. -/
def slot? (i : Instruction) : Option Nat :=
  match i.operands with
  | .index n :: _ => some n.toNat
  | _ => none

/-- The row of the table of external values in the first operand. -/
def external? (i : Instruction) : Option Nat :=
  match i.operands with
  | .external n :: _ => some n.toNat
  | _ => none

/-- The instruction with all its labels on `source` moved to `target`. -/
def retarget (source target : InstrId) (i : Instruction) : Instruction :=
  { i with operands := i.operands.map (Operand.retarget source target) }

/-- Whether some operand is a label on `target`. -/
def hasLabelOn (target : InstrId) (i : Instruction) : Bool :=
  i.operands.any (Operand.isLabelOn target)

/-- Whether the operands are those that the opcode takes. -/
def hasShape (i : Instruction) : Bool :=
  match i.op.operandKind, i.operands with
  | .none, [] => true
  | .immediate t, [.immediate v] => v.type == t
  | .index, [.index _] => true
  | .label, [.label _] => true
  | .external, [.external _] => true
  | _, _ => false

end Instruction

end Graft
