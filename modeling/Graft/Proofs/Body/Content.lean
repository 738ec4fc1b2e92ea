import Graft.Body.Basic

/-!
# Contents

What a body says when identities are left out: its instructions with each label given as the position that it names,
its method and signature, and the names and types of its external values.

* `Body.content` is the content of a body. Identities, the next identity and the revision are no part of it.
* `content_renumber` says that other identities make no other content.
-/

namespace Graft

/-- An operand, with the position that it names in place of a label. -/
inductive Resolved where
  | immediate (value : Value)
  | position (pos : Option Nat)
  | index (slot : UInt16)
  | external (row : UInt16)
deriving DecidableEq

/-- The operand of an instruction of `b`, with the position that a label names in its place. -/
def Operand.resolve (b : Body) : Operand → Resolved
  | immediate v => .immediate v
  | label t => .position (b.positionOf? t)
  | index n => .index n
  | external n => .external n

/-- The operand with the label on another identity, if it is a label. -/
def Operand.relabel (f : InstrId → InstrId) : Operand → Operand
  | label t => label (f t)
  | o => o

/-- The opcode of an instruction of `b` with the resolved operands. -/
def Instruction.resolve (b : Body) (i : Instruction) : Opcode × List Resolved :=
  (i.op, i.operands.map (Operand.resolve b))

/-- What a body says without identities. -/
structure Content where
  method : MethodId
  signature : Signature
  externals : List (String × ValueType)
  code : List (Opcode × List Resolved)
deriving DecidableEq

namespace Body

/-- The content of a body. -/
def content (b : Body) : Content where
  method := b.method
  signature := b.signature
  externals := b.externals.toList.map fun x => (x.name, x.type)
  code := b.instrs.map (Instruction.resolve b)

/-- The body with other identities, in its instructions and in their labels. -/
def renumber (f : InstrId → InstrId) (b : Body) : Body :=
  { b with
    entries := b.entries.map fun e =>
      ⟨f e.id, { e.instr with operands := e.instr.operands.map (Operand.relabel f) }⟩ }

theorem length_instrs (b : Body) : b.instrs.length = b.length := List.length_map ..

theorem instrs_getElem? (b : Body) (p : Nat) : b.instrs[p]? = b.instr? p := by
  simp [instrs, instr?]

variable {f : InstrId → InstrId}

private theorem positionOf?_renumber (hf : ∀ s t, f s = f t → s = t) (b : Body) (t : InstrId) :
    (b.renumber f).positionOf? (f t) = b.positionOf? t := by
  have hid (s : InstrId) : (f s == f t) = (s == t) := by
    by_cases hst : s = t
    · simp [hst]
    · rw [beq_false_of_ne hst, beq_false_of_ne fun h => hst (hf s t h)]
  simp only [positionOf?, renumber, List.findIdx?_map, Function.comp_def, hid]

/-- A body keeps its content when its identities are replaced by others, different ones by different ones. -/
theorem content_renumber (hf : ∀ s t, f s = f t → s = t) (b : Body) : (b.renumber f).content = b.content := by
  have hoperand (o : Operand) : (o.relabel f).resolve (b.renumber f) = o.resolve b := by
    cases o with
    | label t => simp only [Operand.relabel, Operand.resolve, positionOf?_renumber hf b t]
    | _ => rfl
  have hcode : (b.renumber f).instrs.map (Instruction.resolve (b.renumber f)) =
      b.instrs.map (Instruction.resolve b) := by
    rw [instrs, instrs, renumber, List.map_map, List.map_map, List.map_map]
    refine List.map_congr_left fun e _ => ?_
    simp only [Function.comp_apply, Instruction.resolve, List.map_map, Prod.mk.injEq, true_and]
    exact List.map_congr_left fun o _ => hoperand o
  simp only [content, hcode]
  rfl

end Body

end Graft
