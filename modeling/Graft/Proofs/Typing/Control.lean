import Graft.Typing.Flow
import Mathlib.Logic.Relation

/-!
# Typings of a body

What it means for a body to be well typed, said instruction by instruction and without blocks.

* `Fits` says that the operands of an instruction suit its opcode and name things that exist.
* `Edge` is the control flow between positions, and `Reachable` what it reaches from position 0.
* `Closed` says that control does not run past the last instruction.
* `Assignment` gives a stack to every reachable position, in agreement with the rule `next` along every edge.
* `WellTyped` puts these together.
-/

namespace Graft.Typing

variable {b : Body}

/-- The operands of an instruction are those that its opcode takes, and the slot, row or instruction that they name
exists in the body. -/
inductive Fits (b : Body) : Instruction → Prop
  | plain {op : Opcode} (kind : op.operandKind = .none) : Fits b ⟨op, []⟩
  | constant {op : Opcode} {v : Value} (kind : op.operandKind = .immediate v.type) : Fits b ⟨op, [.immediate v]⟩
  | argument {op : Opcode} {n : UInt16} (kind : op = .ldarg ∨ op = .starg)
      (bound : n.toNat < b.signature.params.length) : Fits b ⟨op, [.index n]⟩
  | localVar {op : Opcode} {n : UInt16} (kind : op = .ldloc ∨ op = .stloc)
      (bound : n.toNat < b.signature.locals.length) : Fits b ⟨op, [.index n]⟩
  | external {n : UInt16} (bound : n.toNat < b.externals.size) : Fits b ⟨.call, [.external n]⟩
  | branch {op : Opcode} {t : InstrId} (kind : op.isBranch = true) (named : t ∈ b.entries.map Entry.id) :
      Fits b ⟨op, [.label t]⟩

/-- Control can go from position `p` to another in one step: to the next one, unless the instruction is `br` or `ret`,
and from a branch to the position that its label names. -/
inductive Edge (b : Body) (p : Nat) : Nat → Prop
  | next {i : Instruction} (here : b.instr? p = some i) (goesOn : i.op.isTerminal = false) : Edge b p (p + 1)
  | jump {i : Instruction} {q : Nat} (here : b.instr? p = some i) (branch : i.op.isBranch = true)
      (target : b.target? i = some q) : Edge b p q

/-- Control can get to a position from position 0. -/
def Reachable (b : Body) : Nat → Prop := Relation.ReflTransGen (Edge b) 0

/-- A stack for each position that control reaches: none of the instructions there breaks its rule, and each leaves the
stack of all positions that control can go on to. -/
structure Assignment (b : Body) (T : Nat → Stack) : Prop where
  entry : T 0 = []
  step : ∀ p, Reachable b p →
    ∃ i s, b.instr? p = some i ∧ next b i (T p) = .ok s ∧ ∀ q, Edge b p q → T q = s

/-- The last instruction is `br` or `ret`, so that control does not run past it. -/
def Closed (b : Body) : Prop := ∃ i, b.instrs.getLast? = some i ∧ (i.op = .br ∨ i.op = .ret)

/-- A body that can be typed instruction by instruction. -/
structure WellTyped (b : Body) : Prop where
  nonempty : b.entries ≠ []
  fits : ∀ i ∈ b.instrs, Fits b i
  closed : Closed b
  typable : ∃ T, Assignment b T

theorem Reachable.start : Reachable b 0 := Relation.ReflTransGen.refl

theorem Reachable.step {p q : Nat} (hp : Reachable b p) (h : Edge b p q) : Reachable b q :=
  Relation.ReflTransGen.tail hp h

end Graft.Typing
