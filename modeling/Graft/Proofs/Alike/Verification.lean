import Graft.Proofs.Alike.Basic
import Graft.Proofs.Typing.Rules
import Graft.Typing.Flow

/-!
# Alike bodies are verified alike

Verification finds the same in two bodies that differ in identities only (`findings_eq`): instruction by instruction
in the first stage (`operandFindings_eq`), and block by block in the second (`flowFindings_eq`).
-/

namespace Graft.Body.Alike

open Typing

variable {b b' : Body} {i i' : Instruction} (h : b.Alike b')

include h

theorem length : b.length = b'.length := by
  rw [← length_instrs, ← length_instrs]
  exact h.instrs.length_eq

/-- At each position there are alike instructions, or none. -/
theorem instr? (p : Nat) : (b.instr? p = none ∧ b'.instr? p = none) ∨
    ∃ i i', b.instr? p = some i ∧ b'.instr? p = some i' ∧ Instruction.Alike b b' i i' := by
  rw [← instrs_getElem?, ← instrs_getElem?]
  by_cases hp : p < b.instrs.length
  · have hp' : p < b'.instrs.length := h.instrs.length_eq ▸ hp
    refine .inr ⟨b.instrs[p], b'.instrs[p], List.getElem?_eq_getElem hp, List.getElem?_eq_getElem hp', ?_⟩
    exact (List.forall₂_iff_get.1 h.instrs).2 p hp hp'
  · have hp' : ¬p < b'.instrs.length := h.instrs.length_eq ▸ hp
    exact .inl ⟨List.getElem?_eq_none (by omega), List.getElem?_eq_none (by omega)⟩

/-! ### The first stage -/

theorem operandCause? (hi : Instruction.Alike b b' i i') : operandCause? b i = operandCause? b' i' := by
  have hshape := hi.hasShape
  obtain ⟨op, operands⟩ := i
  obtain ⟨op', operands'⟩ := i'
  obtain ⟨rfl, hoperands⟩ := hi
  unfold Typing.operandCause?
  dsimp only at hshape hoperands ⊢
  rw [hshape, h.signature, h.externals]
  split
  · rfl
  · cases hoperands with
    | nil => cases op <;> rfl
    | cons hfirst hrest =>
      cases hrest with
      | nil =>
        cases hfirst with
        | label here there => cases op <;> simp [here, there]
        | _ => cases op <;> rfl
      | cons => cases hfirst <;> cases op <;> rfl

theorem operandFindings_eq : operandFindings b = operandFindings b' := by
  refine filterMap_eq_of_forall₂ (forall₂_zipIdx h.instrs 0) ?_
  rintro ⟨i, p⟩ ⟨i', p'⟩ ⟨hi, hp⟩
  obtain rfl : p = p' := hp
  simp only [h.operandCause? hi]

/-! ### Blocks -/

theorem targets_eq : b.instrs.filterMap b.target? = b'.instrs.filterMap b'.target? :=
  filterMap_eq_of_forall₂ h.instrs fun _ _ hi => hi.target?

omit h in
private theorem afterEnds_eq {is is' : List Instruction} (his : List.Forall₂ (Instruction.Alike b b') is is')
    (n : Nat) : afterEnds n is = afterEnds n is' := by
  induction his generalizing n with
  | nil => rfl
  | cons hi _ ih => rw [afterEnds, afterEnds, hi.op, ih]

theorem blocks_eq : blocks b = blocks b' := by
  have hleaders : leaders b = leaders b' := by
    rw [leaders, leaders, h.length, h.targets_eq, afterEnds_eq h.instrs 0]
  rw [blocks, blocks, h.length, hleaders]

variable (k : Block)

theorem fallsThrough_eq : k.fallsThrough b = k.fallsThrough b' := by
  unfold Block.fallsThrough Block.last?
  rcases h.instr? (k.stop - 1) with ⟨hnone, hnone'⟩ | ⟨i, i', hi, hi', halike⟩
  · rw [hnone, hnone']
  · rw [hi, hi']
    dsimp only
    rw [halike.op]

theorem successors_eq : k.successors b = k.successors b' := by
  have htarget : (k.last? b).bind b.target? = (k.last? b').bind b'.target? := by
    unfold Block.last?
    rcases h.instr? (k.stop - 1) with ⟨hnone, hnone'⟩ | ⟨i, i', hi, hi', halike⟩
    · rw [hnone, hnone']
      rfl
    · rw [hi, hi', Option.bind_some, Option.bind_some, halike.target?]
  rw [Block.successors, Block.successors, h.fallsThrough_eq, h.length, htarget]

theorem fallOffFindings_eq : fallOffFindings b = fallOffFindings b' := by
  unfold fallOffFindings
  simp only [h.blocks_eq, h.fallsThrough_eq, h.length]

/-! ### The second stage -/

omit k in
private theorem through_eq {is is' : List Instruction} (his : List.Forall₂ (Instruction.Alike b b') is is')
    (pos : Nat) (s : Stack) : through b pos is s = through b' pos is' s := by
  induction his generalizing pos s with
  | nil => rfl
  | cons hi _ ih =>
    have hnext := next_congr hi.op hi.immediate? hi.slot? (hi.binding? h.externals) h.signature s
    rw [through, through, hnext]
    split
    · exact ih ..
    · rfl

theorem visit_eq (f : Flow) : Flow.visit b k f = Flow.visit b' k f := by
  have hcode : List.Forall₂ (Instruction.Alike b b') (k.code b) (k.code b') :=
    List.forall₂_take _ (List.forall₂_drop _ h.instrs)
  rw [Flow.visit, Flow.visit, h.through_eq hcode, h.successors_eq]

omit k in
theorem drain_eq (ks : List Block) (n : Nat) (f : Flow) : Flow.drain b ks n f = Flow.drain b' ks n f := by
  induction n generalizing f with
  | zero => rfl
  | succ n ih =>
    unfold Flow.drain
    split
    · rfl
    · dsimp only
      split
      · exact ih _
      · rw [h.visit_eq]
        exact ih _

omit k in
theorem flowFindings_eq : flowFindings b = flowFindings b' := by
  unfold flowFindings
  simp only [h.fallOffFindings_eq, h.blocks_eq, h.drain_eq]

omit k in
/-- Verification finds the same in alike bodies. -/
theorem findings_eq : b.findings = b'.findings := by
  have hempty : b.entries.isEmpty = b'.entries.isEmpty := by
    have hlength : b.entries.length = b'.entries.length := h.length
    rw [Bool.eq_iff_iff, List.isEmpty_iff_length_eq_zero, List.isEmpty_iff_length_eq_zero, hlength]
  rw [findings, findings, hempty, h.operandFindings_eq, h.flowFindings_eq]

end Graft.Body.Alike
