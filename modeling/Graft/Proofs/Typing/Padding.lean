import Graft.Proofs.Body.Padding
import Graft.Proofs.Typing.Blocks
import Graft.Proofs.Typing.Rules

/-!
# Padding keeps the typing

A padded body is well typed exactly if the body is that is padded (`wellTyped_iff_padded`). The stack at a position of the
one is the stack at the corresponding position of the other, and the `nop` has the stack of what follows it.
-/

namespace Graft.Typing

variable {b b' : Body} {p q r x y : Nat} {i i' : Instruction} {T : Nat → Stack}

/-! ### Instructions -/

/-- Operands that are the same, or labels of which the second one names an instruction. -/
private inductive Renamed (b : Body) : Operand → Operand → Prop
  | same {o : Operand} (noLabel : ∀ t, o ≠ .label t) : Renamed b o o
  | label {t t' : InstrId} (named : t' ∈ b.entries.map Entry.id) : Renamed b (.label t) (.label t')

private theorem Fits.renamed (hsignature : b.signature = b'.signature) (hexternals : b.externals = b'.externals)
    (hop : i.op = i'.op) (hoperands : List.Forall₂ (Renamed b') i.operands i'.operands) (h : Fits b i) : Fits b' i' := by
  obtain ⟨op, operands⟩ := i
  obtain ⟨op', operands'⟩ := i'
  dsimp only at hop hoperands
  subst hop
  have hone {o : Operand} (ho : operands = [o]) : ∃ o', operands' = [o'] ∧ Renamed b' o o' := by
    rw [ho, List.forall₂_cons_left_iff] at hoperands
    obtain ⟨o', os, hrenamed, hnil, rfl⟩ := hoperands
    rw [List.forall₂_nil_left_iff] at hnil
    exact ⟨o', by rw [hnil], hrenamed⟩
  cases h with
  | plain kind =>
    rw [List.forall₂_nil_left_iff] at hoperands
    rw [hoperands]
    exact .plain kind
  | constant kind =>
    obtain ⟨o', rfl, ⟨-⟩⟩ := hone rfl
    exact .constant kind
  | argument kind bound =>
    obtain ⟨o', rfl, ⟨-⟩⟩ := hone rfl
    exact .argument kind (hsignature ▸ bound)
  | localVar kind bound =>
    obtain ⟨o', rfl, ⟨-⟩⟩ := hone rfl
    exact .localVar kind (hsignature ▸ bound)
  | external bound =>
    obtain ⟨o', rfl, ⟨-⟩⟩ := hone rfl
    exact .external (hexternals ▸ bound)
  | branch kind =>
    obtain ⟨o', rfl, noLabel | named⟩ := hone rfl
    · exact absurd rfl (noLabel _)
    · exact .branch kind named

private theorem mem_of_positionOf? {t : InstrId} {n : Nat} (h : b.positionOf? t = some n) :
    t ∈ b.entries.map Entry.id :=
  positionOf?_isSome.1 (Option.isSome_of_eq_some h)

section Padded

variable (h : b.Padded b' p)

include h

/-- Operands fit in both bodies, or in none. -/
private theorem fits_iff_padded (hi : Instruction.Padded b b' p i i') : Fits b i ↔ Fits b' i' := by
  constructor
  · refine Fits.renamed h.signature h.externals hi.op (hi.operands.imp fun o o' ho => ?_)
    cases ho with
    | label here there => exact .label (mem_of_positionOf? there)
    | _ => exact .same nofun
  · refine Fits.renamed h.signature.symm h.externals.symm hi.op.symm (hi.operands.flip.imp fun o' o ho => ?_)
    cases ho with
    | label here there => exact .label (mem_of_positionOf? here)
    | _ => exact .same nofun

private theorem forall_fits_iff_padded : (∀ i ∈ b.instrs, Fits b i) ↔ ∀ i ∈ b'.instrs, Fits b' i := by
  constructor
  · intro hfits i' hi'
    obtain ⟨x, hx⟩ := List.mem_iff_getElem?.1 hi'
    rw [Body.instrs_getElem?] at hx
    by_cases hxp : x = p
    · subst hxp
      obtain rfl := Option.some.inj (h.nop.symm.trans hx)
      exact .plain rfl
    · rcases h.instr? hxp with ⟨-, hnone⟩ | ⟨i, j', hi, hj', hpadded⟩
      · rw [hnone] at hx
        cases hx
      · obtain rfl := Option.some.inj (hj'.symm.trans hx)
        exact (fits_iff_padded h hpadded).1 (hfits i (mem_instrs_of_instr? hi))
  · intro hfits i hi
    obtain ⟨q, hq⟩ := List.mem_iff_getElem?.1 hi
    rw [Body.instrs_getElem?] at hq
    obtain ⟨i', hi', hpadded⟩ := h.instr hq
    exact (fits_iff_padded h hpadded).2 (hfits i' (mem_instrs_of_instr? hi'))

private theorem next_padded (hi : Instruction.Padded b b' p i i') (s : Stack) : next b i s = next b' i' s :=
  next_congr hi.op hi.immediate? hi.slot? (hi.binding? h.externals) h.signature s

/-! ### Control -/

private theorem edge_nop : Edge b' p y ↔ y = p + 1 := by
  constructor
  · rintro (⟨here, -⟩ | ⟨here, branch, -⟩)
    · rfl
    · obtain rfl := Option.some.inj (h.nop.symm.trans here)
      cases branch
  · rintro rfl
    exact .next h.nop rfl

/-- Control goes in `b` where it goes in `b'`, except from the `nop`. -/
private theorem edge_unpadded (hx : x ≠ p) (hedge : Edge b' x y) : Edge b (unpadded p x) (unpadded p y) := by
  rcases h.instr? hx with ⟨-, hnone⟩ | ⟨i, i', hi, hi', hpadded⟩
  · rcases hedge with ⟨here, -⟩ | ⟨here, -, -⟩
    all_goals
      rw [hnone] at here
      cases here
  · rcases hedge with ⟨here, goesOn⟩ | ⟨here, branch, target⟩
    all_goals obtain rfl := Option.some.inj (hi'.symm.trans here)
    · rw [unpadded_succ hx]
      exact .next hi (hpadded.op ▸ goesOn)
    · exact .jump hi (hpadded.op ▸ branch) (by rw [hpadded.target?, target, Option.map_some])

/-- Control goes in `b'` where it goes in `b`, or to the `nop` in front of it. -/
private theorem edge_padded (hedge : Edge b q r) : ∃ y, Edge b' (padded p q) y ∧ unpadded p y = r := by
  rcases hedge with ⟨here, goesOn⟩ | ⟨here, branch, target⟩
  all_goals obtain ⟨i', hi', hpadded⟩ := h.instr here
  · refine ⟨_, .next hi' (hpadded.op ▸ goesOn), ?_⟩
    rw [unpadded_succ (padded_ne p q), unpadded_padded]
  · rw [hpadded.target?, Option.map_eq_some_iff] at target
    obtain ⟨y, hy, rfl⟩ := target
    exact ⟨y, .jump hi' (hpadded.op ▸ branch) hy, rfl⟩

private theorem closed_iff_padded : Closed b ↔ Closed b' := by
  have hlength := h.length
  have hinside := h.inside
  obtain ⟨i, hi⟩ := exists_instr (b := b) (p := b.length - 1) (by omega)
  obtain ⟨i', hi', hpadded⟩ := h.instr hi
  have hlast : padded p (b.length - 1) = b'.length - 1 := by
    rw [padded_of_le (by omega)]
    omega
  rw [hlast] at hi'
  rw [closed_iff hi, closed_iff hi', hpadded.op]

/-! ### Stacks -/

private theorem assignment_padded (hT : Assignment b T) : Assignment b' (T ∘ unpadded p) := by
  have hreach {x : Nat} (hx : Reachable b' x) : Reachable b (unpadded p x) := by
    induction hx with
    | refl => rw [unpadded_zero]; exact .refl
    | @tail x y _ hedge ih =>
      by_cases hx : x = p
      · subst hx
        rw [(edge_nop h).1 hedge, unpadded_succ_self]
        rwa [unpadded_self] at ih
      · exact ih.step (edge_unpadded h hx hedge)
  refine ⟨(congrArg T (unpadded_zero p)).trans hT.entry, fun x hx => ?_⟩
  by_cases hxp : x = p
  · subst hxp
    refine ⟨_, _, h.nop, StackRule.next (.stay (.inl rfl)), fun y hedge => ?_⟩
    rw [(edge_nop h).1 hedge, Function.comp_apply, Function.comp_apply, unpadded_succ_self, unpadded_self]
  · obtain ⟨i, s, hi, hnext, hedges⟩ := hT.step _ (hreach hx)
    obtain ⟨i', hi', hpadded⟩ := h.instr hi
    rw [padded_unpadded hxp] at hi'
    refine ⟨i', s, hi', ?_, fun y hedge => hedges _ (edge_unpadded h hxp hedge)⟩
    rwa [next_padded h hpadded] at hnext

private theorem assignment_unpadded (hT : Assignment b' T) : Assignment b (T ∘ padded p) := by
  -- control does not stop at the `nop`, and takes its stack along
  have hpass {x : Nat} (hx : Reachable b' x) :
      Reachable b' (padded p (unpadded p x)) ∧ T (padded p (unpadded p x)) = T x := by
    by_cases hxp : x = p
    · subst hxp
      obtain ⟨i, s, hi, hnext, hedges⟩ := hT.step x hx
      obtain rfl := Option.some.inj (h.nop.symm.trans hi)
      have hedge := (edge_nop h).2 rfl
      rw [unpadded_self, padded_self]
      exact ⟨hx.step hedge, (hedges _ hedge).trans (Except.ok.inj hnext).symm⟩
    · rw [padded_unpadded hxp]
      exact ⟨hx, rfl⟩
  have hstart := hpass Reachable.start
  rw [unpadded_zero] at hstart
  have hreach {q : Nat} (hq : Reachable b q) : Reachable b' (padded p q) := by
    induction hq with
    | refl => exact hstart.1
    | tail _ hedge ih =>
      obtain ⟨y, hy, rfl⟩ := edge_padded h hedge
      exact (hpass (ih.step hy)).1
  refine ⟨hstart.2.trans hT.entry, fun q hq => ?_⟩
  obtain ⟨i', s, hi', hnext, hedges⟩ := hT.step _ (hreach hq)
  rcases h.instr? (padded_ne p q) with ⟨-, hnone⟩ | ⟨i, j', hi, hj', hpadded⟩
  · rw [hnone] at hi'
    cases hi'
  · obtain rfl := Option.some.inj (hj'.symm.trans hi')
    rw [unpadded_padded] at hi
    refine ⟨i, s, hi, (next_padded h hpadded _).trans hnext, fun r hedge => ?_⟩
    obtain ⟨y, hy, rfl⟩ := edge_padded h hedge
    exact (hpass ((hreach hq).step hy)).2.trans (hedges y hy)

/-- A padded body is well typed exactly if the body is that is padded. -/
theorem wellTyped_iff_padded : WellTyped b ↔ WellTyped b' := by
  have hlength := h.length
  have hinside := h.inside
  have hne : b.entries ≠ [] := List.length_pos_iff.1 (show 0 < b.length by omega)
  have hne' : b'.entries ≠ [] := List.length_pos_iff.1 (show 0 < b'.length by omega)
  constructor
  · rintro ⟨-, hfits, hclosed, T, hT⟩
    exact ⟨hne', (forall_fits_iff_padded h).1 hfits, (closed_iff_padded h).1 hclosed, _, assignment_padded h hT⟩
  · rintro ⟨-, hfits, hclosed, T, hT⟩
    exact ⟨hne, (forall_fits_iff_padded h).2 hfits, (closed_iff_padded h).2 hclosed, _, assignment_unpadded h hT⟩

end Padded

end Graft.Typing
