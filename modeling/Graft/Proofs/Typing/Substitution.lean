import Graft.Body.Effect
import Graft.Proofs.Body.Substitution
import Graft.Proofs.Typing.Blocks
import Graft.Proofs.Typing.Rules

/-!
# Calls in place of other instructions

* `Serves` says that an instruction of one body does to the typed stack, and to the flow of control, what an instruction
  of another body does. A body whose instructions are served one by one passes its typing on (`WellTyped.of_serves`).
* `WellTyped.withCall` says that a body stays well typed when an instruction that only puts a value on the stack gives way
  to a call of an external value of its type.
-/

namespace Graft.Typing

variable {b b' : Body} {p : Nat} {e : Entry} {x : Binding} {i i' : Instruction}

/-! ### Operands of well-typed bodies -/

theorem WellTyped.simple (hw : WellTyped b) : b.Simple :=
  fun _ he => (hw.fits _ (List.mem_map_of_mem he)).length_operands

theorem WellTyped.linked (hw : WellTyped b) : b.Linked := by
  intro e he t ht
  have hfit := hw.fits _ (List.mem_map_of_mem he)
  generalize e.instr = i at hfit ht
  cases hfit with
  | branch kind named =>
    rw [List.mem_singleton] at ht
    exact Operand.label.inj ht ▸ named
  | _ => simp at ht

/-! ### Instructions that serve in place of others -/

/-- The instruction `i'` of `b'` fits, and can stand where `i` stands in `b`. -/
structure Serves (b b' : Body) (i i' : Instruction) : Prop where
  fits : Fits b' i'
  isBranch : i'.op.isBranch = i.op.isBranch
  isTerminal : i'.op.isTerminal = i.op.isTerminal
  target : b'.target? i' = b.target? i
  next : ∀ s, next b' i' s = next b i s

section Serves

variable (hlength : b'.length = b.length)
  (hserves : ∀ {q i}, b.instr? q = some i → ∃ i', b'.instr? q = some i' ∧ Serves b b' i i')

include hlength hserves

/-- Each instruction serves in place of one. -/
private theorem exists_served {q : Nat} (hi' : b'.instr? q = some i') : ∃ i, b.instr? q = some i ∧ Serves b b' i i' := by
  obtain ⟨i, hi⟩ := exists_instr (hlength ▸ lt_length_of_instr? hi')
  obtain ⟨j, hj, hserve⟩ := hserves hi
  obtain rfl := Option.some.inj (hj.symm.trans hi')
  exact ⟨i, hi, hserve⟩

private theorem edge_of_serves {p q : Nat} : Edge b' p q ↔ Edge b p q := by
  constructor
  · rintro (⟨here, goesOn⟩ | ⟨here, branch, target⟩)
    · obtain ⟨i, hi, h⟩ := exists_served hlength hserves here
      exact .next hi (h.isTerminal ▸ goesOn)
    · obtain ⟨i, hi, h⟩ := exists_served hlength hserves here
      exact .jump hi (h.isBranch ▸ branch) (h.target ▸ target)
  · rintro (⟨here, goesOn⟩ | ⟨here, branch, target⟩)
    · obtain ⟨i', hi', h⟩ := hserves here
      exact .next hi' (h.isTerminal ▸ goesOn)
    · obtain ⟨i', hi', h⟩ := hserves here
      exact .jump hi' (h.isBranch ▸ branch) (h.target ▸ target)

/-- A body whose instructions are served one by one passes on its typing. -/
theorem WellTyped.of_serves (hw : WellTyped b) : WellTyped b' := by
  have hpos : 0 < b.length := List.length_pos_iff.2 hw.nonempty
  have hedge {p q : Nat} : Edge b' p q ↔ Edge b p q := edge_of_serves hlength hserves
  refine ⟨List.length_pos_iff.1 (hlength.symm ▸ hpos : 0 < b'.length), fun i' hi' => ?_, ?_, ?_⟩
  · obtain ⟨q, hq, rfl⟩ := List.getElem_of_mem hi'
    obtain ⟨i, -, h⟩ := exists_served hlength hserves
      ((Body.instrs_getElem? ..).symm.trans (List.getElem?_eq_getElem hq))
    exact h.fits
  · obtain ⟨i, hi⟩ := exists_instr (b := b) (p := b.length - 1) (by omega)
    obtain ⟨i', hi', h⟩ := hserves hi
    rw [closed_iff (hlength.symm ▸ hi' : b'.instr? (b'.length - 1) = some i'), h.isTerminal, ← closed_iff hi]
    exact hw.closed
  · obtain ⟨T, hT⟩ := hw.typable
    refine ⟨T, hT.entry, fun q hq => ?_⟩
    have hreach : Reachable b q := by
      refine Relation.ReflTransGen.mono (fun _ _ h => ?_) _ _ hq
      exact hedge.1 h
    obtain ⟨i, s, hi, hnext, hstack⟩ := hT.step q hreach
    obtain ⟨i', hi', h⟩ := hserves hi
    exact ⟨i', s, hi', (h.next _).trans hnext, fun r hr => hstack r (hedge.1 hr)⟩

end Serves

/-- It does not matter for the typing which revision a body is a copy of. -/
theorem WellTyped.withRevision (hw : WellTyped b) (r : Option Nat) : WellTyped { b with revision := r } := by
  refine WellTyped.of_serves (b := b) rfl (fun {q i} hi => ⟨i, hi, ?_, rfl, rfl, rfl, fun s => rfl⟩) hw
  cases hw.fits i (mem_instrs_of_instr? hi) with
  | plain kind => exact .plain kind
  | constant kind => exact .constant kind
  | argument kind bound => exact .argument kind bound
  | localVar kind bound => exact .localVar kind bound
  | external bound => exact .external bound
  | branch kind named => exact .branch kind named

/-! ### Instructions that only put a value on the stack -/

/-- Known to put one value of type `t` on the stack are the instructions that load a constant, an argument, a local or
an external value of that type. -/
theorem rule_of_effect? {t : ValueType} (h : b.effect? i = some ⟨0, 1, some t⟩) (s : Stack) :
    StackRule b i s (t :: s) ∧ i.op.isBranch = false ∧ i.op.isTerminal = false := by
  have hputs {α : Type} {o : Option α} {f : α → ValueType}
      (h : (o.map fun a => (⟨0, 1, some (f a)⟩ : Effect)) = some ⟨0, 1, some t⟩) : ∃ a, o = some a ∧ f a = t := by
    obtain ⟨a, ha, hf⟩ := Option.map_eq_some_iff.1 h
    exact ⟨a, ha, by simpa using hf⟩
  unfold Body.effect? at h
  split at h
  case h_3 hop | h_4 hop | h_5 hop =>
    obtain ⟨v, hv, rfl⟩ := hputs h
    exact ⟨.constant (by simp [hop]) hv, by rw [hop]; rfl, by rw [hop]; rfl⟩
  case h_6 hop =>
    obtain ⟨t, ht, rfl⟩ := hputs h
    exact ⟨.ldarg hop ht, by rw [hop]; rfl, by rw [hop]; rfl⟩
  case h_7 hop =>
    obtain ⟨t, ht, rfl⟩ := hputs h
    exact ⟨.ldloc hop ht, by rw [hop]; rfl, by rw [hop]; rfl⟩
  case h_13 hop =>
    obtain ⟨y, hy, rfl⟩ := hputs h
    exact ⟨.call hop hy, by rw [hop]; rfl, by rw [hop]; rfl⟩
  -- all others take values from the stack, or put none on it
  all_goals simp at h

/-! ### Bodies with a call in place of another instruction -/

theorem withCall_instr? (he : b.entries[p]? = some e) {q : Nat} (hq : q ≠ p) :
    (b.withCall p e.id x).instr? q = (b.instr? q).map (Instruction.retarget e.id b.freshId) := by
  have := Body.substitute_instr? (i := ⟨.call, [.external (UInt16.ofNat b.externals.size)]⟩) he q
  rw [if_neg hq] at this
  exact this

/-- The new instruction is the call. -/
theorem withCall_instr?_self (he : b.entries[p]? = some e) :
    (b.withCall p e.id x).instr? p = some ⟨.call, [.external (UInt16.ofNat b.externals.size)]⟩ :=
  (Body.substitute_instr? he p).trans (if_pos rfl)

theorem length_withCall (b : Body) (p : Nat) (old : InstrId) (x : Binding) :
    (b.withCall p old x).length = b.length :=
  Body.length_substitute ..

/-- The new instruction calls the new external value. -/
theorem withCall_binding? (hroom : b.externals.size < Body.maxExternals) (old : InstrId) :
    (b.withCall p old x).binding? ⟨.call, [.external (UInt16.ofNat b.externals.size)]⟩ = some x := by
  have hrow : (UInt16.ofNat b.externals.size).toNat = b.externals.size := UInt16.toNat_ofNat_of_lt hroom
  show (b.externals.push x)[(UInt16.ofNat b.externals.size).toNat]? = some x
  rw [hrow, Array.getElem?_push_size]

/-- An instruction that fits goes to the same position in both bodies, and takes the same external value. -/
theorem withCall_operands (hb : b.Numbered) (he : b.entries[p]? = some e) (hfit : Fits b i) :
    (b.withCall p e.id x).target? (i.retarget e.id b.freshId) = b.target? i ∧
      (b.withCall p e.id x).binding? (i.retarget e.id b.freshId) = b.binding? i := by
  constructor
  · refine Body.substitute_target? hb he fun t ht hfresh => ?_
    exact hb.freshId_not_mem (hfresh ▸ hfit.mem_of_label? ht)
  · rw [Body.binding?, Body.binding?, Instruction.external?_retarget]
    cases hn : i.external? with
    | none => rfl
    | some n =>
      have hlt := hfit.lt_of_external? hn
      show (b.externals.push x)[n]? = b.externals[n]?
      rw [Array.getElem?_push, if_neg (Nat.ne_of_lt hlt)]

/-- The effect of another instruction stays the same. -/
theorem effect?_withCall (hb : b.Numbered) (he : b.entries[p]? = some e) (hfit : Fits b i) :
    (b.withCall p e.id x).effect? (i.retarget e.id b.freshId) = b.effect? i := by
  simp only [Body.effect?, Instruction.immediate?_retarget, Instruction.slot?_retarget,
    (withCall_operands hb he hfit).2]
  rfl

private theorem fits_withCall (he : b.entries[p]? = some e) (hfit : Fits b i) :
    Fits (b.withCall p e.id x) (i.retarget e.id b.freshId) := by
  cases hfit with
  | plain kind => exact .plain kind
  | constant kind => exact .constant kind
  | argument kind bound => exact .argument kind bound
  | localVar kind bound => exact .localVar kind bound
  | external bound => exact .external (by show _ < (b.externals.push x).size; rw [Array.size_push]; omega)
  | @branch op t kind named =>
    have hnamed : (if t = e.id then b.freshId else t) ∈ (b.withCall p e.id x).entries.map Entry.id := by
      by_cases ht : t = e.id
      · rw [if_pos ht]
        exact Body.freshId_mem_substitute he
      · rw [if_neg ht]
        exact Body.mem_ids_substitute he named ht
    have hlabel : (⟨op, [.label t]⟩ : Instruction).retarget e.id b.freshId =
        ⟨op, [.label (if t = e.id then b.freshId else t)]⟩ := by
      simp only [Instruction.retarget, List.map_cons, List.map_nil, Operand.retarget]
      split <;> rfl
    rw [hlabel]
    exact .branch kind hnamed

/-- A body stays well typed when an instruction that only puts a value on the stack gives way to a call of an external
value of its type. -/
theorem WellTyped.withCall (hb : b.Numbered) (hw : WellTyped b) (he : b.entries[p]? = some e)
    (heffect : b.effect? e.instr = some ⟨0, 1, some x.type⟩) (hroom : b.externals.size < Body.maxExternals) :
    WellTyped (b.withCall p e.id x) := by
  have hi := Body.instr?_of_getElem? he
  refine hw.of_serves (length_withCall ..) fun {q i} hiq => ?_
  have hfit := hw.fits i (mem_instrs_of_instr? hiq)
  by_cases hq : q = p
  · subst hq
    obtain rfl := Option.some.inj (hiq.symm.trans hi)
    have hrule (s : Stack) := rule_of_effect? heffect s
    have hlabel : e.instr.label? = none := hfit.label?_eq_none (hrule []).2.1
    have hrow : (UInt16.ofNat b.externals.size).toNat = b.externals.size := UInt16.toNat_ofNat_of_lt hroom
    refine ⟨_, withCall_instr?_self he, ⟨.external ?_, ?_, ?_, ?_, fun s => ?_⟩⟩
    · show _ < (b.externals.push x).size
      rw [hrow, Array.size_push]
      exact Nat.lt_succ_self _
    · exact (hrule []).2.1.symm
    · exact (hrule []).2.2.symm
    · rw [Body.target?, Body.target?, hlabel]
      rfl
    · rw [(hrule s).1.next, StackRule.next (.call rfl (withCall_binding? hroom e.id))]
  · obtain ⟨htarget, hbinding⟩ := withCall_operands (x := x) hb he hfit
    refine ⟨_, by rw [withCall_instr? he hq, hiq, Option.map_some], ⟨fits_withCall he hfit, rfl, rfl, htarget, ?_⟩⟩
    exact next_congr rfl Instruction.immediate?_retarget Instruction.slot?_retarget hbinding rfl

end Graft.Typing
