import Graft.Proofs.Execution.Steps
import Graft.Proofs.Plan.Patched

/-!
# The order of rules

Rules in another order bind their settings in another order and give other identities to the calls. The positions of the
calls, and the setting that each call reads, stay the same, and so does all that a run can see.

* `stepOf_eq_of_calls` says that bodies with the same calls at the same positions make the same steps.
* `selectAll_perm` says that rules in another order select the same.
* `applyAll_perm` says that they succeed on the same bodies, and that the results run alike.
-/

namespace Graft

open Typing

variable {b b₁ b₂ : Body} {i i₁ i₂ : Instruction} {l l₁ l₂ : List (InstrId × Binding)}

/-! ### Steps -/

namespace Body.Calls

variable (h : b.Calls l b₁)

include h

/-- An instruction that was there before takes the same external value. -/
private theorem binding?_eq (hfit : Fits b i) (halike : Instruction.Alike b b₁ i i₁) :
    b₁.binding? i₁ = b.binding? i := by
  rw [Body.binding?, Body.binding?, ← halike.external?]
  cases hn : i.external? with
  | none => rfl
  | some n => exact h.externals_getElem? (hfit.lt_of_external? hn)

/-- At each position there is a call of the selected setting, or an instruction like that of before. -/
private theorem instr?_cases {p : Nat} {e : Entry} (he : b.entries[p]? = some e) :
    (∃ x n, (e.id, x) ∈ l ∧ b₁.instr? p = some ⟨.call, [.external n]⟩ ∧ b₁.externals[n.toNat]? = some x) ∨
    (e.id ∉ l.map Prod.fst ∧ ∃ i, b₁.instr? p = some i ∧ Instruction.Alike b b₁ e.instr i) := by
  by_cases hmem : e.id ∈ l.map Prod.fst
  · obtain ⟨s, hs, hid⟩ := List.mem_map.1 hmem
    obtain ⟨j, hj⟩ := List.mem_iff_getElem?.1 hs
    have hhere : b.id? p = some s.1 := by rw [Body.id?, he, Option.map_some, hid]
    obtain ⟨n, hn, hcall⟩ := h.call hj hhere
    exact .inl ⟨s.2, n, hid ▸ hs, hcall, h.binding hj hn⟩
  · obtain ⟨i, hi, halike⟩ := h.other he hmem
    exact .inr ⟨hmem, i, by rw [Body.instr?, hi, Option.map_some], halike⟩

end Body.Calls

open Execution in
/-- Bodies with calls of the same settings in place of the same instructions make the same steps. -/
theorem stepOf_eq_of_calls {σ : Type} (hfits : ∀ i ∈ b.instrs, Fits b i) (h₁ : b.Calls l₁ b₁) (h₂ : b.Calls l₂ b₂)
    (hnodup : (l₁.map Prod.fst).Nodup) (hperm : l₁.Perm l₂) (read : Source → σ → Value × σ) :
    stepOf read b₁ = stepOf read b₂ := by
  funext f s
  rw [stepOf, stepOf, advance, advance, cells_getElem?, cells_getElem?, h₁.signature, h₂.signature]
  cases he : b.entries[f.pos]? with
  | none =>
    have hend {b' : Body} (hlength : b'.length = b.length) : b'.instr? f.pos = none := by
      have hout : b'.length ≤ f.pos := by
        rw [hlength]
        exact List.getElem?_eq_none_iff.1 he
      rw [Body.instr?, List.getElem?_eq_none hout, Option.map_none]
    simp only [hend h₁.length, hend h₂.length, Option.map_none, size_cells, h₁.length, h₂.length]
  | some e =>
    have hfit : Fits b e.instr := hfits _ (List.mem_map_of_mem (List.mem_of_getElem? he))
    have hkeys : e.id ∈ l₁.map Prod.fst ↔ e.id ∈ l₂.map Prod.fst := (hperm.map Prod.fst).mem_iff
    rcases h₁.instr?_cases he with ⟨x, n, hx, hcall₁, hrow₁⟩ | ⟨hnot₁, i₁, hi₁, halike₁⟩
    · rcases h₂.instr?_cases he with ⟨y, m, hy, hcall₂, hrow₂⟩ | ⟨hnot₂, -⟩
      · -- both rows hold the setting that was selected with the instruction
        have hsame : (e.id, x) = (e.id, y) := List.inj_on_of_nodup_map hnodup hx (hperm.mem_iff.2 hy) rfl
        obtain rfl : x = y := (Prod.mk.inj hsame).2
        simp only [hcall₁, hcall₂, Option.map_some]
        apply step_congr
        · rfl
        · rfl
        · rfl
        · rfl
        · exact fun _ => rfl
        · exact hrow₁.trans hrow₂.symm
      · exact absurd (hkeys.1 (List.mem_map_of_mem hx)) hnot₂
    · rcases h₂.instr?_cases he with ⟨y, m, hy, -, -⟩ | ⟨-, i₂, hi₂, halike₂⟩
      · exact absurd (hkeys.2 (List.mem_map_of_mem hy)) hnot₁
      · simp only [hi₁, hi₂, Option.map_some]
        apply step_congr
        · exact halike₁.op.symm.trans halike₂.op
        · exact halike₁.immediate?.symm.trans halike₂.immediate?
        · exact halike₁.slot?.symm.trans halike₂.slot?
        · exact halike₁.target?.symm.trans halike₂.target?
        · intro hnone
          have hnone := halike₁.target?.trans hnone
          exact (halike₁.label? hnone).symm.trans (halike₂.label? hnone)
        · exact (h₁.binding?_eq hfit halike₁).trans (h₂.binding?_eq hfit halike₂).symm

open Execution in
/-- Bodies with calls of the same settings in place of the same instructions run alike. -/
theorem run_eq_of_calls {σ : Type} (hfits : ∀ i ∈ b.instrs, Fits b i) (h₁ : b.Calls l₁ b₁) (h₂ : b.Calls l₂ b₂)
    (hnodup : (l₁.map Prod.fst).Nodup) (hperm : l₁.Perm l₂) (read : Source → σ → Value × σ) (args : List Value)
    (limit : Nat) (s : σ) : b₁.run read args limit s = b₂.run read args limit s := by
  have hstep := stepOf_eq_of_calls hfits h₁ h₂ hnodup hperm read
  have hentry : entryFrame b₁ args = entryFrame b₂ args := by rw [entryFrame, entryFrame, h₁.signature, h₂.signature]
  have hlength : b₁.length = b₂.length := h₁.length.trans h₂.length.symm
  rw [Body.run_eq, Body.run_eq, Body.runBy, Body.runBy, hstep, hentry, conclude_congr hlength, h₁.method, h₂.method,
    h₁.signature, h₂.signature]

namespace BoundRule

variable {rs rs' : List BoundRule}

/-! ### Rules in another order -/

/-- Rules in another order select the same, in another order. -/
theorem selectAll_perm (hperm : rs.Perm rs') (h : selectAll b [] rs = .ok l) :
    ∃ l', selectAll b [] rs' = .ok l' ∧ l.Perm l' := by
  obtain ⟨hrules, hnodup, -⟩ := selectAll_eq_ok_iff.1 h
  obtain ⟨l', hrules', hperm'⟩ := List.perm_comp_forall₂ hperm.symm hrules
  refine ⟨l', selectAll_eq_ok_iff.2 ⟨hrules', ?_, fun id _ => List.not_mem_nil⟩, hperm'.symm⟩
  exact (hperm'.map Prod.fst).nodup_iff.2 hnodup

theorem Admits.perm {l l' : List (InstrId × Binding)} (hperm : l.Perm l') (h : Admits b l) : Admits b l' := by
  obtain ⟨hsuits, hroom⟩ := h
  refine ⟨fun s hs => hsuits s (hperm.mem_iff.2 hs), fun hne => ?_⟩
  have hne' : l ≠ [] := by
    rintro rfl
    exact hne (List.nil_perm.1 hperm)
  rw [← hperm.length_eq]
  exact hroom hne'

theorem exists_applyAll_perm (hb : b.Numbered) (hw : WellTyped b) (hperm : rs.Perm rs')
    (h : ∃ b', applyAll rs b = .ok b') : ∃ b', applyAll rs' b = .ok b' := by
  rw [exists_applyAll_iff hb hw] at h ⊢
  obtain ⟨l, hl, hadmits⟩ := h
  obtain ⟨l', hl', hperm'⟩ := selectAll_perm hperm hl
  exact ⟨l', hl', hadmits.perm hperm'⟩

theorem verify_of_applyAll (hb : b.Numbered) (hw : WellTyped b) {b' : Body} (h : applyAll rs b = .ok b') :
    b'.verify = .ok () := by
  rcases applyAll_spec hb hw rs with ⟨b'', hb'', -, htyped, -⟩ | ⟨err, herr, -⟩
  · obtain rfl := Except.ok.inj (h.symm.trans hb'')
    exact verify_eq_ok.2 htyped.findings
  · rw [herr] at h
    cases h

/-- Rules in another order succeed on the same bodies. All results pass verification, and they run alike: with the same
results and errors, and with the same questions to the sources, which are in the same state afterwards. -/
theorem applyAll_perm (hb : b.Numbered) (hverified : b.verify = .ok ()) (hperm : rs.Perm rs') :
    ((∃ b₁, applyAll rs b = .ok b₁) ↔ ∃ b₂, applyAll rs' b = .ok b₂) ∧
      ∀ b₁ b₂, applyAll rs b = .ok b₁ → applyAll rs' b = .ok b₂ → b₁.verify = .ok () ∧ b₂.verify = .ok () ∧
        ∀ {σ : Type} (read : Source → σ → Value × σ) (args : List Value) (limit : Nat) (s : σ),
          b₁.run read args limit s = b₂.run read args limit s := by
  have hw : WellTyped b := wellTyped_of_findings (verify_eq_ok.1 hverified)
  refine ⟨⟨exists_applyAll_perm hb hw hperm, exists_applyAll_perm hb hw hperm.symm⟩, fun b₁ b₂ h₁ h₂ => ?_⟩
  obtain ⟨l₁, hl₁, hcalls₁⟩ := calls_of_applyAll hb hw h₁
  obtain ⟨l₂, hl₂, hcalls₂⟩ := calls_of_applyAll hb hw h₂
  obtain ⟨l₂', hl₂', hperm'⟩ := selectAll_perm hperm hl₁
  obtain rfl := Except.ok.inj (hl₂.symm.trans hl₂')
  refine ⟨verify_of_applyAll hb hw h₁, verify_of_applyAll hb hw h₂, fun read args limit s => ?_⟩
  exact run_eq_of_calls hw.fits hcalls₁ hcalls₂ (selectAll_ok hl₁).1 hperm' read args limit s

/-- Two orders of two rules, with bodies that differ in their rows of external values but run alike. -/
theorem applyAll_perm_polling : ∃ b₁ b₂, applyAll pollingRules polling = .ok b₁ ∧
    applyAll pollingRules.reverse polling = .ok b₂ ∧ b₁.externals ≠ b₂.externals ∧
    b₁.verify = .ok () ∧ b₂.verify = .ok () ∧
    ∀ {σ : Type} (read : Source → σ → Value × σ) (args : List Value) (limit : Nat) (s : σ),
      b₁.run read args limit s = b₂.run read args limit s := by
  obtain ⟨hiff, hsame⟩ := applyAll_perm (b := polling) ⟨by decide, by decide⟩ rfl (List.reverse_perm pollingRules).symm
  obtain ⟨b₁, h₁⟩ : ∃ b₁, applyAll pollingRules polling = .ok b₁ := ⟨_, rfl⟩
  obtain ⟨b₂, h₂⟩ := hiff.1 ⟨b₁, h₁⟩
  obtain ⟨hverify₁, hverify₂, hrun⟩ := hsame b₁ b₂ h₁ h₂
  refine ⟨b₁, b₂, h₁, h₂, ?_, hverify₁, hverify₂, hrun⟩
  have hrows₁ : (applyAll pollingRules polling).toOption.map Body.externals = some b₁.externals := by rw [h₁]; rfl
  have hrows₂ : (applyAll pollingRules.reverse polling).toOption.map Body.externals = some b₂.externals := by
    rw [h₂]
    rfl
  intro heq
  rw [heq, ← hrows₂] at hrows₁
  exact absurd hrows₁ (by decide +kernel)

end BoundRule

end Graft
