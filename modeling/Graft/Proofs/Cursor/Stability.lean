import Graft.Host.Registry
import Graft.Proofs.Body.Numbering

/-!
# What no edit takes away

A property of bodies is stable if every edit of a body keeps it. All edits at a cursor then keep it, and so do scripts,
rules and patches (`Body.Stable.edit`).

* `stable_numbered`, `stable_method` and `stable_revision` give stable properties.
-/

namespace Graft

/-- A property that a body keeps when its instructions, their labels or its external values are edited. -/
structure Body.Stable (P : Body → Prop) : Prop where
  erase : ∀ {b b' : Body} {p : Nat} {e : Entry}, P b → b.erase p = .ok (e, b') → P b'
  insert : ∀ {b b' : Body} {p : Nat} {i : Instruction}, P b → b.insert p i = .ok b' → P b'
  retarget : ∀ {b : Body} (source target : InstrId), P b → P (b.retarget source target)
  retargetOnly : ∀ {b : Body} (ids : List InstrId) (source target : InstrId), P b → P (b.retargetOnly ids source target)
  bind : ∀ {b b' : Body} {x : Binding} {n : UInt16}, P b → b.bind x = .ok (n, b') → P b'

theorem Body.stable_numbered : Body.Stable Body.Numbered where
  erase h := h.erase
  insert h := h.insert
  retarget source target h := h.retarget source target
  retargetOnly ids source target h := h.retargetOnly ids source target
  bind h := h.bind

/-- What does not depend on instructions, external values and identities is not affected by edits. -/
theorem Body.stable_of_frame {P : Body → Prop}
    (h : ∀ b entries externals nextId, P b → P { b with entries := entries, externals := externals, nextId := nextId }) :
    Body.Stable P where
  erase hb he := by
    obtain ⟨-, rfl⟩ := Body.erase_ok_iff.1 he
    exact h _ _ _ _ hb
  insert hb hi := by
    obtain ⟨-, rfl⟩ := Body.insert_ok_iff.1 hi
    exact h _ _ _ _ hb
  retarget _ _ hb := h _ _ _ _ hb
  retargetOnly _ _ _ hb := h _ _ _ _ hb
  bind hb hx := by
    obtain ⟨-, -, rfl⟩ := Body.bind_ok_iff.1 hx
    exact h _ _ _ _ hb

/-- No edit makes a body that of another method. -/
theorem Body.stable_method (id : MethodId) : Body.Stable fun b => b.method = id :=
  Body.stable_of_frame fun _ _ _ _ h => h

/-- No edit makes a body a copy of another revision. -/
theorem Body.stable_revision (r : Option Nat) : Body.Stable fun b => b.revision = r :=
  Body.stable_of_frame fun _ _ _ _ h => h

namespace Body.Stable

variable {P : Body → Prop} {c c₁ : Cursor}

/-! ### Edits at a cursor -/

theorem remove (hP : Body.Stable P) (hc : P c.body) {i : Instruction} (h : c.remove = .ok (i, c₁)) : P c₁.body := by
  unfold Cursor.remove at h
  split at h
  · split at h
    · cases h
    · rename_i hrest
      split at h
      all_goals obtain ⟨-, rfl⟩ := Prod.mk.inj (Except.ok.inj h)
      · exact hP.retarget _ _ (hP.erase hc hrest)
      · exact hP.erase hc hrest
  · cases h

theorem insertAt (hP : Body.Stable P) (hc : P c.body) {i : Instruction} {t : InstrId} (h : c.insert i = .ok (t, c₁)) :
    P c₁.body := by
  unfold Cursor.insert at h
  dsimp only at h
  split at h
  · cases h
  · rename_i hinsert
    obtain ⟨-, rfl⟩ := Prod.mk.inj (Except.ok.inj h)
    dsimp only
    split
    · exact hP.retargetOnly _ _ _ (hP.insert hc hinsert)
    · exact hP.insert hc hinsert

theorem insertCall (hP : Body.Stable P) (hc : P c.body) {x : Binding} {n : UInt16}
    (h : c.insertCall x = .ok (n, c₁)) : P c₁.body := by
  have hbound (h : Cursor.insertCall.bound c x = .ok (n, c₁)) : P c₁.body := by
    unfold Cursor.insertCall.bound at h
    split at h
    · cases h
    · rename_i hbind
      split at h
      · cases h
      · rename_i hinsert
        obtain ⟨-, rfl⟩ := Prod.mk.inj (Except.ok.inj h)
        exact hP.insertAt (hP.bind hc hbind) hinsert
  unfold Cursor.insertCall at h
  split at h
  · split at h
    · exact hbound h
    · cases h
  · exact hbound h

theorem replaceCurrent (hP : Body.Stable P) (hc : P c.body) (x : Binding) : P (c.replaceCurrent x).2.body := by
  unfold Cursor.replaceCurrent
  split
  · exact hc
  · rename_i hremove
    have hc₁ := hP.remove hc hremove
    split
    · exact hc₁
    · rename_i hcall
      exact hP.insertCall hc₁ hcall

end Body.Stable

/-! ### Moves leave the body alone -/

namespace Cursor

theorem body_seekTo? {c c₁ : Cursor} {p : Nat} (h : c.seekTo? p = some c₁) : c₁.body = c.body := by
  unfold seekTo? at h
  split at h
  · exact Option.some.inj h ▸ rfl
  · cases h

theorem body_moveBy? {c c₁ : Cursor} {delta : Int} (h : c.moveBy? delta = some c₁) : c₁.body = c.body := by
  unfold moveBy? at h
  obtain ⟨p, -, hp⟩ := Option.bind_eq_some_iff.1 h
  split at hp
  · cases hp
  · exact body_seekTo? hp

theorem body_findNext (c : Cursor) (test : Instruction → Bool) : (c.findNext test).2.body = c.body := by
  unfold findNext
  split
  · rfl
  · split <;> rfl

theorem body_findSequence (c : Cursor) (tests : List (Instruction → Bool)) :
    (c.findSequence tests).2.body = c.body := by
  unfold findSequence
  split
  · rfl
  · split
    · rfl
    · split <;> rfl

theorem body_findNth (c : Cursor) (test : Instruction → Bool) (n : Nat) : (c.findNth test n).body = c.body := by
  induction n generalizing c with
  | zero => rfl
  | succ n ih =>
    have hnext := body_findNext c test
    unfold findNth
    split
    · rename_i c₁ hfound
      rw [hfound] at hnext
      exact (ih c₁).trans hnext
    · rename_i c₁ hfound
      rw [hfound] at hnext
      exact hnext

end Cursor

namespace Body.Stable

variable {P : Body → Prop}

/-! ### Scripts, rules and patches -/

private theorem goTo (d : Desk) {c? : Option Cursor} (hc : ∀ c, c? = some c → c.body = d.cursor.body) :
    (EditStep.goTo d c?).2.cursor.body = d.cursor.body := by
  cases c? with
  | none => rfl
  | some c => exact hc c rfl

private theorem supplied (d : Desk) (s : Supply) {f : Cursor → Binding → Except PatchError StepResult × Cursor}
    (hd : P d.cursor.body) (hf : ∀ x, P (f d.cursor x).2.body) : P (EditStep.supplied d s f).2.cursor.body := by
  unfold EditStep.supplied
  split
  · exact hd
  · exact hf _

/-- An operation keeps what every edit keeps, also when it fails. -/
theorem step (hP : Body.Stable P) {d : Desk} (hd : P d.cursor.body) (s : EditStep) : P (s.run d).2.cursor.body := by
  cases s with
  | seekFirst => exact hd
  | seekTo p => exact (goTo d fun c hc => Cursor.body_seekTo? hc) ▸ hd
  | findNext probe => exact (Cursor.body_findNext d.cursor _) ▸ hd
  | findSequence probes => exact (Cursor.body_findSequence d.cursor _) ▸ hd
  | moveBy delta => exact (goTo d fun c hc => Cursor.body_moveBy? hc) ▸ hd
  | remove =>
    unfold EditStep.run
    dsimp only
    split
    · rename_i hremove
      exact hP.remove hd hremove
    · exact hd
  | insert i =>
    unfold EditStep.run
    dsimp only
    split
    · rename_i hinsert
      exact hP.insertAt hd hinsert
    · exact hd
  | insertCall s =>
    refine supplied d s hd fun x => ?_
    split
    · rename_i hcall
      exact hP.insertCall hd hcall
    · exact hd
  | replaceNth probe n s =>
    -- the searches come first, and leave the body alone
    refine supplied d s hd fun x => ?_
    exact hP.replaceCurrent ((Cursor.body_findNth d.cursor _ n).symm ▸ hd) x
  | replaceCurrent s =>
    refine supplied d s hd fun x => ?_
    exact hP.replaceCurrent hd x
  | fail reason => exact hd

theorem script (hP : Body.Stable P) {d : Desk} (hd : P d.cursor.body) (ss : Script) :
    P (Script.run d ss).2.cursor.body := by
  induction ss generalizing d with
  | nil => exact hd
  | cons s ss ih =>
    have hstep := hP.step hd s.step
    unfold Script.run
    split
    · rename_i hs
      rw [hs] at hstep
      exact hstep
    · rename_i hs
      rw [hs] at hstep
      split
      · exact hstep
      · exact ih hstep

private theorem replace (hP : Body.Stable P) {c c' : Cursor} (hc : P c.body) {id : InstrId} {x : Binding}
    (h : BoundRule.replace c id x = .ok c') : P c'.body := by
  unfold BoundRule.replace at h
  split at h
  · cases h
  · rename_i c₁ hseek
    obtain ⟨p, -, hp⟩ := Option.bind_eq_some_iff.1 hseek
    have hbody : P c₁.body := (Cursor.body_seekTo? hp).symm ▸ hc
    have hreplaced := hP.replaceCurrent hbody x
    split at h
    · rename_i hok
      rw [hok] at hreplaced
      exact Except.ok.inj h ▸ hreplaced
    · cases h

theorem rules (hP : Body.Stable P) {b b' : Body} (hb : P b) {rs : List BoundRule}
    (h : BoundRule.applyAll rs b = .ok b') : P b' := by
  unfold BoundRule.applyAll at h
  obtain ⟨selected, -, h⟩ := bind_eq_ok.1 h
  obtain ⟨c, hc, h⟩ := bind_eq_ok.1 h
  obtain rfl := Except.ok.inj h
  exact foldlM_keeps (P := fun c : Cursor => P c.body) (fun c s c' hbody hreplace => hP.replace hbody hreplace)
    selected hb hc

/-- A patch keeps what every edit keeps. -/
theorem edit (hP : Body.Stable P) {b b' : Body} (hb : P b) {p p' : Providers} {patch : Patch}
    (h : patch.edit b p = (.ok b', p')) : P b' := by
  cases patch with
  | rules rs =>
    obtain ⟨hrules, -⟩ := Prod.mk.inj h
    exact hP.rules hb hrules
  | script ss =>
    have hscript := hP.script (d := ⟨{ body := b }, p⟩) hb ss
    unfold Patch.edit at h
    dsimp only at h
    split at h
    · rename_i hrun
      rw [hrun] at hscript
      obtain ⟨hbody, -⟩ := Prod.mk.inj h
      exact Except.ok.inj hbody ▸ hscript
    · cases h

end Body.Stable

end Graft
