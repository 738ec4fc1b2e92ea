import Graft.Proofs.Host.Installation
import Graft.Proofs.Host.Reached
import Graft.Proofs.Plan.Replacements
import Graft.Proofs.Typing.Encodable

/-!
# Patches of plans

What becomes of the rules that a plan installs.

* `commit_of_applyAll` says that a body to which rules were applied passes verification and can be committed.
* `World.RulesFailure` lists what can keep a patch of rules from being applied, and `Host.applyTo_rules` says that the list
  is complete on all hosts that can be reached.
-/

namespace Graft

open Typing

/-! ### Rules on live bodies -/

namespace MethodTable

variable {t : MethodTable} {target : MethodId} {b b' : Body} {rs : List BoundRule}

theorem Checked.wellTyped (hc : t.Checked) (hload : t.load target = .ok b) : WellTyped b :=
  wellTyped_of_findings (hc.clean (body_eq_ok.1 hload))

/-- A body to which rules were applied passes verification, and is not stale. -/
theorem commit_of_applyAll (hs : t.Sound) (hc : t.Checked) (hload : t.load target = .ok b)
    (hrules : BoundRule.applyAll rs b = .ok b') :
    WellTyped b' ∧ b'.verify = .ok () ∧ t.commit b' = .ok (t.put b') := by
  have hlive : t.get? target = some (.managed b) := body_eq_ok.1 hload
  have hmethod : b'.method = target := (Body.stable_method target).rules (hs.named hlive) hrules
  have hrevision : b'.revision = b.revision := (Body.stable_revision b.revision).rules rfl hrules
  rcases BoundRule.applyAll_spec (hc.numbered hlive) (hc.wellTyped hload) rs with
    ⟨b₁, hb₁, -, htyped, -⟩ | ⟨err, herr, -⟩
  · obtain rfl := Except.ok.inj (hb₁.symm.trans hrules)
    have hverify : b₁.verify = .ok () := by
      rw [Body.verify, violations_eq_nil.2 htyped.findings]
      rfl
    have hfresh : isStale b b₁ = false := by
      rw [isStale, hrevision, bne_self_eq_false, Bool.and_false]
    exact ⟨htyped, hverify, commit_eq_ok.2 ⟨b, hmethod.symm ▸ hlive, hverify, hfresh, rfl⟩⟩
  · rw [hrules] at herr
    cases herr

end MethodTable

/-! ### Attempts -/

/-- What can keep a patch of rules from being applied to a method. -/
inductive World.RulesFailure (w : World) (target : MethodId) (rs : List BoundRule) : PatchError → Prop
  /-- There is no such method. -/
  | unknown (absent : w.table.get? target = none) : RulesFailure w target rs (.body (.unknownMethod target))
  /-- The method has no body. -/
  | intrinsic {s : Signature} {n : Native} (found : w.table.get? target = some (.intrinsic s n)) :
      RulesFailure w target rs (.body (.noBody target))
  /-- An occurrence is missing, two rules clash, an effect is another than that of the setting, or the table of external
  values is full. -/
  | rules {b : Body} {err : PatchError} (live : w.table.load target = .ok b) (failure : BoundRule.Failure b rs err) :
      RulesFailure w target rs err
  /-- A number does not fit its field in the encoding of the new body. -/
  | oversized {b b' : Body} {err : Error} (live : w.table.load target = .ok b)
      (edited : BoundRule.applyAll rs b = .ok b') (encoding : b'.encode = .error err) (size : err.Oversized) :
      RulesFailure w target rs (.body err)

namespace World

variable {w : World} {target : MethodId} {rs : List BoundRule} {err : PatchError}

/-- None of the failures is that of a commit. -/
theorem RulesFailure.not_commit (h : w.RulesFailure target rs err) :
    (∀ m vs, err ≠ .body (.rejected m vs)) ∧ ∀ m, err ≠ .body (.stale m) := by
  cases h with
  | unknown => exact ⟨nofun, nofun⟩
  | intrinsic => exact ⟨nofun, nofun⟩
  | rules _ failure => cases failure <;> exact ⟨nofun, nofun⟩
  | oversized _ _ _ size =>
    cases size
    exact ⟨nofun, nofun⟩

private theorem runPatch_rules (hs : w.table.Sound) (hc : w.table.Checked) {w' : World}
    (h : w.runPatch target (.rules rs) = (.error err, w')) : w.RulesFailure target rs err := by
  unfold runPatch at h
  split at h
  · rename_i e hload
    obtain ⟨herr, -⟩ := Prod.mk.inj h
    obtain rfl := Except.error.inj herr
    unfold MethodTable.load MethodTable.body at hload
    split at hload
    · cases hload
    · rename_i hfound
      obtain rfl := Except.error.inj hload
      exact .intrinsic hfound
    · rename_i habsent
      obtain rfl := Except.error.inj hload
      exact .unknown habsent
  · rename_i b hload
    have hnumbered := hc.numbered (MethodTable.body_eq_ok.1 hload)
    have htyped := hc.wellTyped hload
    rcases BoundRule.applyAll_spec hnumbered htyped rs with ⟨b', hb', -, -⟩ | ⟨err', herr', hfailure⟩
    · -- rules that succeed leave a body that can be committed, so that only the digest can fail
      obtain ⟨htyped', -, hcommit⟩ := MethodTable.commit_of_applyAll hs hc hload hb'
      simp only [Patch.edit, hb', hcommit] at h
      obtain ⟨hdigest, -⟩ := Prod.mk.inj h
      cases htext : b'.digestText with
      | ok digest =>
        rw [htext] at hdigest
        cases hdigest
      | error e =>
        rw [htext] at hdigest
        obtain rfl := Except.error.inj hdigest
        have hencode := Body.digestText_eq_error.1 htext
        exact .oversized hload hb' hencode (Body.oversized_of_encode (fun i hi => (htyped'.fits i hi).formed) hencode)
    · simp only [Patch.edit, herr'] at h
      obtain ⟨herr, -⟩ := Prod.mk.inj h
      obtain rfl := Except.error.inj herr
      exact .rules hload hfailure

/-- An attempt to apply a patch of rules fails for one of the reasons that are listed. -/
theorem applyTo_eq_error (hs : w.table.Sound) (hc : w.table.Checked) {g : Registration}
    (hg : w.registry.get? target = some g) (hrules : g.patch = .rules rs) {w' : World}
    (h : w.applyTo target = (.error err, w')) : w.RulesFailure target rs err := by
  unfold applyTo at h
  rw [hg] at h
  dsimp only at h
  split at h
  · cases h
  · rw [hrules] at h
    split at h
    · cases h
    · rename_i hrun
      obtain ⟨herr, -⟩ := Prod.mk.inj h
      obtain rfl := Except.error.inj herr
      exact runPatch_rules hs hc hrun

end World

namespace Host

/-- Rules that succeed on a copy of a live body, which is checked on every host that can be reached, leave a body that
passes verification, and a commit puts it in place of the live one. So an attempt to apply a patch of rules never fails
because its body is rejected or stale: the target cannot be loaded, the rules do not suit its body, or the new body is too
large to be encoded. -/
theorem applyTo_rules {h : Host} (hh : h.Reached) (target : MethodId) (rs : List BoundRule) :
    (∀ b b', h.world.table.load target = .ok b → BoundRule.applyAll rs b = .ok b' →
      b.verify = .ok () ∧ b'.verify = .ok () ∧ h.commit b' = .ok (h.withTable (h.world.table.put b'))) ∧
    ∀ g err h', h.world.registry.get? target = some g → g.patch = .rules rs → h.applyTo target = (.error err, h') →
      h.world.RulesFailure target rs err ∧
        (∀ m vs, err ≠ .body (.rejected m vs)) ∧ ∀ m, err ≠ .body (.stale m) := by
  constructor
  · intro b b' hload hrules
    obtain ⟨-, hverify, hcommit⟩ := MethodTable.commit_of_applyAll hh.sound hh.checked hload hrules
    refine ⟨?_, hverify, ?_⟩
    · rw [Body.verify, violations_eq_nil.2 (hh.checked.wellTyped hload).findings]
      rfl
    · rw [Host.commit, hcommit]
      rfl
  · intro g err h' hg hpatch happly
    have hworld : h.world.applyTo target = (.error err, (h.world.applyTo target).2) :=
      Prod.ext (Prod.mk.inj happly).1 rfl
    have hfailure := World.applyTo_eq_error hh.sound hh.checked hg hpatch hworld
    exact ⟨hfailure, hfailure.not_commit⟩

/-- A method that returns a constant. -/
def fixed (id : MethodId) : Body where
  method := id
  signature := ⟨[], [], some .i32⟩
  entries := [⟨⟨0⟩, .ldcI4, [.immediate (.i32 5)]⟩, ⟨⟨1⟩, .ret, []⟩]
  nextId := 2

/-- A plan that replaces a constant of two methods, the second constant of one of them. -/
def rates : Plan where
  settings := [⟨"rate", .i32 5, "Rate", "Difficulty"⟩]
  patches := [⟨⟨"Game", "rate"⟩, "rate", [⟨.ldcI4 5, 1, "rate"⟩]⟩, ⟨⟨"Game", "cap"⟩, "cap", [⟨.ldcI4 5, 2, "rate"⟩]⟩]

/-- A host with the plan and with the methods that it is for. -/
def rated : Host :=
  (install {} rates).2.withTable (MethodTable.put (MethodTable.put {} (fixed ⟨"Game", "rate"⟩)) (fixed ⟨"Game", "cap"⟩))

/-- The first rule succeeds, and the second one fails since there is no second constant. -/
theorem applyTo_rules_rated :
    (∃ b b', rated.world.table.load ⟨"Game", "rate"⟩ = .ok b ∧
      BoundRule.applyAll [⟨⟨.ldcI4 5, 1, "rate"⟩, ⟨"rate", .i32, .setting "rate"⟩⟩] b = .ok b' ∧
      b'.verify = .ok () ∧ rated.commit b' = .ok (rated.withTable (rated.world.table.put b'))) ∧
    rated.world.RulesFailure ⟨"Game", "cap"⟩ [⟨⟨.ldcI4 5, 2, "rate"⟩, ⟨"rate", .i32, .setting "rate"⟩⟩]
      .noCurrentInstruction := by
  have hnumbered (id : MethodId) : (fixed id).Numbered := ⟨by simp [fixed], by simp [fixed]⟩
  have hrate : (fixed ⟨"Game", "rate"⟩).verify = .ok () := if_pos (by decide +kernel)
  have hcap : (fixed ⟨"Game", "cap"⟩).verify = .ok () := if_pos (by decide +kernel)
  have hreached : rated.Reached :=
    ((Reached.start.install rates).store (hnumbered _) (MethodTable.store_eq_ok.2 ⟨hrate, rfl⟩)).store (hnumbered _)
      (MethodTable.store_eq_ok.2 ⟨hcap, rfl⟩)
  constructor
  · obtain ⟨b, hload⟩ : ∃ b, rated.world.table.load ⟨"Game", "rate"⟩ = .ok b := ⟨_, rfl⟩
    obtain ⟨b', hrules⟩ : ∃ b', BoundRule.applyAll [⟨⟨.ldcI4 5, 1, "rate"⟩, ⟨"rate", .i32, .setting "rate"⟩⟩] b =
        .ok b' := by
      obtain rfl := Except.ok.inj hload
      exact ⟨_, rfl⟩
    obtain ⟨-, hverify, hcommit⟩ := (applyTo_rules hreached ⟨"Game", "rate"⟩ _).1 b b' hload hrules
    exact ⟨b, b', hload, hrules, hverify, hcommit⟩
  · obtain ⟨h', happly⟩ : ∃ h', rated.applyTo ⟨"Game", "cap"⟩ = (.error .noCurrentInstruction, h') := ⟨_, rfl⟩
    exact ((applyTo_rules hreached ⟨"Game", "cap"⟩ _).2 _ _ h' rfl rfl happly).1

end Host

end Graft
