import Graft.Proofs.Cursor.Stability
import Graft.Proofs.Host.MethodTable

/-!
# Attempts that fail

What an attempt to apply a patch leaves behind when it fails.

* `runPatch_error` says that the table stays as it is, unless the edited body was committed and only then turned out to
  have no digest (`World.Overcommits`).
* `applyTo_error` says so of the live bodies, and what becomes of the registration.
-/

namespace Graft

/-- A body with too many parameters has no encoding. -/
theorem Body.encode_of_params {b : Body} (h : 256 ≤ b.signature.params.length) : ∃ e, b.encode = .error e := by
  have htypes : Encoding.types b.signature.params = .error (.tooLarge "type list" b.signature.params.length) := by
    have hfield : Encoding.field "type list" 1 b.signature.params.length =
        .error (.tooLarge "type list" b.signature.params.length) := if_neg (Nat.not_lt.2 h)
    rw [Encoding.types, hfield]
    rfl
  unfold encode
  cases Encoding.text b.method.declaringType with
  | error e => exact ⟨e, rfl⟩
  | ok bytes =>
    cases Encoding.text b.method.name with
    | error e => exact ⟨e, rfl⟩
    | ok bytes' => exact ⟨_, by rw [htypes]; rfl⟩

/-- A digest fails as the encoding does. -/
theorem Body.digestText_eq_error {b : Body} {x : Error} : b.digestText = .error x ↔ b.encode = .error x := by
  rw [digestText, digest]
  cases b.encode <;> simp [Except.map]

namespace World

variable {w w' : World} {target : MethodId} {e : PatchError}

/-- The body that a patch makes of the live body of a method is committed, but it cannot be encoded. -/
def Overcommits (w : World) (target : MethodId) (patch : Patch) (b : Body) : Prop :=
  ∃ live p t x, w.table.load target = .ok live ∧ patch.edit live w.providers = (.ok b, p) ∧
    w.table.commit b = .ok t ∧ b.encode = .error x

theorem Overcommits.unique {patch : Patch} {b b' : Body} (h : w.Overcommits target patch b)
    (h' : w.Overcommits target patch b') : b = b' := by
  obtain ⟨live, p, t, x, hload, hedit, -⟩ := h
  obtain ⟨live', p', t', x', hload', hedit', -⟩ := h'
  cases hload.symm.trans hload'
  cases hedit.symm.trans hedit'
  rfl

theorem Overcommits.method {patch : Patch} {b : Body} (hw : w.table.Sound) (h : w.Overcommits target patch b) :
    b.method = target := by
  obtain ⟨live, p, t, x, hload, hedit, -⟩ := h
  exact (Body.stable_method target).edit (hw.named (MethodTable.body_eq_ok.1 hload)) hedit

/-- A commit gives the method a new revision, whatever the body. -/
theorem Overcommits.get?_ne {patch : Patch} {b : Body} (hw : w.table.Sound) (h : w.Overcommits target patch b) :
    (w.table.put b).get? b.method ≠ w.table.get? b.method := by
  obtain ⟨-, p, t, x, -, -, hcommit, -⟩ := h
  obtain ⟨live, hlive, -, -, -⟩ := MethodTable.commit_eq_ok.1 hcommit
  obtain ⟨r, hr, hle⟩ := hw.revised hlive
  rw [MethodTable.get?_put_self, hlive]
  intro heq
  -- the new revision is one that was not given out before
  obtain rfl := Method.managed.inj (Option.some.inj heq)
  cases hr
  omega

/-- A patch whose result is committed but cannot be encoded fails all the same. -/
theorem runPatch_of_overcommits {patch : Patch} {b : Body} (h : w.Overcommits target patch b) :
    ∃ x p, w.runPatch target patch = (.error x, { w with table := w.table.put b, providers := p }) := by
  obtain ⟨live, p, t, x, hload, hedit, hcommit, hencode⟩ := h
  obtain ⟨-, -, -, -, rfl⟩ := MethodTable.commit_eq_ok.1 hcommit
  refine ⟨.body x, p, ?_⟩
  simp only [runPatch, hload, hedit, hcommit, Body.digestText_eq_error.2 hencode]
  rfl

/-- An attempt that commits a body without an encoding fails, and the body stays. -/
theorem applyTo_of_overcommits {g : Registration} {b : Body} (hg : w.registry.get? target = some g)
    (hstate : ∀ digest, g.state ≠ .applied digest) (h : w.Overcommits target g.patch b) :
    ∃ x w', w.applyTo target = (.error x, w') ∧ w'.table = w.table.put b := by
  obtain ⟨x, p, hrun⟩ := runPatch_of_overcommits h
  unfold applyTo
  rw [hg]
  dsimp only
  split
  · rename_i digest happlied
    exact absurd happlied (hstate digest)
  · rw [hrun]
    exact ⟨x, _, rfl, rfl⟩

/-- A patch that fails leaves the table as it is, unless its result was committed but cannot be encoded. -/
theorem runPatch_error {patch : Patch} (h : w.runPatch target patch = (.error e, w')) :
    w'.registry = w.registry ∧
      (((∀ b, ¬ w.Overcommits target patch b) ∧ w'.table = w.table) ∨
        ∃ b, w.Overcommits target patch b ∧ w'.table = w.table.put b) := by
  unfold runPatch at h
  split at h
  · -- the method has no body
    rename_i hload
    obtain ⟨-, rfl⟩ := Prod.mk.inj h
    refine ⟨rfl, .inl ⟨fun b hb => ?_, rfl⟩⟩
    obtain ⟨live, p, t, x, hload', -⟩ := hb
    cases hload.symm.trans hload'
  · rename_i live hload
    split at h
    · -- the patch itself fails
      rename_i hedit
      obtain ⟨-, rfl⟩ := Prod.mk.inj h
      refine ⟨rfl, .inl ⟨fun b hb => ?_, rfl⟩⟩
      obtain ⟨live', p, t, x, hload', hedit', -⟩ := hb
      cases hload.symm.trans hload'
      cases hedit.symm.trans hedit'
    · rename_i b p hedit
      split at h
      · -- the commit is refused
        rename_i hcommit
        obtain ⟨-, rfl⟩ := Prod.mk.inj h
        refine ⟨rfl, .inl ⟨fun b' hb => ?_, rfl⟩⟩
        obtain ⟨live', p', t, x, hload', hedit', hcommit', -⟩ := hb
        cases hload.symm.trans hload'
        cases hedit.symm.trans hedit'
        cases hcommit.symm.trans hcommit'
      · -- the body is live by now, so that only the digest can have failed
        rename_i t hcommit
        obtain ⟨hdigest, rfl⟩ := Prod.mk.inj h
        cases htext : b.digestText with
        | ok digest =>
          rw [htext] at hdigest
          cases hdigest
        | error x =>
          obtain ⟨-, -, -, -, rfl⟩ := MethodTable.commit_eq_ok.1 hcommit
          exact ⟨rfl, .inr ⟨b, ⟨live, p, _, x, hload, hedit, hcommit, Body.digestText_eq_error.1 htext⟩, rfl⟩⟩

/-- A patch that is run ends before a commit, or with one, after which only the digest can fail. -/
theorem runPatch_cases (w : World) (target : MethodId) (patch : Patch) :
    (∃ e p, w.runPatch target patch = (.error e, { w with providers := p })) ∨
    ∃ live b p t, w.table.load target = .ok live ∧ patch.edit live w.providers = (.ok b, p) ∧
      w.table.commit b = .ok t ∧
      w.runPatch target patch = (b.digestText.mapError .body, { w with table := t, providers := p }) := by
  cases hload : w.table.load target with
  | error e => exact .inl ⟨.body e, w.providers, by rw [runPatch, hload]⟩
  | ok live =>
    rcases hedit : patch.edit live w.providers with ⟨e | b, p⟩
    · refine .inl ⟨e, p, ?_⟩
      simp only [runPatch, hload, hedit]
    · cases hcommit : w.table.commit b with
      | error e =>
        refine .inl ⟨.body e, p, ?_⟩
        simp only [runPatch, hload, hedit, hcommit]
      | ok t =>
        refine .inr ⟨live, b, p, t, rfl, hedit, hcommit, ?_⟩
        simp only [runPatch, hload, hedit, hcommit]

theorem registry_runPatch (w : World) (target : MethodId) (patch : Patch) :
    (w.runPatch target patch).2.registry = w.registry := by
  rcases runPatch_cases w target patch with ⟨e, p, hrun⟩ | ⟨live, b, p, t, -, -, -, hrun⟩
  · rw [hrun]
  · rw [hrun]

/-- What an attempt does: nothing, if there is no patch or it is applied already, and else it runs the patch and notes how
that went. -/
theorem applyTo_cases (w : World) (target : MethodId) :
    (w.registry.get? target = none ∧ w.applyTo target = (.ok .notRegistered, w)) ∨
    (∃ g digest, w.registry.get? target = some g ∧ g.state = .applied digest ∧
      w.applyTo target = (.ok .alreadyApplied, w)) ∨
    ∃ g, w.registry.get? target = some g ∧ (∀ digest, g.state ≠ .applied digest) ∧
      ((∃ digest w', w.runPatch target g.patch = (.ok digest, w') ∧
        w.applyTo target = (.ok .applied, { w' with registry := w'.registry.setState target g (.applied digest) })) ∨
      ∃ e w', w.runPatch target g.patch = (.error e, w') ∧
        w.applyTo target = (.error e, { w' with registry := w'.registry.setState target g (.failed e) })) := by
  cases hg : w.registry.get? target with
  | none => exact .inl ⟨rfl, by rw [applyTo, hg]⟩
  | some g =>
    by_cases happlied : ∃ digest, g.state = .applied digest
    · obtain ⟨digest, hstate⟩ := happlied
      refine .inr (.inl ⟨g, digest, rfl, hstate, ?_⟩)
      rw [applyTo, hg]
      dsimp only
      rw [hstate]
    · have hstate (digest : String) : g.state ≠ .applied digest := fun h => happlied ⟨digest, h⟩
      refine .inr (.inr ⟨g, rfl, hstate, ?_⟩)
      rcases hrun : w.runPatch target g.patch with ⟨e | digest, w'⟩
      · refine .inr ⟨e, w', rfl, ?_⟩
        simp only [applyTo, hg, hrun]
      · refine .inl ⟨digest, w', rfl, ?_⟩
        simp only [applyTo, hg, hrun]

/-- What an attempt does to the table: nothing, or it commits a body that edits have made of the live one. -/
theorem table_applyTo (w : World) (target : MethodId) :
    (w.applyTo target).2.table = w.table ∨
    ∃ live b, w.table.get? target = some (.managed live) ∧ (∀ {P : Body → Prop}, Body.Stable P → P live → P b) ∧
      w.table.commit b = .ok (w.applyTo target).2.table := by
  have hrun {patch : Patch} {result : Except PatchError String} {w' : World}
      (h : w.runPatch target patch = (result, w')) : w'.table = w.table ∨
      ∃ live b, w.table.get? target = some (.managed live) ∧ (∀ {P : Body → Prop}, Body.Stable P → P live → P b) ∧
        w.table.commit b = .ok w'.table := by
    rcases runPatch_cases w target patch with ⟨e, p, hrun⟩ | ⟨live, b, p, t, hload, hedit, hcommit, hrun⟩
    · cases hrun.symm.trans h
      exact .inl rfl
    · cases hrun.symm.trans h
      exact .inr ⟨live, b, MethodTable.body_eq_ok.1 hload, fun hP hlive => hP.edit hlive hedit, hcommit⟩
  rcases applyTo_cases w target with ⟨-, h⟩ | ⟨-, -, -, -, h⟩ | ⟨g, -, -, ⟨digest, w', hok, h⟩ | ⟨e, w', herror, h⟩⟩
  · exact .inl (h ▸ rfl)
  · exact .inl (h ▸ rfl)
  · rw [h]
    exact (hrun hok :)
  · rw [h]
    exact (hrun herror :)

/-- Attempts keep the table sound. -/
theorem sound_applyTo (hw : w.table.Sound) (target : MethodId) : (w.applyTo target).2.table.Sound := by
  rcases table_applyTo w target with h | ⟨live, b, -, -, hcommit⟩
  · rwa [h]
  · exact hw.commit hcommit

/-- What is left when the patch of a method fails. The failure is noted, and nothing else is changed, so that the next
attempt starts from the same body, unless the edited body was committed and turned out to have no encoding only then:
this body stays. -/
theorem applyTo_error (hw : w.table.Sound) (h : w.applyTo target = (.error e, w')) :
    ∃ g, w.registry.get? target = some g ∧ w'.registry.get? target = some { g with state := .failed e } ∧
      (∀ id, id ≠ target → w'.registry.get? id = w.registry.get? id) ∧
      ((∀ id, w'.table.get? id = w.table.get? id) ↔ ∀ b, ¬ w.Overcommits target g.patch b) ∧
      ((∀ b, ¬ w.Overcommits target g.patch b) → w'.table = w.table) ∧
      ∀ b, w.Overcommits target g.patch b →
        w'.table.get? target = some (.managed { b with revision := some (w.table.revisions + 1) }) ∧
          ∀ id, id ≠ target → w'.table.get? id = w.table.get? id := by
  unfold applyTo at h
  split at h
  · cases h
  · rename_i g hg
    split at h
    · cases h
    · split at h
      · cases h
      · rename_i x w₁ hrun
        obtain ⟨hx, rfl⟩ := Prod.mk.inj h
        obtain rfl := Except.error.inj hx
        obtain ⟨hregistry, htable⟩ := runPatch_error hrun
        have hother (id : MethodId) (hid : id ≠ target) :
            (w₁.registry.setState target g (.failed x)).get? id = w.registry.get? id :=
          hregistry ▸ Dict.get?_insert_of_ne _ hid _
        refine ⟨g, hg, Dict.get?_insert_self .., hother, ?_⟩
        rcases htable with ⟨hnone, htable⟩ | ⟨b, hb, htable⟩
        · refine ⟨iff_of_true (fun id => ?_) hnone, fun _ => htable, fun b hb => absurd hb (hnone b)⟩
          rw [htable]
        · refine ⟨iff_of_false (fun hsame => ?_) (fun hnone => hnone b hb), fun hnone => absurd hb (hnone b), ?_⟩
          · refine hb.get?_ne hw ?_
            rw [← htable]
            exact hsame b.method
          · intro b' hb'
            obtain rfl := hb.unique hb'
            obtain rfl := hb.method hw
            rw [htable]
            exact ⟨MethodTable.get?_put_self .., fun id hid => MethodTable.get?_put_of_ne _ hid⟩

/-- A world with one method and a script that is registered for it. -/
def single (b : Body) (ss : Script) : World where
  table := MethodTable.put {} b
  registry := (Registry.register {} b.method "script" (.script ss)).2

/-- The body of a method with more parameters than an encoding has room for. -/
def crowded : Body where
  method := ⟨"Patch", "crowded"⟩
  signature := ⟨List.replicate 256 .i32, [], none⟩
  entries := [⟨⟨0⟩, .ret, []⟩]
  nextId := 1
  revision := some 1

theorem applyTo_single_fail : ∃ w', (single crowded [⟨.insert ⟨.nop, []⟩, false⟩, ⟨.fail "stop", false⟩]).applyTo
      crowded.method = (.error (.plan (.stated "stop")), w') ∧
    w'.table = (single crowded [⟨.insert ⟨.nop, []⟩, false⟩, ⟨.fail "stop", false⟩]).table ∧
    (w'.registry.get? crowded.method).map Registration.state = some (.failed (.plan (.stated "stop"))) := by
  obtain ⟨w', happly⟩ : ∃ w', (single crowded [⟨.insert ⟨.nop, []⟩, false⟩, ⟨.fail "stop", false⟩]).applyTo
      crowded.method = (.error (.plan (.stated "stop")), w') := ⟨_, rfl⟩
  obtain ⟨g, hg, hfailed, -, -, hsame, -⟩ := applyTo_error (MethodTable.sound_empty.put crowded) happly
  refine ⟨w', happly, hsame fun b hb => ?_, by rw [hfailed, Option.map_some]⟩
  obtain rfl := Option.some.inj hg
  obtain ⟨live, p, t, x, hload, hedit, -⟩ := hb
  obtain rfl := Except.ok.inj hload
  cases hedit

/-- A failed attempt may leave another body than it has found. -/
theorem not_applyTo_unchanged : ¬ ∀ (w w' : World) (target : MethodId) (e : PatchError), w.table.Sound →
    w.applyTo target = (.error e, w') → ∀ id, w'.table.get? id = w.table.get? id := by
  intro h
  obtain ⟨b, hb⟩ : ∃ b : Body, b = { crowded with entries := [⟨⟨1⟩, .nop, []⟩, ⟨⟨0⟩, .ret, []⟩], nextId := 2 } :=
    ⟨_, rfl⟩
  obtain ⟨w, hw⟩ : ∃ w, w = single crowded [⟨.insert ⟨.nop, []⟩, false⟩] := ⟨_, rfl⟩
  have hsound : w.table.Sound := hw ▸ MethodTable.sound_empty.put crowded
  have hover : w.Overcommits crowded.method (.script [⟨.insert ⟨.nop, []⟩, false⟩]) b := by
    obtain ⟨x, hx⟩ := Body.encode_of_params (b := b) (hb ▸ Nat.le_of_eq List.length_replicate.symm)
    subst hb hw
    exact ⟨crowded, {}, _, x, rfl, rfl,
      MethodTable.commit_eq_ok.2 ⟨crowded, rfl, if_pos (by decide +kernel), rfl, rfl⟩, hx⟩
  obtain ⟨x, w', happly, htable⟩ := applyTo_of_overcommits (g := ⟨"script", _, .pending⟩) (hw ▸ rfl) nofun hover
  refine hover.get?_ne hsound ?_
  rw [← htable, h w w' crowded.method x hsound happly]

end World

end Graft
