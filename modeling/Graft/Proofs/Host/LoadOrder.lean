import Graft.Proofs.Host.Plans
import Graft.Proofs.Plan.Revision
import Graft.Session

/-!
# The order of loading

The order in which methods are loaded into a session does not matter: what becomes of a method is decided by its body and
by the patch that the plan has for it.

* `Registration.settle` is what becomes of a body and of the registration for it, said without tables.
* `Host.Settles` says of two hosts that bodies were loaded and that each has become this; `Host.settles_define` says it of
  one body, and `Session.settles_load` of a list.
* `Session.load_perm` compares two orders.
-/

namespace Graft

/-! ### One attempt -/

/-- The body that rules leave, and how far they have come. A body that passes verification stays even if its digest cannot
be taken. -/
def BoundRule.attempt (rs : List BoundRule) (b : Body) : Body × PatchState :=
  match applyAll rs b with
  | .error e => (b, .failed e)
  | .ok b' =>
    match b'.verify with
    | .error e => (b, .failed (.body e))
    | .ok () =>
      match b'.digestText with
      | .error e => (b', .failed (.body e))
      | .ok digest => (b', .applied digest)

/-- What becomes of a body that is loaded, and of the registration for its method. -/
def Registration.settle (b : Body) : Option Registration → Body × Option Registration
  | some ⟨name, .rules rs, .pending⟩ =>
    ((BoundRule.attempt rs b).1, some ⟨name, .rules rs, (BoundRule.attempt rs b).2⟩)
  | g => (b, g)

/-- Rules that were not tried yet. -/
def Registration.Due (g : Registration) : Prop := ∃ name rs, g = ⟨name, .rules rs, .pending⟩

namespace BoundRule

variable {rs : List BoundRule} {b : Body}

theorem attempt_asOf (rs : List BoundRule) (b : Body) (r : Option Nat) :
    attempt rs (b.asOf r) = ((attempt rs b).1.asOf r, (attempt rs b).2) := by
  unfold attempt
  rw [applyAll_asOf]
  cases applyAll rs b with
  | error e => rfl
  | ok b' =>
    simp only [Except.map, Body.verify_asOf, Body.digestText_asOf]
    cases b'.verify with
    | error e => rfl
    | ok _ => cases b'.digestText <;> rfl

/-- Rules that fail leave the body as it was, unless it is only too large to be encoded. -/
theorem attempt_failed {e : PatchError} (h : (attempt rs b).2 = .failed e) :
    (attempt rs b).1 = b ∨ ∃ x : Error, e = .body x ∧ x.Oversized := by
  unfold attempt at h ⊢
  split
  · exact .inl rfl
  · rename_i b' hrules
    split
    · exact .inl rfl
    · rename_i hverify
      simp only [hrules, hverify] at h
      split at h
      · rename_i x hdigest
        obtain rfl := PatchState.failed.inj h
        have hfits := (Typing.wellTyped_of_findings (Typing.verify_eq_ok.1 hverify)).fits
        exact .inr ⟨x, rfl, Body.oversized_of_encode (fun i hi => (hfits i hi).formed) (Body.digestText_eq_error.1 hdigest)⟩
      · cases h

end BoundRule

namespace Registration

variable {g : Option Registration} {b : Body}

theorem settle_asOf (b : Body) (r : Option Nat) (g : Option Registration) :
    settle (b.asOf r) g = ((settle b g).1.asOf r, (settle b g).2) := by
  unfold settle
  split
  · rw [BoundRule.attempt_asOf]
  · rfl

/-- A body is left as it was if there is no patch for it, or if the patch fails and the body is not only too large. -/
theorem settle_unpatched (h : g = none ∨ ∃ g' e, (settle b g).2 = some g' ∧ g'.state = .failed e ∧
    ∀ x, e = .body x → ¬ x.Oversized) : (settle b g).1 = b := by
  rcases h with rfl | ⟨g', e, hg', hfailed, hsize⟩
  · rfl
  · unfold settle at hg' ⊢
    split
    · obtain rfl := Option.some.inj hg'
      rcases BoundRule.attempt_failed hfailed with hsame | ⟨x, hx, hlarge⟩
      · exact hsame
      · exact absurd hlarge (hsize x hx)
    · rfl

end Registration

/-! ### Tables without revisions -/

/-- A method as it is but for the revision of its body. -/
def Method.unrevised : Method → Method
  | .managed b => .managed (b.asOf none)
  | m => m

namespace MethodTable

variable {t : MethodTable} {b live : Body} {id : MethodId}

/-- The method with a given identity, without its revision. -/
def unrevised? (t : MethodTable) (id : MethodId) : Option Method := (t.get? id).map Method.unrevised

theorem unrevised?_put_self (t : MethodTable) (b : Body) :
    (t.put b).unrevised? b.method = some (.managed (b.asOf none)) := by
  rw [unrevised?, get?_put_self]
  rfl

theorem unrevised?_put_of_ne (t : MethodTable) (h : id ≠ b.method) : (t.put b).unrevised? id = t.unrevised? id := by
  rw [unrevised?, unrevised?, get?_put_of_ne t h]

/-- An edited copy of the live body can only be refused by verification. -/
theorem commit_of_copy (hlive : t.get? b.method = some (.managed live)) (hrevision : b.revision = live.revision) :
    t.commit b = b.verify.map fun _ => t.put b := by
  have hbody : t.body b.method = .ok live := body_eq_ok.2 hlive
  have hfresh : isStale live b = false := by rw [isStale, hrevision, bne_self_eq_false, Bool.and_false]
  cases hverify : b.verify with
  | ok _ => exact commit_eq_ok.2 ⟨live, hlive, hverify, hfresh, rfl⟩
  | error e =>
    rw [commit, hbody, hverify]
    rfl

end MethodTable

/-! ### Hosts -/

namespace World

variable {w : World} {live : Body} {target : MethodId}

/-- Rules that are tried on a live body come to what `BoundRule.attempt` says. -/
theorem runPatch_attempt (hlive : w.table.get? target = some (.managed live)) (hmethod : live.method = target)
    (rs : List BoundRule) : ∃ t, (w.runPatch target (.rules rs)).2 = { w with table := t } ∧
      t.unrevised? target = some (.managed ((BoundRule.attempt rs live).1.asOf none)) ∧
      (∀ id, id ≠ target → t.unrevised? id = w.table.unrevised? id) ∧
      (BoundRule.attempt rs live).2 = match (w.runPatch target (.rules rs)).1 with
        | .ok digest => .applied digest
        | .error e => .failed e := by
  have hload : w.table.load target = .ok live := MethodTable.body_eq_ok.2 hlive
  have hold : w.table.unrevised? target = some (.managed (live.asOf none)) := by
    rw [MethodTable.unrevised?, hlive]
    rfl
  unfold runPatch BoundRule.attempt
  rw [hload]
  dsimp only [Patch.edit]
  cases hrules : BoundRule.applyAll rs live with
  | error e => exact ⟨w.table, rfl, hold, fun _ _ => rfl, rfl⟩
  | ok b =>
    have hmethod' : b.method = target := (Body.stable_method target).rules hmethod hrules
    have hrevision : b.revision = live.revision := (Body.stable_revision live.revision).rules rfl hrules
    rw [← hmethod'] at hlive hold ⊢
    dsimp only
    rw [MethodTable.commit_of_copy hlive hrevision]
    cases b.verify with
    | error e => exact ⟨w.table, rfl, hold, fun _ _ => rfl, rfl⟩
    | ok _ =>
      refine ⟨w.table.put b, rfl, ?_, fun id hid => MethodTable.unrevised?_put_of_ne _ hid, ?_⟩
      · cases b.digestText <;> exact MethodTable.unrevised?_put_self ..
      · cases b.digestText <;> rfl

/-- Rules that were not applied before are tried on the live body, and how that went is noted. Everything else is left
alone. -/
theorem applyTo_tries (hlive : w.table.get? target = some (.managed live)) (hmethod : live.method = target)
    {name : String} {rs : List BoundRule} {s : PatchState} (hg : w.registry.get? target = some ⟨name, .rules rs, s⟩)
    (hs : ∀ digest, s ≠ .applied digest) :
    ∃ t r, (w.applyTo target).2 = { w with table := t, registry := r } ∧
      t.unrevised? target = some (.managed ((BoundRule.attempt rs live).1.asOf none)) ∧
      r.get? target = some ⟨name, .rules rs, (BoundRule.attempt rs live).2⟩ ∧
      ∀ id, id ≠ target → t.unrevised? id = w.table.unrevised? id ∧ r.get? id = w.registry.get? id := by
  obtain ⟨t, hworld, hbody, hothers, hstate⟩ := runPatch_attempt hlive hmethod rs
  refine ⟨t, w.registry.setState target ⟨name, .rules rs, s⟩ (BoundRule.attempt rs live).2, ?_, hbody,
    Dict.get?_insert_self .., fun id hid => ⟨hothers id hid, Dict.get?_insert_of_ne _ hid _⟩⟩
  rcases applyTo_cases w target with ⟨hnone, -⟩ | ⟨g, digest, hg', happlied, -⟩ | ⟨g, hg', -, hrun⟩
  · cases hg.symm.trans hnone
  · obtain rfl := Option.some.inj (hg.symm.trans hg')
    exact absurd happlied (hs digest)
  · obtain rfl := Option.some.inj (hg.symm.trans hg')
    -- both outcomes are noted in the same way
    rcases hrun with ⟨digest, w', hrun, happly⟩ | ⟨e, w', hrun, happly⟩
    all_goals
      rw [hrun] at hworld hstate
      obtain rfl : w' = { w with table := t } := hworld
      rw [happly, hstate]

/-- An attempt on a live body settles it, and leaves everything else alone. -/
theorem applyTo_settles (hlive : w.table.get? target = some (.managed live)) (hmethod : live.method = target)
    (hdue : ∀ g, w.registry.get? target = some g → g.Due) :
    ∃ t r, (w.applyTo target).2 = { w with table := t, registry := r } ∧
      t.unrevised? target = some (.managed ((Registration.settle live (w.registry.get? target)).1.asOf none)) ∧
      r.get? target = (Registration.settle live (w.registry.get? target)).2 ∧
      ∀ id, id ≠ target → t.unrevised? id = w.table.unrevised? id ∧ r.get? id = w.registry.get? id := by
  cases hg : w.registry.get? target with
  | none =>
    have hbody : w.table.unrevised? target = some (.managed (live.asOf none)) := by
      rw [MethodTable.unrevised?, hlive]
      rfl
    exact ⟨w.table, w.registry, by rw [applyTo, hg], hbody, hg, fun id _ => ⟨rfl, rfl⟩⟩
  | some g =>
    obtain ⟨name, rs, rfl⟩ := hdue g hg
    have hstate : ∀ digest, PatchState.pending ≠ .applied digest := by
      rintro _ ⟨⟩
    exact applyTo_tries hlive hmethod hg hstate

end World

namespace Host

variable {h h₁ h' : Host} {b : Body} {bs : List Body}

/-- The host `h'` comes about from `h` by loading bodies: each of them, and the registration for it, has become what
`Registration.settle` says, and nothing else has changed. -/
structure Settles (h : Host) (bs : List Body) (h' : Host) : Prop where
  hooks : h'.hooks = h.hooks
  providers : h'.world.providers = h.world.providers
  body : ∀ b ∈ bs, h'.world.table.unrevised? b.method =
    some (.managed ((Registration.settle b (h.world.registry.get? b.method)).1.asOf none))
  registration : ∀ b ∈ bs, h'.world.registry.get? b.method =
    (Registration.settle b (h.world.registry.get? b.method)).2
  other : ∀ id, id ∉ bs.map Body.method → h'.world.table.unrevised? id = h.world.table.unrevised? id ∧
    h'.world.registry.get? id = h.world.registry.get? id

/-- A body that passes verification is defined: it is stored, and the registry is told of it. -/
theorem define_eq (hhooks : h.hooks = [.registry]) (hverify : b.verify = .ok ()) :
    h.define b = .ok ((h.withTable (h.world.table.put b)).tell b.method .registry) := by
  have hstore : h.world.table.store b = .ok (h.world.table.put b) := MethodTable.store_eq_ok.2 ⟨hverify, rfl⟩
  have hnotify : (h.withTable (h.world.table.put b)).notify b.method =
      (h.withTable (h.world.table.put b)).tell b.method .registry := by
    unfold notify
    rw [show (h.withTable (h.world.table.put b)).hooks = [.registry] from hhooks]
    rfl
  rw [define, hstore, ← hnotify]
  rfl

/-- A body that passes verification can be defined, and settles. -/
theorem settles_define (hhooks : h.hooks = [.registry]) (hverify : b.verify = .ok ())
    (hdue : ∀ g, h.world.registry.get? b.method = some g → g.Due) :
    ∃ h', h.define b = .ok h' ∧ h.Settles [b] h' := by
  have hlive : (h.world.table.put b).get? b.method =
      some (.managed (b.asOf (some (h.world.table.revisions + 1)))) := MethodTable.get?_put_self ..
  obtain ⟨t, r, hworld, hbody, hregistration, hother⟩ :=
    World.applyTo_settles (w := (h.withTable (h.world.table.put b)).world) hlive rfl hdue
  rw [Registration.settle_asOf] at hbody hregistration
  refine ⟨_, define_eq hhooks hverify, ⟨rfl, ?_, ?_, ?_, ?_⟩⟩
  · show ((h.withTable (h.world.table.put b)).world.applyTo b.method).2.providers = _
    rw [hworld]
    rfl
  · intro b' hb'
    obtain rfl := List.mem_singleton.1 hb'
    show ((h.withTable (h.world.table.put b')).world.applyTo b'.method).2.table.unrevised? b'.method = _
    rw [hworld]
    exact hbody
  · intro b' hb'
    obtain rfl := List.mem_singleton.1 hb'
    show ((h.withTable (h.world.table.put b')).world.applyTo b'.method).2.registry.get? b'.method = _
    rw [hworld]
    exact hregistration
  · intro id hid
    have hne : id ≠ b.method := fun heq => hid (heq ▸ List.mem_singleton_self _)
    obtain ⟨htable, hregistry⟩ := hother id hne
    show ((h.withTable (h.world.table.put b)).world.applyTo b.method).2.table.unrevised? id = _ ∧
      ((h.withTable (h.world.table.put b)).world.applyTo b.method).2.registry.get? id = _
    rw [hworld]
    exact ⟨htable.trans (MethodTable.unrevised?_put_of_ne _ hne), hregistry⟩

/-- Bodies that settle one after the other, each of another method, settle together. -/
theorem Settles.cons (hfirst : h.Settles [b] h₁) (hrest : h₁.Settles bs h') (hnew : b.method ∉ bs.map Body.method) :
    h.Settles (b :: bs) h' := by
  have hself : b.method ∈ [b].map Body.method := List.mem_singleton_self _
  -- what is loaded later finds the registrations for its methods as they were
  have hlater (b' : Body) (hb' : b' ∈ bs) : b'.method ∉ [b].map Body.method := by
    intro hmem
    exact hnew (List.mem_singleton.1 hmem ▸ List.mem_map_of_mem hb')
  obtain ⟨htable, hregistry⟩ := hrest.other b.method hnew
  refine ⟨hrest.hooks.trans hfirst.hooks, hrest.providers.trans hfirst.providers, ?_, ?_, ?_⟩
  · intro b' hb'
    rcases List.mem_cons.1 hb' with rfl | hb'
    · exact htable.trans (hfirst.body b' (List.mem_singleton_self _))
    · rw [hrest.body b' hb', (hfirst.other b'.method (hlater b' hb')).2]
  · intro b' hb'
    rcases List.mem_cons.1 hb' with rfl | hb'
    · exact hregistry.trans (hfirst.registration b' (List.mem_singleton_self _))
    · rw [hrest.registration b' hb', (hfirst.other b'.method (hlater b' hb')).2]
  · intro id hid
    rw [List.map_cons, List.mem_cons, not_or] at hid
    obtain ⟨htable, hregistry⟩ := hrest.other id hid.2
    obtain ⟨htable₁, hregistry₁⟩ := hfirst.other id fun hmem => hid.1 (List.mem_singleton.1 hmem)
    exact ⟨htable.trans htable₁, hregistry.trans hregistry₁⟩

/-- What bodies have become does not depend on their order. -/
theorem Settles.perm {bs' : List Body} {h₂ : Host} (hperm : bs.Perm bs') (hs₁ : h.Settles bs h₁) (hs₂ : h.Settles bs' h₂)
    (id : MethodId) : h₁.world.table.unrevised? id = h₂.world.table.unrevised? id ∧
      h₁.world.registry.get? id = h₂.world.registry.get? id := by
  by_cases hid : id ∈ bs.map Body.method
  · obtain ⟨b, hb, rfl⟩ := List.mem_map.1 hid
    have hb' : b ∈ bs' := hperm.mem_iff.1 hb
    exact ⟨(hs₁.body b hb).trans (hs₂.body b hb').symm, (hs₁.registration b hb).trans (hs₂.registration b hb').symm⟩
  · have hid' : id ∉ bs'.map Body.method := fun h => hid ((hperm.map Body.method).mem_iff.2 h)
    obtain ⟨htable, hregistry⟩ := hs₁.other id hid
    obtain ⟨htable', hregistry'⟩ := hs₂.other id hid'
    exact ⟨htable.trans htable'.symm, hregistry.trans hregistry'.symm⟩

end Host

/-! ### Sessions -/

namespace Session

variable {h : Host} {plan : Option Plan} {snap : Option Snapshot} {bs bs' : List Body}

private theorem installed_due (hinstalled : installed {} plan = .ok h) :
    h.hooks = [] ∧ ∀ id g, h.world.registry.get? id = some g → g.Due ∧ ∃ p, plan = some p ∧ id ∈ p.targets := by
  cases plan with
  | none =>
    obtain rfl := Except.ok.inj hinstalled
    exact ⟨rfl, nofun⟩
  | some plan =>
    have hkept : (Host.install {} plan).2.hooks = [] ∧ ∀ id g, (Host.install {} plan).2.world.registry.get? id = some g →
        g.Due ∧ ∃ p, some plan = some p ∧ id ∈ p.targets := by
      refine ⟨rfl, fun id g hg => ?_⟩
      rcases World.get?_install {} plan id with hnone | ⟨patch, hpatch, rfl, g', hnew, hbecomes⟩
      · cases hnone.symm.trans hg
      · obtain rfl := Option.some.inj (hnew.symm.trans hg)
        obtain ⟨rs, rfl, -⟩ := hbecomes.eq
        exact ⟨⟨patch.name, rs, rfl⟩, plan, rfl, List.mem_map_of_mem hpatch⟩
    unfold installed at hinstalled
    dsimp only at hinstalled
    split at hinstalled
    · rename_i hinstall
      rw [hinstall] at hkept
      exact Except.ok.inj hinstalled ▸ hkept
    · cases hinstalled

/-- A snapshot changes settings only. -/
theorem exists_withSettings {h' : Host} (hrestored : restored h snap = .ok h') : ∃ s, h' = h.withSettings s := by
  cases snap with
  | none =>
    obtain rfl := Except.ok.inj hrestored
    exact ⟨h.world.providers.settings, rfl⟩
  | some snap =>
    obtain ⟨⟨n, s⟩, -, rfl⟩ := map_eq_ok.1 hrestored
    exact ⟨s, rfl⟩

/-- At the beginning of a session, only the registry is told of methods, and its patches are rules of the plan that were
not tried yet. -/
theorem due_start (hstart : start plan snap = .ok h) :
    h.hooks = [.registry] ∧
      ∀ id g, h.world.registry.get? id = some g → g.Due ∧ ∃ p, plan = some p ∧ id ∈ p.targets := by
  obtain ⟨h₁, hinstalled, hstart⟩ := bind_eq_ok.1 hstart
  obtain ⟨h₂, hrestored, hstart⟩ := bind_eq_ok.1 hstart
  obtain rfl := Except.ok.inj hstart
  obtain ⟨hhooks, hdue⟩ := installed_due hinstalled
  obtain ⟨s, rfl⟩ := exists_withSettings hrestored
  refine ⟨?_, hdue⟩
  rw [Host.subscribe, show (h₁.withSettings s).hooks = [] from hhooks, List.nil_append]

/-- Bodies of different methods that pass verification can be loaded, and settle. -/
theorem settles_load (hhooks : h.hooks = [.registry]) (hverified : ∀ b ∈ bs, b.verify = .ok ())
    (hdistinct : (bs.map Body.method).Nodup) (hdue : ∀ b ∈ bs, ∀ g, h.world.registry.get? b.method = some g → g.Due) :
    ∃ h', load h bs = .ok h' ∧ h.Settles bs h' := by
  induction bs generalizing h with
  | nil => exact ⟨h, rfl, rfl, rfl, nofun, nofun, fun id _ => ⟨rfl, rfl⟩⟩
  | cons b bs ih =>
    obtain ⟨hnew, hdistinct⟩ := List.nodup_cons.1 hdistinct
    obtain ⟨h₁, hdefine, hfirst⟩ := Host.settles_define hhooks (hverified b List.mem_cons_self) (hdue b List.mem_cons_self)
    have hdue₁ (b' : Body) (hb' : b' ∈ bs) (g : Registration) (hg : h₁.world.registry.get? b'.method = some g) :
        g.Due := by
      have hother : b'.method ∉ [b].map Body.method := by
        intro hmem
        exact hnew (List.mem_singleton.1 hmem ▸ List.mem_map_of_mem hb')
      rw [(hfirst.other b'.method hother).2] at hg
      exact hdue b' (List.mem_cons_of_mem b hb') g hg
    obtain ⟨h', hload, hrest⟩ := ih (hfirst.hooks.trans hhooks)
      (fun b' hb' => hverified b' (List.mem_cons_of_mem b hb')) hdistinct hdue₁
    refine ⟨h', ?_, hfirst.cons hrest hnew⟩
    simpa only [load, Host.defineAll, hdefine] using hload

/-- The order in which methods are loaded does not matter, neither for the live bodies, but for their revisions, nor for the
registrations or the settings. What a body becomes is decided by itself and by the registration that the plan has made for
its method; it stays as it is if the method is not a target of the plan, or if its patch fails and the patched body is not
only too large to be encoded. -/
theorem load_perm (hstart : start plan snap = .ok h) (hverified : ∀ b ∈ bs, b.verify = .ok ())
    (hdistinct : (bs.map Body.method).Nodup) (hperm : bs.Perm bs') :
    ∃ h₁ h₂, load h bs = .ok h₁ ∧ load h bs' = .ok h₂ ∧
      (∀ id, h₁.world.table.unrevised? id = h₂.world.table.unrevised? id) ∧
      (∀ id, h₁.world.registry.get? id = h₂.world.registry.get? id) ∧
      h₁.world.providers.settings = h₂.world.providers.settings ∧
      ∀ b ∈ bs, h₁.world.table.unrevised? b.method =
          some (.managed ((Registration.settle b (h.world.registry.get? b.method)).1.asOf none)) ∧
        ((∀ p, plan = some p → b.method ∉ p.targets) ∨
          (∃ g e, h₁.world.registry.get? b.method = some g ∧ g.state = .failed e ∧ ∀ x, e = .body x → ¬ x.Oversized) →
          h₁.world.table.unrevised? b.method = some (.managed (b.asOf none))) := by
  obtain ⟨hhooks, hregistry⟩ := due_start hstart
  have hdue (b : Body) (g : Registration) (hg : h.world.registry.get? b.method = some g) : g.Due := (hregistry _ g hg).1
  have hverified' (b : Body) (hb : b ∈ bs') : b.verify = .ok () := hverified b (hperm.mem_iff.2 hb)
  have hdistinct' : (bs'.map Body.method).Nodup := (hperm.map Body.method).nodup_iff.1 hdistinct
  obtain ⟨h₁, hload₁, hsettles₁⟩ := settles_load hhooks hverified hdistinct fun b _ => hdue b
  obtain ⟨h₂, hload₂, hsettles₂⟩ := settles_load hhooks hverified' hdistinct' fun b _ => hdue b
  have hsame := hsettles₁.perm hperm hsettles₂
  refine ⟨h₁, h₂, hload₁, hload₂, fun id => (hsame id).1, fun id => (hsame id).2, ?_, fun b hb => ⟨hsettles₁.body b hb, ?_⟩⟩
  · rw [hsettles₁.providers, hsettles₂.providers]
  · intro hunpatched
    rw [hsettles₁.body b hb, Registration.settle_unpatched]
    rcases hunpatched with huntargeted | ⟨g, e, hg, hfailed⟩
    · refine .inl (Option.eq_none_iff_forall_ne_some.2 fun g hg => ?_)
      obtain ⟨-, p, hp, htarget⟩ := hregistry _ g hg
      exact huntargeted p hp htarget
    · exact .inr ⟨g, e, (hsettles₁.registration b hb).symm.trans hg, hfailed⟩

/-- Two methods of a plan. The patch of the first one is applied, and that of the second one fails. -/
def ratesLoaded : Option (Host × Host) := do
  let h ← (start (some Host.rates) (some ⟨[("rate", .i32 7)]⟩)).toOption
  let h₁ ← (load h [Host.fixed ⟨"Game", "rate"⟩, Host.fixed ⟨"Game", "cap"⟩]).toOption
  return (h, h₁)

theorem load_perm_rates : ∃ h h₁ h₂, ratesLoaded = some (h, h₁) ∧
    load h [Host.fixed ⟨"Game", "cap"⟩, Host.fixed ⟨"Game", "rate"⟩] = .ok h₂ ∧
    (∀ id, h₁.world.table.unrevised? id = h₂.world.table.unrevised? id) ∧
    (∀ id, h₁.world.registry.get? id = h₂.world.registry.get? id) ∧
    h₁.world.providers.settings = h₂.world.providers.settings ∧
    h₁.world.table.unrevised? ⟨"Game", "cap"⟩ = some (.managed (Host.fixed ⟨"Game", "cap"⟩)) := by
  have hstates : (ratesLoaded.map fun r =>
      [⟨"Game", "rate"⟩, ⟨"Game", "cap"⟩].map fun id => (r.2.world.registry.get? id).map fun g =>
        decide (g.state = .failed .noCurrentInstruction)) = some [some false, some true] := by
    decide +kernel
  obtain ⟨⟨h, h₁⟩, hloaded, hstates⟩ := Option.map_eq_some_iff.1 hstates
  have hloaded' := hloaded
  simp only [ratesLoaded, Option.bind_eq_bind, Option.bind_eq_some_iff, Option.pure_def, Option.some.injEq,
    Prod.mk.injEq] at hloaded'
  obtain ⟨h, hstart, h₁, hload, rfl, rfl⟩ := hloaded'
  have hverified : ∀ b ∈ [Host.fixed ⟨"Game", "rate"⟩, Host.fixed ⟨"Game", "cap"⟩], b.verify = .ok () := by
    intro b hb
    rcases List.mem_cons.1 hb with rfl | hb
    · rfl
    · obtain rfl := List.mem_singleton.1 hb
      rfl
  obtain ⟨h₁', h₂, hload₁, hload₂, htable, hregistry, hsettings, hbodies⟩ := load_perm (toOption_eq_some.1 hstart)
    hverified (by decide) (List.Perm.swap (Host.fixed ⟨"Game", "cap"⟩) (Host.fixed ⟨"Game", "rate"⟩) [])
  obtain rfl := Except.ok.inj (hload₁.symm.trans (toOption_eq_some.1 hload))
  refine ⟨h, h₁', h₂, hloaded, hload₂, htable, hregistry, hsettings, ?_⟩
  refine (hbodies (Host.fixed ⟨"Game", "cap"⟩) (List.mem_cons_of_mem _ List.mem_cons_self)).2 (.inr ?_)
  simp only [List.map_cons, List.map_nil, List.cons.injEq] at hstates
  obtain ⟨g, hg, hstate⟩ := Option.map_eq_some_iff.1 hstates.2.1
  exact ⟨g, .noCurrentInstruction, hg, of_decide_eq_true hstate, fun x hx => by cases hx⟩

end Session

end Graft
