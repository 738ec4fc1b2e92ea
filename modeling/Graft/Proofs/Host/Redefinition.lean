import Graft.Proofs.Host.LoadOrder

/-!
# Methods that are defined more than once

A module may define a method several times. The rules that a plan has for the method are tried on each of these
definitions until they are applied, and never again: a definition that comes later stays as it is.

* `BoundRule.meetAll` is what definitions make of a method and of its rules, said without tables, and
  `BoundRule.meetAll_applied` says where the rules were applied and what is live afterwards.
* `Host.Tracks` says of a host that it has come to this. Every definition keeps it (`Host.Tracks.define`), so that it
  holds at the end of loading (`Host.Tracks.load`).
-/

namespace Graft

/-! ### Definitions of one method -/

namespace BoundRule

variable {rs : List BoundRule} {s : Option Body × PatchState} {bs : List Body} {digest : String}

/-- What one more definition makes of a method and of the state of its rules: they are tried on the new body, unless
they were applied before. -/
def meet (rs : List BoundRule) : Option Body × PatchState → Body → Option Body × PatchState
  | (_, .applied digest), b => (some b, .applied digest)
  | _, b => (some (attempt rs b).1, (attempt rs b).2)

/-- What definitions make of a method and of the state of its rules, from the first one on. -/
def meetAll (rs : List BoundRule) (bs : List Body) : Option Body × PatchState := bs.foldl (meet rs) (none, .pending)

theorem meetAll_concat (rs : List BoundRule) (bs : List Body) (b : Body) :
    meetAll rs (bs ++ [b]) = meet rs (meetAll rs bs) b := by
  rw [meetAll, List.foldl_append]
  rfl

private theorem meet_of_ne (h : ∀ digest, s.2 ≠ .applied digest) (b : Body) :
    meet rs s b = (some (attempt rs b).1, (attempt rs b).2) := by
  obtain ⟨live, state⟩ := s
  cases state with
  | pending => rfl
  | failed e => rfl
  | applied digest => exact absurd rfl (h digest)

/-- Rules that are applied leave later definitions alone. -/
private theorem foldl_meet_applied (live : Option Body) (digest : String) (bs : List Body) :
    bs.foldl (meet rs) (live, .applied digest) = (bs.getLast?.or live, .applied digest) := by
  induction bs generalizing live with
  | nil => rfl
  | cons b bs ih =>
    rw [List.foldl_cons, meet, ih, List.getLast?_cons]
    cases bs.getLast? <;> rfl

/-- A try succeeds with the digest of the body that the rules make, if this passes verification. -/
private theorem attempt_applied {b b' : Body} : attempt rs b = (b', .applied digest) ↔
    applyAll rs b = .ok b' ∧ b'.verify = .ok () ∧ b'.digestText = .ok digest := by
  constructor
  · intro h
    unfold attempt at h
    split at h
    · cases h
    · rename_i hrules
      split at h
      · cases h
      · rename_i hverify
        split at h
        · cases h
        · rename_i hdigest
          cases h
          exact ⟨hrules, hverify, hdigest⟩
  · rintro ⟨hrules, hverify, hdigest⟩
    unfold attempt
    simp only [hrules, hverify, hdigest]

/-- A try is the end of waiting. -/
private theorem attempt_ne_pending (b : Body) : (attempt rs b).2 ≠ .pending := by
  unfold attempt
  split
  · exact nofun
  · split
    · exact nofun
    · split <;> exact nofun

private theorem meet_asOf (s : Option Body × PatchState) (b : Body) (r : Option Nat) :
    meet rs s (b.asOf r) = ((meet rs s b).1.map fun b' => b'.asOf r, (meet rs s b).2) := by
  by_cases hs : ∃ digest, s.2 = .applied digest
  · obtain ⟨live, state⟩ := s
    obtain ⟨digest, rfl⟩ := hs
    rfl
  · have hs' : ∀ digest, s.2 ≠ .applied digest := fun digest h => hs ⟨digest, h⟩
    rw [meet_of_ne hs', meet_of_ne hs', attempt_asOf]
    rfl

theorem meet_ne_pending (s : Option Body × PatchState) (b : Body) : (meet rs s b).2 ≠ .pending := by
  by_cases hs : ∃ digest, s.2 = .applied digest
  · obtain ⟨live, state⟩ := s
    obtain ⟨digest, rfl⟩ := hs
    exact nofun
  · rw [meet_of_ne fun digest h => hs ⟨digest, h⟩]
    exact attempt_ne_pending b

/-- Among the definitions of a method, the rules fail on those before one, and make another body of this one. -/
structure Applies (rs : List BoundRule) (before : List Body) (loaded patched : Body) (digest : String) : Prop where
  refused : ∀ b ∈ before, ∃ e, (attempt rs b).2 = .failed e
  rules : applyAll rs loaded = .ok patched
  verified : patched.verify = .ok ()
  digest : patched.digestText = .ok digest

/-- Of definitions that are all the same, the rules are applied to the first one. -/
theorem Applies.before_eq_nil {before : List Body} {loaded patched : Body}
    (h : Applies rs before loaded patched digest) (hsame : ∀ b ∈ before, b = loaded) : before = [] := by
  refine List.eq_nil_iff_forall_not_mem.2 fun b hb => ?_
  obtain ⟨e, hfailed⟩ := h.refused b hb
  rw [hsame b hb, attempt_applied.2 ⟨h.rules, h.verified, h.digest⟩] at hfailed
  cases hfailed

private theorem foldl_meet_cases (hs : ∀ digest, s.2 ≠ .applied digest)
    (h : (bs.foldl (meet rs) s).2 = .applied digest) : ∃ before loaded after patched,
      bs = before ++ loaded :: after ∧ Applies rs before loaded patched digest ∧
      (bs.foldl (meet rs) s).1 = some (after.getLast?.getD patched) := by
  -- as long as the rules fail, the next definition meets a state from which they are tried again
  induction bs generalizing s with
  | nil => exact absurd h (hs digest)
  | cons b bs ih =>
    rw [List.foldl_cons, meet_of_ne hs] at h ⊢
    cases hstate : (attempt rs b).2 with
    | pending => exact absurd hstate (attempt_ne_pending b)
    | failed e =>
      rw [hstate] at h
      obtain ⟨before, loaded, after, patched, rfl, happlies, hlive⟩ := ih (by rintro _ ⟨⟩) h
      refine ⟨b :: before, loaded, after, patched, rfl, { happlies with refused := fun b' hb' => ?_ }, hlive⟩
      rcases List.mem_cons.1 hb' with rfl | hb'
      · exact ⟨e, hstate⟩
      · exact happlies.refused b' hb'
    | applied digest' =>
      obtain ⟨hrules, hverify, hdigest⟩ := attempt_applied.1 (Prod.ext rfl hstate)
      rw [hstate, foldl_meet_applied] at h
      rw [foldl_meet_applied]
      obtain rfl := PatchState.applied.inj h
      refine ⟨[], b, bs, _, rfl, ⟨nofun, hrules, hverify, hdigest⟩, ?_⟩
      cases bs.getLast? <;> rfl

/-- Rules that are applied in the end were applied to one of the definitions, after they had failed on all before. The
last of the definitions after it is live, or else what the rules have made of this one. -/
theorem meetAll_applied (h : (meetAll rs bs).2 = .applied digest) : ∃ before loaded after patched,
    bs = before ++ loaded :: after ∧ Applies rs before loaded patched digest ∧
    (meetAll rs bs).1 = some (after.getLast?.getD patched) :=
  foldl_meet_cases (by rintro _ ⟨⟩) h

/-- Rules wait as long as their method is not defined. -/
theorem meetAll_pending : (meetAll rs bs).2 = .pending ↔ bs = [] := by
  constructor
  · intro h
    rcases List.eq_nil_or_concat bs with hnil | ⟨bs, b, rfl⟩
    · exact hnil
    · rw [List.concat_eq_append, meetAll_concat] at h
      exact absurd h (meet_ne_pending _ b)
  · rintro rfl
    rfl

end BoundRule

/-! ### Hosts -/

/-- The bodies that a list has for a method. -/
def Body.definitions (id : MethodId) (bs : List Body) : List Body := bs.filter fun b => b.method = id

theorem Body.definitions_concat (id : MethodId) (bs : List Body) (b : Body) :
    definitions id (bs ++ [b]) = definitions id bs ++ if b.method = id then [b] else [] := by
  rw [definitions, List.filter_append, definitions]
  by_cases hid : b.method = id <;> simp [hid]

/-- The plan has these rules, with their settings, for the method. -/
def Plan.Provides (plan : Plan) (id : MethodId) (rs : List BoundRule) : Prop :=
  ∃ patch ∈ plan.patches, patch.target = id ∧ rs.map BoundRule.rule = patch.rules ∧ rs ≠ []

/-- An attempt on a body that was defined just now, for rules in any state. -/
private theorem World.applyTo_meets {w : World} {live : Body} {target : MethodId}
    (hlive : w.table.get? target = some (.managed live)) (hmethod : live.method = target)
    (hrules : ∀ g, w.registry.get? target = some g → ∃ rs, g.patch = .rules rs) :
    ∃ t r, (w.applyTo target).2 = { w with table := t, registry := r } ∧
      (∀ id, id ≠ target → t.unrevised? id = w.table.unrevised? id ∧ r.get? id = w.registry.get? id) ∧
      (w.registry.get? target = none → r.get? target = none) ∧
      ∀ g rs old, w.registry.get? target = some g → g.patch = .rules rs →
        r.get? target = some { g with state := (BoundRule.meet rs (old, g.state) live).2 } ∧
        t.unrevised? target = (BoundRule.meet rs (old, g.state) live).1.map fun b => .managed (b.asOf none) := by
  have hbody : w.table.unrevised? target = some (.managed (live.asOf none)) := by
    rw [MethodTable.unrevised?, hlive]
    rfl
  rcases applyTo_cases w target with ⟨hnone, happly⟩ | ⟨g, digest, hg, hstate, happly⟩ | ⟨g, hg, hstate, -⟩
  · refine ⟨w.table, w.registry, by rw [happly], fun _ _ => ⟨rfl, rfl⟩, fun h => h, fun g rs old hg _ => ?_⟩
    cases hnone.symm.trans hg
  · refine ⟨w.table, w.registry, by rw [happly], fun _ _ => ⟨rfl, rfl⟩, fun h => h, fun g' rs old hg' _ => ?_⟩
    obtain rfl := Option.some.inj (hg.symm.trans hg')
    obtain ⟨name, patch, state⟩ := g
    obtain rfl : state = .applied digest := hstate
    exact ⟨hg, hbody⟩
  · obtain ⟨rs, hpatch⟩ := hrules g hg
    obtain ⟨name, patch, state⟩ := g
    obtain rfl : patch = .rules rs := hpatch
    obtain ⟨t, r, hworld, hlive', hregistration, hothers⟩ := applyTo_tries hlive hmethod hg hstate
    refine ⟨t, r, hworld, hothers, fun h => ?_, fun g' rs' old hg' hpatch' => ?_⟩
    · cases hg.symm.trans h
    · obtain rfl := Option.some.inj (hg.symm.trans hg')
      obtain rfl := Patch.rules.inj hpatch'
      rw [BoundRule.meet_of_ne hstate]
      exact ⟨hregistration, hlive'⟩

namespace Host

open BoundRule

variable {plan : Plan} {snap : Option Snapshot} {h h' : Host} {bs done : List Body} {b : Body}

/-- The bodies have been defined on a host with the plan, and nothing else has been done to it. -/
structure Tracks (plan : Plan) (bs : List Body) (h : Host) : Prop where
  hooks : h.hooks = [.registry]
  verified : ∀ b ∈ bs, b.verify = .ok ()
  targets : ∀ id ∈ plan.targets, (h.world.registry.get? id).isSome = true
  registration : ∀ {id g}, h.world.registry.get? id = some g → ∃ rs, plan.Provides id rs ∧ g.patch = .rules rs ∧
    g.state = (meetAll rs (Body.definitions id bs)).2 ∧ h.world.table.unrevised? id =
      (meetAll rs (Body.definitions id bs)).1.map fun b => .managed (b.asOf none)

private theorem tracks_installed (hinstalled : Session.installed {} (some plan) = .ok h) :
    (h.subscribe .registry).Tracks plan [] := by
  unfold Session.installed at hinstalled
  dsimp only at hinstalled
  split at hinstalled
  · rename_i report h₁ hinstall
    obtain rfl := Except.ok.inj hinstalled
    obtain ⟨hok, rfl⟩ := Prod.mk.inj hinstall
    obtain ⟨hvalid, htargets⟩ := World.of_install (Prod.ext hok rfl)
    refine ⟨rfl, nofun, htargets, fun {id g} hg => ?_⟩
    rcases World.get?_install {} plan id with hnone | ⟨patch, hpatch, rfl, g', hnew, hbecomes⟩
    · cases hnone.symm.trans hg
    · obtain rfl := Option.some.inj (hnew.symm.trans hg)
      obtain ⟨rs, rfl, hbound⟩ := hbecomes.eq
      have hrules := Rule.map_rule_of_bound hbound
      have hne : rs ≠ [] := by
        rintro rfl
        exact ((Plan.validate_eq_ok.1 hvalid).2 patch hpatch).1 hrules.symm
      have htable : (Host.install {} plan).2.world.table = {} := table_install {} plan
      refine ⟨rs, ⟨patch, hpatch, rfl, hrules, hne⟩, rfl, rfl, ?_⟩
      show (Host.install {} plan).2.world.table.unrevised? patch.target = none
      rw [htable]
      rfl
  · cases hinstalled

/-- At the beginning of a session no body has been defined. -/
theorem tracks_start (hstart : Session.start (some plan) snap = .ok h) : h.Tracks plan [] := by
  obtain ⟨h₁, hinstalled, hstart⟩ := bind_eq_ok.1 hstart
  obtain ⟨h₂, hrestored, hstart⟩ := bind_eq_ok.1 hstart
  obtain rfl := Except.ok.inj hstart
  obtain ⟨s, rfl⟩ := Session.exists_withSettings hrestored
  have ht := tracks_installed hinstalled
  exact ⟨ht.hooks, ht.verified, ht.targets, ht.registration⟩

/-- One more definition. -/
theorem Tracks.define (ht : h.Tracks plan bs) (hdefine : h.define b = .ok h') : h'.Tracks plan (bs ++ [b]) := by
  obtain ⟨t, hstore, -⟩ := map_eq_ok.1 hdefine
  obtain ⟨hverify, -⟩ := MethodTable.store_eq_ok.1 hstore
  obtain rfl := Except.ok.inj ((define_eq ht.hooks hverify).symm.trans hdefine)
  have hlive : (h.world.table.put b).get? b.method =
      some (.managed (b.asOf (some (h.world.table.revisions + 1)))) := MethodTable.get?_put_self ..
  obtain ⟨t, r, hworld, hothers, hnone, hself⟩ :=
    World.applyTo_meets (w := (h.withTable (h.world.table.put b)).world) hlive rfl fun g hg => by
      obtain ⟨rs, -, hpatch, -⟩ := ht.registration hg
      exact ⟨rs, hpatch⟩
  have hworld' : ((h.withTable (h.world.table.put b)).tell b.method .registry).world =
      { (h.withTable (h.world.table.put b)).world with table := t, registry := r } := hworld
  refine ⟨ht.hooks, fun b' hb' => ?_, fun id hid => ?_, fun {id g'} hg' => ?_⟩
  · rcases List.mem_append.1 hb' with hold | hnew
    · exact ht.verified b' hold
    · exact List.mem_singleton.1 hnew ▸ hverify
  · rw [hworld']
    by_cases hb : id = b.method
    · subst hb
      obtain ⟨g, hg⟩ := Option.isSome_iff_exists.1 (ht.targets b.method hid)
      obtain ⟨rs, -, hpatch, -⟩ := ht.registration hg
      exact Option.isSome_iff_exists.2 ⟨_, (hself g rs none hg hpatch).1⟩
    · rw [(hothers id hb).2]
      exact ht.targets id hid
  · rw [hworld'] at hg' ⊢
    by_cases hb : id = b.method
    · subst hb
      cases hg : h.world.registry.get? b.method with
      | none => cases hg'.symm.trans (hnone hg)
      | some g =>
        obtain ⟨rs, hprovides, hpatch, hstate, -⟩ := ht.registration hg
        obtain ⟨hregistration, hbody⟩ := hself g rs (meetAll rs (Body.definitions b.method bs)).1 hg hpatch
        obtain rfl := Option.some.inj (hregistration.symm.trans hg')
        refine ⟨rs, hprovides, hpatch, ?_⟩
        rw [hstate, meet_asOf] at hbody ⊢
        rw [Body.definitions_concat, if_pos rfl, meetAll_concat]
        refine ⟨rfl, hbody.trans ?_⟩
        rw [Option.map_map]
        rfl
    · obtain ⟨htable, hregistry⟩ := hothers id hb
      obtain ⟨rs, hprovides, hpatch, hstate, hbody⟩ := ht.registration (hregistry.symm.trans hg')
      refine ⟨rs, hprovides, hpatch, ?_⟩
      rw [Body.definitions_concat, if_neg (Ne.symm hb), List.append_nil]
      exact ⟨hstate, htable.trans ((MethodTable.unrevised?_put_of_ne _ hb).trans hbody)⟩

/-- All definitions of a list, one after the other. -/
theorem Tracks.load (ht : h.Tracks plan done) (hload : Session.load h bs = .ok h') : h'.Tracks plan (done ++ bs) := by
  induction bs generalizing h done with
  | nil =>
    obtain rfl := Except.ok.inj hload
    rwa [List.append_nil]
  | cons b bs ih =>
    unfold Session.load Host.defineAll at hload
    cases hdefine : h.define b with
    | error e =>
      rw [hdefine] at hload
      cases hload
    | ok h₁ =>
      rw [hdefine] at hload
      rw [List.append_cons]
      exact ih (ht.define hdefine) hload

/-- Rules wait exactly if no body was defined for their method. -/
theorem Tracks.pending_iff (ht : h.Tracks plan bs) {id : MethodId} {g : Registration}
    (hg : h.world.registry.get? id = some g) : g.state = .pending ↔ id ∉ bs.map Body.method := by
  obtain ⟨rs, -, -, hstate, -⟩ := ht.registration hg
  rw [hstate, meetAll_pending, Body.definitions, List.filter_eq_nil_iff]
  simp

/-- What is live for a method whose rules were applied. -/
theorem Tracks.applied (ht : h.Tracks plan bs) {id : MethodId} {g : Registration} {digest : String}
    (hg : h.world.registry.get? id = some g) (hstate : g.state = .applied digest) (hb : h.world.table.body id = .ok b) :
    ∃ rs before loaded after patched, plan.Provides id rs ∧ Body.definitions id bs = before ++ loaded :: after ∧
      Applies rs before loaded patched digest ∧ b.asOf none = (after.getLast?.getD patched).asOf none := by
  obtain ⟨rs, hprovides, -, hmet, hbody⟩ := ht.registration hg
  obtain ⟨before, loaded, after, patched, hsplit, happlies, hlive⟩ :=
    meetAll_applied (hmet.symm.trans hstate)
  refine ⟨rs, before, loaded, after, patched, hprovides, hsplit, happlies, ?_⟩
  rw [MethodTable.unrevised?, MethodTable.body_eq_ok.1 hb, hlive] at hbody
  exact Method.managed.inj (Option.some.inj hbody)

end Host

end Graft
