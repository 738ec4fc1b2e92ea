import Graft.Host.Basic
import Graft.Proofs.Host.Attempts
import Graft.Proofs.Host.WorkingCopies

/-!
# The life of a registered patch

Patches are registered, methods are defined, bodies are committed and patches are applied, on request or by the registry
when a method is defined, in any order. `Host.lifecycle` says what becomes of a registration in the course of this.

* `Host.moments` tells the single moments of a request, and `Host.history` those of a list of requests. What happens at
  a moment is one of few things (`Happens`), and to the registration of one method it is one of six (`Change`).
* `Linked` says that moments follow one another. `Linked.applied`, `Linked.kept` and the like say what lasts from one
  moment to all later ones.
-/

namespace Graft

namespace Host

def registration (h : Host) (target : MethodId) : Option Registration := h.world.registry.get? target

/-- Registers a patch; tells whether it is accepted. -/
def register (h : Host) (target : MethodId) (name : String) (patch : Patch) : Bool × Host :=
  let (accepted, r) := h.world.registry.register target name patch
  (accepted, { h with world := { h.world with registry := r } })

inductive Request where
  | register (target : MethodId) (name : String) (patch : Patch)
  | apply (target : MethodId)
  | define (b : Body)
  | defineIntrinsic (id : MethodId) (s : Signature) (n : Native)
  | commit (b : Body)
  | subscribe (hook : Hook)
  /-- The sources change, because settings are registered or set or a method runs. -/
  | provide (p : Providers)

/-- The host after a request. One that fails changes nothing, unless it is the application of a patch. -/
def perform (h : Host) : Request → Host
  | .register target name patch => (h.register target name patch).2
  | .apply target => (h.applyTo target).2
  | .define b => (h.define b).toOption.getD h
  | .defineIntrinsic id s n => h.defineIntrinsic id s n
  | .commit b => (h.commit b).toOption.getD h
  | .subscribe hook => h.subscribe hook
  | .provide p => { h with world := { h.world with providers := p } }

/-- What happens at a moment, as far as the registry is concerned. -/
inductive Occurrence where
  | registration (target : MethodId) (name : String) (patch : Patch) (accepted : Bool)
  /-- The registry is asked to apply the patch of a method. -/
  | attempt (target : MethodId) (result : Except PatchError Attempt)
  | other

structure Moment where
  before : Host
  occurrence : Occurrence
  after : Host

/-- What happens when a hook is told of a method. -/
def occurrence (h : Host) (id : MethodId) : Hook → Occurrence
  | .registry => .attempt id (h.applyTo id).1
  | .recorder _ => .other

def notices (id : MethodId) : Host → List Hook → List Moment
  | _, [] => []
  | h, hook :: hooks => ⟨h, h.occurrence id hook, h.tell id hook⟩ :: notices id (h.tell id hook) hooks

def moments (h : Host) : Request → List Moment
  | .register target name patch =>
    let (accepted, h') := h.register target name patch
    [⟨h, .registration target name patch accepted, h'⟩]
  | .apply target =>
    let (result, h') := h.applyTo target
    [⟨h, .attempt target result, h'⟩]
  | .define b =>
    match h.world.table.store b with
    | .ok t => ⟨h, .other, h.withTable t⟩ :: notices b.method (h.withTable t) h.hooks
    | .error _ => []
  | .defineIntrinsic id s n =>
    let h' := h.withTable (h.world.table.storeIntrinsic id s n)
    ⟨h, .other, h'⟩ :: notices id h' h.hooks
  | r => [⟨h, .other, h.perform r⟩]

def history : Host → List Request → List Moment
  | _, [] => []
  | h, r :: rs => h.moments r ++ history (h.perform r) rs

variable {h h' h'' : Host} {m : Moment} {ms ms' before after : List Moment} {target : MethodId} {g : Registration}

/-! ### One moment -/

inductive Happens : Host → Occurrence → Host → Prop
  | registration (h : Host) (target : MethodId) (name : String) (patch : Patch) :
      Happens h (.registration target name patch (h.register target name patch).1) (h.register target name patch).2
  | attempt (h : Host) (target : MethodId) : Happens h (.attempt target (h.applyTo target).1) (h.applyTo target).2
  | other {h h' : Host} (registry : h'.world.registry = h.world.registry)
      (sound : h.world.table.Sound → h'.world.table.Sound) : Happens h .other h'

/-- What becomes of the registration for a method at a moment. -/
inductive Change (target : MethodId) (m : Moment) : Prop
  | registered {name : String} {patch : Patch} (occurrence : m.occurrence = .registration target name patch true)
      (before : m.before.registration target = none)
      (after : m.after.registration target = some ⟨name, patch, .pending⟩)
  | applied {g : Registration} {b : Body} {digest : String} (occurrence : m.occurrence = .attempt target (.ok .applied))
      (before : m.before.registration target = some g) (due : ∀ digest, g.state ≠ .applied digest)
      (after : m.after.registration target = some { g with state := .applied digest })
      (live : m.after.world.table.load target = .ok b) (digest : b.digestText = .ok digest)
  | failed {g : Registration} {e : PatchError} (occurrence : m.occurrence = .attempt target (.error e))
      (before : m.before.registration target = some g) (due : ∀ digest, g.state ≠ .applied digest)
      (after : m.after.registration target = some { g with state := .failed e })
  | alreadyApplied {g : Registration} {digest : String}
      (occurrence : m.occurrence = .attempt target (.ok .alreadyApplied))
      (before : m.before.registration target = some g) (state : g.state = .applied digest) (after : m.after = m.before)
  | notRegistered (occurrence : m.occurrence = .attempt target (.ok .notRegistered))
      (before : m.before.registration target = none) (after : m.after = m.before)
  | other (noRegistration : ∀ name patch, m.occurrence ≠ .registration target name patch true)
      (noAttempt : ∀ result, m.occurrence ≠ .attempt target result)
      (after : m.after.registration target = m.before.registration target)

theorem Happens.sound {o : Occurrence} (hm : Happens h o h') (hs : h.world.table.Sound) : h'.world.table.Sound := by
  cases hm with
  | registration target name patch => exact hs
  | attempt target => exact World.sound_applyTo hs target
  | other registry sound => exact sound hs

/-- The live body has the digest of the body that was put into the table: the digest does not depend on the revision. -/
private theorem digest_put (t : MethodTable) (b : Body) :
    ∃ live, (t.put b).load b.method = .ok live ∧ live.digestText = b.digestText :=
  ⟨_, MethodTable.body_eq_ok.2 (MethodTable.get?_put_self t b), rfl⟩

/-- What an attempt does to the registration of its own method. -/
private theorem change_attempt (hs : h.world.table.Sound) (target : MethodId) :
    Change target ⟨h, .attempt target (h.applyTo target).1, (h.applyTo target).2⟩ := by
  have hresult : (h.applyTo target).1 = (h.world.applyTo target).1 := rfl
  have hafter : (h.applyTo target).2 = { h with world := (h.world.applyTo target).2 } := rfl
  rw [hresult, hafter]
  rcases World.applyTo_cases h.world target with
    ⟨hg, happly⟩ | ⟨g, digest, hg, hstate, happly⟩ | ⟨g, hg, hdue, ⟨digest, w', hrun, happly⟩ | ⟨e, w', hrun, happly⟩⟩
  · rw [happly]
    exact .notRegistered rfl hg rfl
  · rw [happly]
    exact .alreadyApplied rfl hg hstate rfl
  · rw [happly]
    rcases World.runPatch_cases h.world target g.patch with ⟨e, p, herror⟩ | ⟨live, b, p, t, hload, hedit, hcommit, hok⟩
    · cases hrun.symm.trans herror
    · obtain ⟨hdigest, rfl⟩ := Prod.mk.inj (hrun.symm.trans hok)
      obtain ⟨-, -, -, -, rfl⟩ := MethodTable.commit_eq_ok.1 hcommit
      have hmethod : b.method = target :=
        (Body.stable_method target).edit (hs.named (MethodTable.body_eq_ok.1 hload)) hedit
      obtain ⟨live', hlive, hsame⟩ := digest_put h.world.table b
      refine .applied rfl hg hdue (Dict.get?_insert_self ..) (hmethod ▸ hlive) ?_
      rw [hsame]
      cases htext : b.digestText with
      | ok digest' =>
        rw [htext] at hdigest
        exact congrArg Except.ok (Except.ok.inj hdigest).symm
      | error x =>
        rw [htext] at hdigest
        cases hdigest
  · rw [happly]
    exact .failed rfl hg hdue (Dict.get?_insert_self ..)

/-- An attempt does nothing to the registrations of other methods. -/
private theorem registration_applyTo (h : Host) {id : MethodId} (hid : target ≠ id) :
    (h.applyTo id).2.registration target = h.registration target := by
  show (h.world.applyTo id).2.registry.get? target = h.world.registry.get? target
  rcases World.applyTo_cases h.world id with
    ⟨-, happly⟩ | ⟨g, digest, -, -, happly⟩ | ⟨g, -, -, ⟨digest, w', hrun, happly⟩ | ⟨e, w', hrun, happly⟩⟩
  · rw [happly]
  · rw [happly]
  all_goals
    have hregistry := World.registry_runPatch h.world id g.patch
    rw [hrun] at hregistry
    rw [happly, ← hregistry]
    exact Dict.get?_insert_of_ne _ hid _

private theorem register_cases (h : Host) (id : MethodId) (name : String) (patch : Patch) :
    ((h.register id name patch) = (false, h)) ∨
    (h.registration id = none ∧ (h.register id name patch).1 = true ∧
      (h.register id name patch).2.registration id = some ⟨name, patch, .pending⟩ ∧
      ∀ target, target ≠ id → (h.register id name patch).2.registration target = h.registration target) := by
  unfold register Registry.register
  cases hcontains : h.world.registry.byTarget.contains id with
  | true => exact .inl rfl
  | false =>
    have hnone : h.registration id = none := Option.isSome_eq_false_iff.1 hcontains |> Option.isNone_iff_eq_none.1
    exact .inr ⟨hnone, rfl, Dict.get?_insert_self .., fun target hid => Dict.get?_insert_of_ne _ hid _⟩

/-- What happens to a host changes the registration for a method in one of six ways. -/
theorem Happens.change {o : Occurrence} (hm : Happens h o h') (hs : h.world.table.Sound) (target : MethodId) :
    Change target ⟨h, o, h'⟩ := by
  cases hm with
  | registration id name patch =>
    rcases register_cases h id name patch with hrefused | ⟨hnone, haccepted, hself, hother⟩
    · rw [hrefused]
      exact .other (fun _ _ heq => by cases heq) (fun _ heq => by cases heq) rfl
    · by_cases hid : target = id
      · subst hid
        refine .registered ?_ hnone hself
        rw [haccepted]
      · refine .other (fun name' patch' heq => hid ?_) (fun _ heq => by cases heq) (hother target hid)
        injection heq with heq
        exact heq.symm
  | attempt id =>
    by_cases hid : target = id
    · subst hid
      exact change_attempt hs target
    · refine .other (fun _ _ heq => by cases heq) (fun result heq => hid ?_) (registration_applyTo h hid)
      injection heq with heq
      exact heq.symm
  | other registry sound =>
    refine .other (fun _ _ heq => by cases heq) (fun _ heq => by cases heq) ?_
    show h'.world.registry.get? target = h.world.registry.get? target
    rw [registry]

/-! ### Moments that follow one another -/

/-- The moments lead from one host to another. -/
inductive Linked : Host → List Moment → Host → Prop
  | nil {h : Host} : Linked h [] h
  | cons {h h₁ h' : Host} {o : Occurrence} {ms : List Moment} (first : Happens h o h₁) (rest : Linked h₁ ms h') :
      Linked h (⟨h, o, h₁⟩ :: ms) h'

theorem Linked.append (hl : Linked h ms h') (hl' : Linked h' ms' h'') : Linked h (ms ++ ms') h'' := by
  induction hl with
  | nil => exact hl'
  | cons first _ ih => exact .cons first (ih hl')

theorem Linked.split (hl : Linked h (before ++ m :: after) h') :
    Linked h before m.before ∧ Happens m.before m.occurrence m.after ∧ Linked m.after after h' := by
  induction before generalizing h with
  | nil =>
    cases hl with
    | cons first rest => exact ⟨.nil, first, rest⟩
  | cons m' before ih =>
    cases hl with
    | cons first rest =>
      obtain ⟨hbefore, hm, hafter⟩ := ih rest
      exact ⟨.cons first hbefore, hm, hafter⟩

theorem linked_notices (id : MethodId) (h : Host) (hooks : List Hook) :
    Linked h (notices id h hooks) (hooks.foldl (tell id) h) := by
  induction hooks generalizing h with
  | nil => exact .nil
  | cons hook hooks ih =>
    refine .cons ?_ (ih (h.tell id hook))
    cases hook with
    | registry => exact .attempt h id
    | recorder tag => exact .other rfl fun hs => hs

theorem linked_moments (h : Host) (r : Request) : Linked h (h.moments r) (h.perform r) := by
  cases r with
  | register target name patch => exact .cons (.registration h target name patch) .nil
  | apply target => exact .cons (.attempt h target) .nil
  | define b =>
    rcases hstore : h.world.table.store b with e | t
    · simp only [moments, perform, define, hstore]
      exact .nil
    · simp only [moments, perform, define, hstore]
      exact .cons (.other rfl fun hs => hs.store hstore) (linked_notices ..)
  | defineIntrinsic id s n => exact .cons (.other rfl fun hs => hs.storeIntrinsic id s n) (linked_notices ..)
  | commit b =>
    rcases hcommit : h.world.table.commit b with e | t
    · simp only [moments, perform, commit, hcommit]
      exact .cons (.other rfl fun hs => hs) .nil
    · simp only [moments, perform, commit, hcommit]
      exact .cons (.other rfl fun hs => hs.commit hcommit) .nil
  | subscribe hook => exact .cons (.other rfl fun hs => hs) .nil
  | provide p => exact .cons (.other rfl fun hs => hs) .nil

theorem linked_history (h : Host) (rs : List Request) : Linked h (history h rs) (rs.foldl perform h) := by
  induction rs generalizing h with
  | nil => exact .nil
  | cons r rs ih => exact (linked_moments h r).append (ih (h.perform r))

theorem Linked.sound (hl : Linked h ms h') (hs : h.world.table.Sound) : h'.world.table.Sound := by
  induction hl with
  | nil => exact hs
  | cons first _ ih => exact ih (first.sound hs)

/-! ### What lasts -/

/-- Once a patch is registered, its name and the patch stay, and no other one is accepted. -/
theorem Change.kept (hc : Change target m) (hg : m.before.registration target = some g) :
    (∃ g', m.after.registration target = some g' ∧ g'.name = g.name ∧ g'.patch = g.patch) ∧
      ∀ name patch, m.occurrence ≠ .registration target name patch true := by
  cases hc with
  | registered occurrence before after => cases hg.symm.trans before
  | applied occurrence before due after live digest =>
    cases hg.symm.trans before
    exact ⟨⟨_, after, rfl, rfl⟩, fun _ _ heq => by cases occurrence.symm.trans heq⟩
  | failed occurrence before due after =>
    cases hg.symm.trans before
    exact ⟨⟨_, after, rfl, rfl⟩, fun _ _ heq => by cases occurrence.symm.trans heq⟩
  | alreadyApplied occurrence before state after =>
    exact ⟨⟨g, after ▸ hg, rfl, rfl⟩, fun _ _ heq => by cases occurrence.symm.trans heq⟩
  | notRegistered occurrence before after => cases hg.symm.trans before
  | other noRegistration noAttempt after => exact ⟨⟨g, after ▸ hg, rfl, rfl⟩, noRegistration⟩

theorem Linked.kept (hl : Linked h ms h') (hs : h.world.table.Sound) (hg : h.registration target = some g) :
    (∃ g', h'.registration target = some g' ∧ g'.name = g.name ∧ g'.patch = g.patch) ∧
    ∀ m ∈ ms, (∃ g', m.after.registration target = some g' ∧ g'.name = g.name ∧ g'.patch = g.patch) ∧
      ∀ name patch, m.occurrence ≠ .registration target name patch true := by
  induction hl generalizing g with
  | nil => exact ⟨⟨g, hg, rfl, rfl⟩, List.forall_mem_nil _⟩
  | cons first rest ih =>
    obtain ⟨⟨g', hg', hname, hpatch⟩, hfirst⟩ := (first.change hs target).kept hg
    have hrest := ih (first.sound hs) hg'
    rw [hname, hpatch] at hrest
    exact ⟨hrest.1, List.forall_mem_cons.2 ⟨⟨⟨g', hg', hname, hpatch⟩, hfirst⟩, hrest.2⟩⟩

/-- Once a patch is applied, its registration stays as it is, and each attempt finds it applied. -/
theorem Change.done {digest : String} (hc : Change target m) (hg : m.before.registration target = some g)
    (hstate : g.state = .applied digest) : m.after.registration target = some g ∧
      ∀ result, m.occurrence = .attempt target result → result = .ok .alreadyApplied := by
  cases hc with
  | registered occurrence before after => cases hg.symm.trans before
  | applied occurrence before due after live digest =>
    cases hg.symm.trans before
    exact absurd hstate (due _)
  | failed occurrence before due after =>
    cases hg.symm.trans before
    exact absurd hstate (due _)
  | alreadyApplied occurrence before state after =>
    refine ⟨after ▸ hg, fun result hresult => ?_⟩
    injection occurrence.symm.trans hresult with _ heq
    exact heq.symm
  | notRegistered occurrence before after => cases hg.symm.trans before
  | other noRegistration noAttempt after => exact ⟨after ▸ hg, fun result hresult => absurd hresult (noAttempt result)⟩

theorem Linked.done {digest : String} (hl : Linked h ms h') (hs : h.world.table.Sound)
    (hg : h.registration target = some g) (hstate : g.state = .applied digest) :
    h'.registration target = some g ∧ ∀ m ∈ ms, m.after.registration target = some g ∧
      ∀ result, m.occurrence = .attempt target result → result = .ok .alreadyApplied := by
  induction hl with
  | nil => exact ⟨hg, List.forall_mem_nil _⟩
  | cons first rest ih =>
    have hfirst := (first.change hs target).done hg hstate
    obtain ⟨hlast, hrest⟩ := ih (first.sound hs) hfirst.1
    exact ⟨hlast, List.forall_mem_cons.2 ⟨hfirst, hrest⟩⟩

/-- If a patch is registered for the method, then it is pending. -/
def Untried (target : MethodId) (h : Host) : Prop := ∀ g, h.registration target = some g → g.state = .pending

/-- Only an attempt that finds a patch ends the time when there was none. -/
theorem Change.untried_iff (hc : Change target m) : Untried target m.after ↔
    Untried target m.before ∧ ∀ result, m.occurrence = .attempt target result → result = .ok .notRegistered := by
  unfold Untried
  cases hc with
  | registered occurrence before after =>
    rw [after, before, occurrence]
    refine ⟨fun _ => ⟨fun g hg => ?_, fun result heq => ?_⟩, fun _ g hg => Option.some.inj hg ▸ rfl⟩
    · cases hg
    · cases heq
  | applied occurrence before due after live digest =>
    rw [after, occurrence]
    exact ⟨fun hpending => (nomatch hpending _ rfl), fun ⟨_, hattempt⟩ => (nomatch hattempt _ rfl)⟩
  | failed occurrence before due after =>
    rw [after, occurrence]
    exact ⟨fun hpending => (nomatch hpending _ rfl), fun ⟨_, hattempt⟩ => (nomatch hattempt _ rfl)⟩
  | alreadyApplied occurrence before state after =>
    rw [after, occurrence]
    refine ⟨fun hpending => ?_, fun ⟨_, hattempt⟩ => (nomatch hattempt _ rfl)⟩
    cases state.symm.trans (hpending _ before)
  | notRegistered occurrence before after =>
    rw [after, occurrence]
    refine ⟨fun hpending => ⟨hpending, fun result hresult => ?_⟩, fun h => h.1⟩
    injection hresult with _ heq
    exact heq.symm
  | other noRegistration noAttempt after =>
    rw [after]
    exact ⟨fun hpending => ⟨hpending, fun result hresult => absurd hresult (noAttempt result)⟩, fun h => h.1⟩

theorem Linked.untried_iff (hl : Linked h ms h') (hs : h.world.table.Sound) : Untried target h' ↔
    Untried target h ∧ ∀ m ∈ ms, ∀ result, m.occurrence = .attempt target result → result = .ok .notRegistered := by
  induction hl with
  | nil => exact ⟨fun hpending => ⟨hpending, List.forall_mem_nil _⟩, fun h => h.1⟩
  | cons first rest ih =>
    rw [ih (first.sound hs), (first.change hs target).untried_iff, List.forall_mem_cons, and_assoc]

/-! ### The life of a registration -/

private theorem Linked.of_mem (hl : Linked h ms h') (hs : h.world.table.Sound) (hm : m ∈ ms) :
    ∃ after, (∀ target, Change target m) ∧ m.after.world.table.Sound ∧ Linked m.after after h' := by
  obtain ⟨before, after, rfl⟩ := List.append_of_mem hm
  obtain ⟨hbefore, hfirst, hafter⟩ := hl.split
  have hsound := hbefore.sound hs
  exact ⟨after, hfirst.change hsound, hfirst.sound hsound, hafter⟩

private theorem Change.of_registration {name : String} {patch : Patch} (hc : Change target m)
    (hm : m.occurrence = .registration target name patch true) : m.before.registration target = none ∧
      m.after.registration target = some ⟨name, patch, .pending⟩ := by
  cases hc with
  | registered occurrence before after =>
    injection occurrence.symm.trans hm with _ hname hpatch
    exact ⟨before, hname ▸ hpatch ▸ after⟩
  | applied occurrence => cases hm.symm.trans occurrence
  | failed occurrence => cases hm.symm.trans occurrence
  | alreadyApplied occurrence => cases hm.symm.trans occurrence
  | notRegistered occurrence => cases hm.symm.trans occurrence
  | other noRegistration => exact absurd hm (noRegistration name patch)

private theorem Change.of_applied (hc : Change target m) (hm : m.occurrence = .attempt target (.ok .applied)) :
    ∃ g digest b, g.state = .applied digest ∧ m.after.registration target = some g ∧
      m.after.world.table.load target = .ok b ∧ b.digestText = .ok digest := by
  cases hc with
  | registered occurrence => cases hm.symm.trans occurrence
  | applied occurrence before due after live digest => exact ⟨_, _, _, rfl, after, live, digest⟩
  | failed occurrence => cases hm.symm.trans occurrence
  | alreadyApplied occurrence => cases hm.symm.trans occurrence
  | notRegistered occurrence => cases hm.symm.trans occurrence
  | other noRegistration noAttempt => exact absurd hm (noAttempt _)

private theorem Change.of_idle (hc : Change target m)
    (hm : m.occurrence = .attempt target (.ok .alreadyApplied) ∨ m.occurrence = .attempt target (.ok .notRegistered)) :
    m.after = m.before := by
  cases hc with
  | registered occurrence => rcases hm with hm | hm <;> cases hm.symm.trans occurrence
  | applied occurrence => rcases hm with hm | hm <;> cases hm.symm.trans occurrence
  | failed occurrence => rcases hm with hm | hm <;> cases hm.symm.trans occurrence
  | alreadyApplied _ _ _ after => exact after
  | notRegistered _ _ after => exact after
  | other noRegistration noAttempt =>
    rcases hm with hm | hm
    · exact absurd hm (noAttempt _)
    · exact absurd hm (noAttempt _)

private theorem Change.of_not_attempt (hc : Change target m) (hm : ∀ result, m.occurrence ≠ .attempt target result)
    (hg : m.before.registration target = some g) : m.after.registration target = some g := by
  cases hc with
  | registered _ before => cases hg.symm.trans before
  | applied occurrence => exact absurd occurrence (hm _)
  | failed occurrence => exact absurd occurrence (hm _)
  | alreadyApplied occurrence => exact absurd occurrence (hm _)
  | notRegistered occurrence => exact absurd occurrence (hm _)
  | other _ _ after => exact after ▸ hg

/-- What becomes of the patch for a method, whatever is asked of the host. The first patch that is accepted stays, with
its name, and no other one is accepted. It is applied at most once: its state is then the digest of the live body, it
never changes any more, and all later attempts find it applied. Attempts that find it applied, or find no patch, change
nothing. Only an attempt changes the state of a patch, and as long as it is pending there was none. -/
theorem lifecycle {rs : List Request} (hrs : history {} rs = before ++ m :: after) (target : MethodId) :
    (∀ name patch, m.occurrence = .registration target name patch true →
      (∀ m' ∈ m :: after, ∃ g, m'.after.registration target = some g ∧ g.name = name ∧ g.patch = patch) ∧
      ∀ m' ∈ before ++ after, ∀ name' patch', m'.occurrence ≠ .registration target name' patch' true) ∧
    (m.occurrence = .attempt target (.ok .applied) →
      (∃ g digest b, g.state = .applied digest ∧ m.after.world.table.load target = .ok b ∧ b.digestText = .ok digest ∧
        ∀ m' ∈ m :: after, m'.after.registration target = some g) ∧
      (∀ m' ∈ after, ∀ result, m'.occurrence = .attempt target result → result = .ok .alreadyApplied) ∧
      ∀ m' ∈ before, m'.occurrence ≠ .attempt target (.ok .applied)) ∧
    (m.occurrence = .attempt target (.ok .alreadyApplied) ∨ m.occurrence = .attempt target (.ok .notRegistered) →
      m.after = m.before) ∧
    (∀ g, m.before.registration target = some g → (∀ result, m.occurrence ≠ .attempt target result) →
      m.after.registration target = some g) ∧
    ∀ g, m.after.registration target = some g → (g.state = .pending ↔
      ∀ m' ∈ before ++ [m], ∀ result, m'.occurrence = .attempt target result → result = .ok .notRegistered) := by
  have hl : Linked {} (before ++ m :: after) (rs.foldl perform {}) := hrs ▸ linked_history {} rs
  obtain ⟨hbefore, hm, hafter⟩ := hl.split
  have hs := hbefore.sound MethodTable.sound_empty
  have hs' := hm.sound hs
  have hc : Change target m := hm.change hs target
  refine ⟨fun name patch hregistration => ?_, fun happlied => ?_, hc.of_idle,
    fun g hg hno => hc.of_not_attempt hno hg, ?_⟩
  · obtain ⟨hnone, hself⟩ := hc.of_registration hregistration
    obtain ⟨-, hkept⟩ := hafter.kept hs' hself
    refine ⟨List.forall_mem_cons.2 ⟨⟨_, hself, rfl, rfl⟩, fun m' hm' => (hkept m' hm').1⟩,
      fun m' hm' name' patch' => ?_⟩
    rcases List.mem_append.1 hm' with hm' | hm'
    · -- an earlier registration would still be there
      intro hearlier
      obtain ⟨between, hc', hs'', hbetween⟩ := hbefore.of_mem MethodTable.sound_empty hm'
      obtain ⟨⟨g, hg, -⟩, -⟩ := hbetween.kept hs'' ((hc' target).of_registration hearlier).2
      cases hnone.symm.trans hg
    · exact (hkept m' hm').2 name' patch'
  · obtain ⟨g, digest, b, hstate, hself, hlive, hdigest⟩ := hc.of_applied happlied
    obtain ⟨-, hdone⟩ := hafter.done hs' hself hstate
    refine ⟨⟨g, digest, b, hstate, hlive, hdigest, List.forall_mem_cons.2 ⟨hself, fun m' hm' => (hdone m' hm').1⟩⟩,
      fun m' hm' => (hdone m' hm').2, fun m' hm' hearlier => ?_⟩
    -- after an earlier application this attempt would have found the patch applied
    obtain ⟨between, hc', hs'', hbetween⟩ := hbefore.of_mem MethodTable.sound_empty hm'
    obtain ⟨g', digest', -, hstate', hself', -⟩ := (hc' target).of_applied hearlier
    obtain ⟨hg', -⟩ := hbetween.done hs'' hself' hstate'
    cases (hc.done hg' hstate').2 _ happlied
  · intro g hg
    have huntried : Untried target m.after ↔ g.state = .pending :=
      ⟨fun hpending => hpending g hg, fun hpending g' hg' => Option.some.inj (hg.symm.trans hg') ▸ hpending⟩
    rw [← huntried, hc.untried_iff, hbefore.untried_iff MethodTable.sound_empty, List.forall_mem_append,
      List.forall_mem_singleton, and_assoc]
    exact and_iff_right fun g hg => by cases hg

/-- A patch is registered, applied when its method is defined, and asked for once more. -/
def padding : List Request :=
  [.subscribe .registry, .register Workshop.five.method "pad" (.script [⟨.insert ⟨.nop, []⟩, false⟩]),
    .define Workshop.five, .apply Workshop.five.method]

theorem lifecycle_padding : ∃ (before : List Moment) (m : Moment) (after : List Moment),
    history {} padding = before ++ m :: after ∧ m.occurrence = .attempt Workshop.five.method (.ok .applied) ∧
    (∃ g digest b, g.state = .applied digest ∧ m.after.world.table.load Workshop.five.method = .ok b ∧
      b.digestText = .ok digest ∧ ∀ m' ∈ m :: after, m'.after.registration Workshop.five.method = some g) ∧
    after ≠ [] := by
  -- the registry is told of the method after the subscription, the registration and the definition
  have hfourth : ((history {} padding)[3]?.map fun m =>
      match m.occurrence with
      | .attempt target (.ok .applied) => decide (target = Workshop.five.method)
      | _ => false) = some true := by decide +kernel
  have hlength : (history {} padding).length = 5 := by decide +kernel
  generalize hms : history {} padding = ms at hfourth hlength
  obtain ⟨m, hm, happlied⟩ := Option.map_eq_some_iff.1 hfourth
  obtain ⟨hlt, hget⟩ := List.getElem?_eq_some_iff.1 hm
  have hsplit : history {} padding = ms.take 3 ++ m :: ms.drop 4 := by
    rw [← hget, ← List.drop_eq_getElem_cons hlt, List.take_append_drop, hms]
  have hoccurrence : m.occurrence = .attempt Workshop.five.method (.ok .applied) := by
    split at happlied
    · rename_i heq
      rw [heq, of_decide_eq_true happlied]
    · cases happlied
  obtain ⟨-, hdone, -⟩ := lifecycle hsplit Workshop.five.method
  refine ⟨_, _, _, hms ▸ hsplit, hoccurrence, (hdone hoccurrence).1, List.ne_nil_of_length_pos ?_⟩
  rw [List.length_drop, hlength]
  decide

end Host

end Graft
