import Graft.Proofs.Host.Reached
import Graft.Proofs.Host.WorkingCopies

/-!
# Hooks of a method table

Hooks are told of every method that is defined, and may load and commit bodies while the definition is still in
progress. Whatever they do, the table stays intact (`Watched.perform_intact`).

* `Visit` is what a hook does with the table, and `Watched` a table with any number of hooks. A host is one, and stays
  one whatever is done with its table (`Watched.Shows.calls`).
* `MethodTable.Intact` is the invariant: all bodies are verified, and no two of them have the same revision.
* `Watched.Leads` says that a table comes from another by putting verified bodies and intrinsic methods in place of some
  of its methods. All operations are made of such steps (`leads_act`).
-/

namespace Graft

/-! ### Intact tables -/

namespace MethodTable

variable {t t' : MethodTable} {b : Body} {id : MethodId} {e : Error}

/-- Why a table refuses an edited body. -/
inductive Refusal (t : MethodTable) (b : Body) : Error → Prop
  | unknown (entry : t.get? b.method = none) : Refusal t b (.unknownMethod b.method)
  | intrinsic {s : Signature} {n : Native} (entry : t.get? b.method = some (.intrinsic s n)) :
      Refusal t b (.noBody b.method)
  | rejected {live : Body} {e : Error} (entry : t.get? b.method = some (.managed live))
      (rejected : b.verify = .error e) : Refusal t b e
  | stale {live : Body} (entry : t.get? b.method = some (.managed live)) (verified : b.verify = .ok ())
      (stale : isStale live b = true) : Refusal t b (.stale b.method)

private theorem commit_of_managed {live : Body} (h : t.get? b.method = some (.managed live)) :
    t.commit b = (b.verify.bind fun _ => if isStale live b then .error (.stale b.method) else .ok (t.put b)) := by
  rw [commit, body_eq_ok.2 h]
  cases b.verify with
  | error e => rfl
  | ok u =>
    show (if isStale live b then _ else _) = if isStale live b then _ else _
    split <;> rfl

/-- A commit fails for one of four reasons, and they are looked for in this order. -/
theorem commit_eq_error : t.commit b = .error e ↔ t.Refusal b e := by
  constructor
  · intro h
    cases hentry : t.get? b.method with
    | none =>
      rw [commit, body, hentry] at h
      obtain rfl := Except.error.inj h
      exact .unknown hentry
    | some m =>
      cases m with
      | intrinsic s n =>
        rw [commit, body, hentry] at h
        obtain rfl := Except.error.inj h
        exact .intrinsic hentry
      | managed live =>
        rw [commit_of_managed hentry] at h
        cases hverify : b.verify with
        | error e' =>
          rw [hverify] at h
          obtain rfl := Except.error.inj h
          exact .rejected hentry hverify
        | ok u =>
          rw [hverify, Except.bind] at h
          split at h
          · obtain rfl := Except.error.inj h
            exact .stale hentry hverify ‹_›
          · cases h
  · intro h
    cases h with
    | unknown entry => rw [commit, body, entry]; rfl
    | intrinsic entry => rw [commit, body, entry]; rfl
    | rejected entry rejected => rw [commit_of_managed entry, rejected]; rfl
    | stale entry verified stale => rw [commit_of_managed entry, verified, Except.bind, if_pos stale]

theorem verify_withRevision (h : b.verify = .ok ()) (r : Option Nat) : { b with revision := r }.verify = .ok () :=
  Typing.verify_eq_ok.2 ((Typing.wellTyped_of_findings (Typing.verify_eq_ok.1 h)).withRevision r).findings

/-- Every live body passes verification and has a revision that was given out to no other live body. -/
structure Intact (t : MethodTable) : Prop extends t.Sound where
  verified : ∀ {id b}, t.get? id = some (.managed b) → b.verify = .ok ()
  distinct : ∀ {id id' b b'}, t.get? id = some (.managed b) → t.get? id' = some (.managed b') →
    b.revision = b'.revision → id = id'

theorem intact_empty : ({} : MethodTable).Intact := ⟨sound_empty, nofun, nofun⟩

theorem Intact.put (h : t.Intact) (hverify : b.verify = .ok ()) : (t.put b).Intact := by
  refine ⟨h.toSound.put b, fun {id b'} hb' => ?_, fun {id id' b₁ b₂} h₁ h₂ heq => ?_⟩
  · rcases get?_put_cases hb' with ⟨-, rfl⟩ | ⟨-, hold⟩
    · exact verify_withRevision hverify _
    · exact h.verified hold
  · rcases get?_put_cases h₁ with ⟨rfl, rfl⟩ | ⟨-, hold₁⟩ <;> rcases get?_put_cases h₂ with ⟨rfl, rfl⟩ | ⟨-, hold₂⟩
    · rfl
    · -- the new revision is greater than all others
      obtain ⟨r, hr, hle⟩ := h.revised hold₂
      obtain rfl := Option.some.inj (heq.trans hr)
      omega
    · obtain ⟨r, hr, hle⟩ := h.revised hold₁
      obtain rfl := Option.some.inj (heq.symm.trans hr)
      omega
    · exact h.distinct hold₁ hold₂ heq

theorem Intact.storeIntrinsic (h : t.Intact) (id : MethodId) (s : Signature) (n : Native) :
    (t.storeIntrinsic id s n).Intact :=
  ⟨h.toSound.storeIntrinsic id s n, fun hb => h.verified (get?_of_storeIntrinsic hb), fun hb hb' =>
    h.distinct (get?_of_storeIntrinsic hb) (get?_of_storeIntrinsic hb')⟩

end MethodTable

/-! ### Hooks -/

/-- What hooks know and change besides the table: the patches, the sources, and notes of any kind. -/
structure Memory (σ : Type) where
  registry : Registry := {}
  providers : Providers := {}
  notes : σ

/-- What a hook does when it is told of a method: it loads and commits bodies, goes on by what it gets, and ends with
another memory. -/
inductive Visit (σ : Type) where
  | done (m : Memory σ)
  | load (id : MethodId) (next : Except Error Body → Visit σ)
  | commit (b : Body) (next : Except Error Unit → Visit σ)

/-- Who is told of methods: the registry, or any other hook. -/
inductive Watcher (σ : Type) where
  | registry
  | visitor (visit : MethodId → Memory σ → Visit σ)

/-- A method table with its hooks. It keeps the tables that there were and the methods that hooks were told of. -/
structure Watched (σ : Type) where
  table : MethodTable := {}
  past : List MethodTable := []
  watchers : List (Watcher σ) := []
  told : List MethodId := []
  memory : Memory σ

variable {σ : Type}

namespace Watched

def tables (w : Watched σ) : List MethodTable := w.table :: w.past

/-- Another table takes the place of the one that there is. -/
def set (w : Watched σ) (t : MethodTable) : Watched σ := { w with table := t, past := w.tables }

def world (w : Watched σ) : World := ⟨w.table, w.memory.registry, w.memory.providers⟩

end Watched

/-- What there is after the visit of a hook. A commit that fails changes nothing. -/
def Visit.run : Visit σ → Watched σ → Watched σ
  | done m, w => { w with memory := m }
  | load id next, w => (next (w.table.load id)).run w
  | commit b next, w =>
    match w.table.commit b with
    | .ok t => (next (.ok ())).run (w.set t)
    | .error e => (next (.error e)).run w

namespace Watched

/-- What there is after a hook was told of a method. -/
def tell (id : MethodId) (w : Watched σ) (x : Watcher σ) : Watched σ :=
  let w := { w with told := id :: w.told }
  match x with
  | .registry =>
    let after := (w.world.applyTo id).2
    { w.set after.table with memory := ⟨after.registry, after.providers, w.memory.notes⟩ }
  | .visitor visit => (visit id w.memory).run w

def notify (w : Watched σ) (id : MethodId) : Watched σ := w.watchers.foldl (tell id) w

/-- Stores a body that passes verification and tells the hooks. -/
def define (w : Watched σ) (b : Body) : Except Error (Watched σ) :=
  (w.table.store b).map fun t => (w.set t).notify b.method

/-- Defines bodies up to the first that does not pass verification. -/
def defineAll : Watched σ → List Body → Except Error Unit × Watched σ
  | w, [] => (.ok (), w)
  | w, b :: bs =>
    match w.define b with
    | .error e => (.error e, w)
    | .ok w => defineAll w bs

inductive Operation (σ : Type) where
  | define (b : Body)
  | defineIntrinsic (id : MethodId) (s : Signature) (n : Native)
  | subscribe (x : Watcher σ)
  | load (id : MethodId)
  | commit (b : Body)
  | loadModule (src : String)
  /-- Anything that does not touch the table, such as the registration of a patch. -/
  | elsewhere (f : Memory σ → Memory σ)

/-- Does an operation; tells whether it succeeds and what there is afterwards. -/
def act (w : Watched σ) : Operation σ → Except Error Unit × Watched σ
  | .define b =>
    match w.define b with
    | .ok w' => (.ok (), w')
    | .error e => (.error e, w)
  | .defineIntrinsic id s n => (.ok (), (w.set (w.table.storeIntrinsic id s n)).notify id)
  | .subscribe x => (.ok (), { w with watchers := w.watchers ++ [x] })
  | .load id => ((w.table.load id).map fun _ => (), w)
  | .commit b =>
    match w.table.commit b with
    | .ok t => (.ok (), w.set t)
    | .error e => (.error e, w)
  | .loadModule src =>
    match Assembly.bodies src.toList with
    | .ok bs => w.defineAll bs
    | .error e => (.error e, w)
  | .elsewhere f => (.ok (), { w with memory := f w.memory })

/-- What there is after operations, from an empty table on. -/
def perform (m : Memory σ) (ops : List (Operation σ)) : Watched σ :=
  ops.foldl (fun w op => (w.act op).2) { memory := m }

def Operation.methods : Operation σ → List MethodId
  | define b => [b.method]
  | defineIntrinsic id _ _ => [id]
  | commit b => [b.method]
  | loadModule src =>
    match Assembly.bodies src.toList with
    | .ok bs => bs.map Body.method
    | .error _ => []
  | _ => []

/-- Why an operation fails without having done anything. -/
inductive Failure (w : Watched σ) : Operation σ → Error → Prop
  | define {b : Body} {e : Error} (rejected : b.verify = .error e) : Failure w (.define b) e
  | load {id : MethodId} {e : Error} (missing : w.table.load id = .error e) : Failure w (.load id) e
  | commit {b : Body} {e : Error} (refused : w.table.Refusal b e) : Failure w (.commit b) e
  | unreadable {src : String} {e : Error} (unreadable : Assembly.bodies src.toList = .error e) :
      Failure w (.loadModule src) e

end Watched

/-! ### Hooks that keep to some methods -/

/-- A visit commits bodies of certain methods only. What it loads is the body of the method that it asked for. -/
def Visit.Within (S : MethodId → Prop) : Visit σ → Prop
  | done _ => True
  | load id next => ∀ r, (∀ b, r = .ok b → b.method = id) → (next r).Within S
  | commit b next => S b.method ∧ ∀ r, (next r).Within S

theorem Visit.within_true (v : Visit σ) : v.Within fun _ => True := by
  induction v with
  | done m => exact trivial
  | load id next ih => exact fun r _ => ih r
  | commit b next ih => exact ⟨trivial, ih⟩

theorem Visit.Within.mono {S S' : MethodId → Prop} (hS : ∀ id, S id → S' id) {v : Visit σ} (h : v.Within S) :
    v.Within S' := by
  induction v with
  | done m => exact trivial
  | load id next ih => exact fun r hr => ih r (h r hr)
  | commit b next ih => exact ⟨hS _ h.1, fun r => ih r (h.2 r)⟩

/-- A hook commits bodies of certain methods only when it is told of one of them. -/
def Watcher.Within (S : MethodId → Prop) : Watcher σ → Prop
  | registry => True
  | visitor visit => ∀ id, S id → ∀ m, (visit id m).Within S

/-- A hook commits only bodies of the method that it is told of. -/
def Watcher.Keeps (x : Watcher σ) : Prop := ∀ id, x.Within (· = id)

theorem Watcher.Keeps.within {x : Watcher σ} (h : x.Keeps) (S : MethodId → Prop) : x.Within S := by
  cases x with
  | registry => exact trivial
  | visitor visit => exact fun id hid m => (h id id rfl m).mono fun other hother => hother ▸ hid

theorem Watcher.within_true (x : Watcher σ) : x.Within fun _ => True := by
  cases x with
  | registry => exact trivial
  | visitor visit => exact fun id _ m => (visit id m).within_true

namespace Watched

variable {w w' w'' : Watched σ} {b : Body} {id : MethodId} {S : MethodId → Prop} {x : Watcher σ} {e : Error}

/-! ### Steps -/

/-- One table comes from another in steps, each of which puts something in place of a method in `S`. -/
inductive Leads (S : MethodId → Prop) (w : Watched σ) : Watched σ → Prop
  | refl : Leads S w w
  | put {w' : Watched σ} {b : Body} (before : Leads S w w') (mem : S b.method) (verified : b.verify = .ok ()) :
      Leads S w (w'.set (w'.table.put b))
  | storeIntrinsic {w' : Watched σ} {id : MethodId} (before : Leads S w w') (mem : S id) (s : Signature) (n : Native) :
      Leads S w (w'.set (w'.table.storeIntrinsic id s n))
  | keep {w' : Watched σ} (before : Leads S w w') : Leads S w (w'.set w'.table)
  | note {w' : Watched σ} (before : Leads S w w') (ids : List MethodId) (m : Memory σ) :
      Leads S w { w' with told := ids, memory := m }

theorem Leads.trans (h : Leads S w w') (h' : Leads S w' w'') : Leads S w w'' := by
  induction h' with
  | refl => exact h
  | put _ mem verified ih => exact ih.put mem verified
  | storeIntrinsic _ mem s n ih => exact ih.storeIntrinsic mem s n
  | keep _ ih => exact ih.keep
  | note _ ids m ih => exact ih.note ids m

theorem Leads.watchers (h : Leads S w w') : w'.watchers = w.watchers := by
  induction h with
  | refl => rfl
  | put _ _ _ ih => exact ih
  | storeIntrinsic _ _ _ _ ih => exact ih
  | keep _ ih => exact ih
  | note _ _ _ ih => exact ih

theorem Leads.sound (h : Leads S w w') (hw : w.table.Sound) : w'.table.Sound := by
  induction h with
  | refl => exact hw
  | put _ _ _ ih => exact ih.put _
  | storeIntrinsic _ _ s n ih => exact ih.storeIntrinsic _ s n
  | keep _ ih => exact ih
  | note _ _ _ ih => exact ih

theorem Leads.intact (h : Leads S w w') (hw : ∀ t ∈ w.tables, t.Intact) : ∀ t ∈ w'.tables, t.Intact := by
  induction h with
  | refl => exact hw
  | put _ _ verified ih => exact List.forall_mem_cons.2 ⟨(ih _ List.mem_cons_self).put verified, ih⟩
  | storeIntrinsic _ _ s n ih => exact List.forall_mem_cons.2 ⟨(ih _ List.mem_cons_self).storeIntrinsic _ s n, ih⟩
  | keep _ ih => exact List.forall_mem_cons.2 ⟨ih _ List.mem_cons_self, ih⟩
  | note _ _ _ ih => exact ih

theorem Leads.get?_eq (h : Leads S w w') (hid : ¬ S id) : w'.table.get? id = w.table.get? id := by
  induction h with
  | refl => rfl
  | put _ mem _ ih =>
    rw [← ih]
    refine MethodTable.get?_put_of_ne _ fun heq => hid ?_
    rwa [heq]
  | storeIntrinsic _ mem s n ih =>
    rw [← ih]
    refine MethodTable.get?_storeIntrinsic_of_ne _ (fun heq => hid ?_) s n
    rwa [heq]
  | keep _ ih => exact ih
  | note _ _ _ ih => exact ih

/-! ### Operations are made of steps -/

theorem leads_run {v : Visit σ} (hv : v.Within S) (hw : w.table.Sound) : Leads S w (v.run w) := by
  induction v generalizing w with
  | done m => exact Leads.refl.note w.told m
  | load id next ih =>
    -- bodies stand under their own names, so that the hook gets a body of the method it asks for
    exact ih _ (hv _ fun b hb => hw.named (MethodTable.body_eq_ok.1 hb)) hw
  | commit b next ih =>
    unfold Visit.run
    cases hcommit : w.table.commit b with
    | error e => exact ih _ (hv.2 _) hw
    | ok t =>
      obtain ⟨-, -, verified, -, rfl⟩ := MethodTable.commit_eq_ok.1 hcommit
      exact (Leads.refl.put hv.1 verified).trans (ih _ (hv.2 _) (hw.put b))

theorem leads_tell (hx : x.Within S) (hid : S id) (hw : w.table.Sound) : Leads S w (w.tell id x) := by
  cases x with
  | registry =>
    have hset : Leads S w (w.set (w.world.applyTo id).2.table) := by
      rcases World.table_applyTo w.world id with h | ⟨live, b, hlive, hstable, hcommit⟩
      · rw [h]
        exact Leads.refl.keep
      · obtain ⟨-, -, verified, -, h⟩ := MethodTable.commit_eq_ok.1 hcommit
        have hmethod : b.method = id := hstable (Body.stable_method id) (hw.named hlive)
        rw [h]
        exact Leads.refl.put (hmethod ▸ hid) verified
    exact hset.note (id :: w.told) _
  | visitor visit => exact (Leads.refl.note (id :: w.told) w.memory).trans (leads_run (hx id hid w.memory) hw)

theorem leads_notify (hxs : ∀ x ∈ w.watchers, x.Within S) (hid : S id) (hw : w.table.Sound) :
    Leads S w (w.notify id) := by
  unfold notify
  generalize w.watchers = xs at hxs
  induction xs generalizing w with
  | nil => exact .refl
  | cons x xs ih =>
    obtain ⟨hx, hxs⟩ := List.forall_mem_cons.1 hxs
    have htell := leads_tell hx hid hw
    exact htell.trans (ih (htell.sound hw) hxs)

theorem leads_define (hxs : ∀ x ∈ w.watchers, x.Within S) (hb : S b.method) (hw : w.table.Sound)
    (h : w.define b = .ok w') : Leads S w w' := by
  obtain ⟨t, ht, rfl⟩ := map_eq_ok.1 h
  obtain ⟨verified, rfl⟩ := MethodTable.store_eq_ok.1 ht
  exact (Leads.refl.put hb verified).trans (leads_notify hxs hb (hw.put b))

theorem leads_defineAll {bs : List Body} (hxs : ∀ x ∈ w.watchers, x.Within S) (hbs : ∀ b ∈ bs, S b.method)
    (hw : w.table.Sound) : Leads S w (w.defineAll bs).2 := by
  induction bs generalizing w with
  | nil => exact .refl
  | cons b bs ih =>
    obtain ⟨hb, hbs⟩ := List.forall_mem_cons.1 hbs
    unfold defineAll
    cases hdefine : w.define b with
    | error e => exact .refl
    | ok w' =>
      have hlead := leads_define hxs hb hw hdefine
      exact hlead.trans (ih (hlead.watchers ▸ hxs) hbs (hlead.sound hw))

/-- All operations but the subscription of hooks are made of steps on their methods. -/
theorem leads_act {op : Operation σ} (hop : ∀ x, op ≠ .subscribe x) (hxs : ∀ x ∈ w.watchers, x.Within S)
    (hS : ∀ id ∈ op.methods, S id) (hw : w.table.Sound) : Leads S w (w.act op).2 := by
  cases op with
  | define b =>
    rcases hdefine : w.define b with e | w'
    · simp only [act, hdefine]
      exact .refl
    · simp only [act, hdefine]
      exact leads_define hxs (hS _ List.mem_cons_self) hw hdefine
  | defineIntrinsic id s n =>
    have hid := hS _ List.mem_cons_self
    exact (Leads.refl.storeIntrinsic hid s n).trans (leads_notify hxs hid (hw.storeIntrinsic id s n))
  | subscribe x => exact absurd rfl (hop x)
  | load id => exact .refl
  | commit b =>
    rcases hcommit : w.table.commit b with e | t
    · simp only [act, hcommit]
      exact .refl
    · simp only [act, hcommit]
      obtain ⟨-, -, verified, -, rfl⟩ := MethodTable.commit_eq_ok.1 hcommit
      exact Leads.refl.put (hS _ List.mem_cons_self) verified
  | loadModule src =>
    rcases hbodies : Assembly.bodies src.toList with e | bs
    · simp only [act, hbodies]
      exact .refl
    · simp only [act, hbodies]
      simp only [Operation.methods, hbodies] at hS
      exact leads_defineAll hxs (fun b hb => hS _ (List.mem_map_of_mem hb)) hw
  | elsewhere f => exact Leads.refl.note w.told _

/-! ### Operations that fail -/

theorem define_eq_error : w.define b = .error e ↔ b.verify = .error e := by
  rw [← MethodTable.store_eq_error (t := w.table), define]
  cases w.table.store b with
  | error e' =>
    show (Except.error e' : Except Error (Watched σ)) = .error e ↔ _
    rw [Except.error.injEq, Except.error.injEq]
  | ok t => exact ⟨nofun, nofun⟩

/-- If a body of a list is rejected, the bodies before it have been defined. -/
theorem defineAll_eq_error {bs : List Body} (h : (w.defineAll bs).1 = .error e) :
    ∃ before b after, bs = before ++ b :: after ∧ b.verify = .error e ∧
      (w.defineAll bs).2 = (before.map .define).foldl (fun w op => (w.act op).2) w := by
  induction bs generalizing w with
  | nil => cases h
  | cons b bs ih =>
    rcases hdefine : w.define b with e' | w'
    · simp only [defineAll, hdefine] at h ⊢
      obtain rfl := Except.error.inj h
      exact ⟨[], b, bs, rfl, define_eq_error.1 hdefine, rfl⟩
    · simp only [defineAll, hdefine] at h ⊢
      obtain ⟨before, c, after, rfl, hc, hw⟩ := ih h
      refine ⟨b :: before, c, after, rfl, hc, ?_⟩
      rw [hw, List.map_cons, List.foldl_cons]
      simp only [act, hdefine]

theorem act_of_failure {op : Operation σ} (h : w.Failure op e) : w.act op = (.error e, w) := by
  cases h with
  | define rejected => simp only [act, define_eq_error.2 rejected]
  | load missing => simp only [act, missing, Except.map]
  | commit refused => simp only [act, MethodTable.commit_eq_error.2 refused]
  | unreadable unreadable => simp only [act, unreadable]

/-- An operation fails for one of the reasons, or it is on a text with a method that is rejected; then the methods
before this one are defined. -/
theorem act_eq_error {op : Operation σ} (h : (w.act op).1 = .error e) :
    w.Failure op e ∨
    ∃ src before b after, op = .loadModule src ∧ Assembly.bodies src.toList = .ok (before ++ b :: after) ∧
      b.verify = .error e ∧ (w.act op).2 = (before.map .define).foldl (fun w op => (w.act op).2) w := by
  cases op with
  | define b =>
    rcases hdefine : w.define b with e' | w'
    · simp only [act, hdefine] at h
      obtain rfl := Except.error.inj h
      exact .inl (.define (define_eq_error.1 hdefine))
    · simp only [act, hdefine] at h
      cases h
  | defineIntrinsic id s n => cases h
  | subscribe x => cases h
  | load id =>
    rcases hload : w.table.load id with e' | b
    · simp only [act, hload, Except.map] at h
      obtain rfl := Except.error.inj h
      exact .inl (.load hload)
    · simp only [act, hload, Except.map] at h
      cases h
  | commit b =>
    rcases hcommit : w.table.commit b with e' | t
    · simp only [act, hcommit] at h
      obtain rfl := Except.error.inj h
      exact .inl (.commit (MethodTable.commit_eq_error.1 hcommit))
    · simp only [act, hcommit] at h
      cases h
  | loadModule src =>
    rcases hbodies : Assembly.bodies src.toList with e' | bs
    · simp only [act, hbodies] at h
      obtain rfl := Except.error.inj h
      exact .inl (.unreadable hbodies)
    · simp only [act, hbodies] at h ⊢
      obtain ⟨before, b, after, rfl, hb, hw⟩ := defineAll_eq_error h
      exact .inr ⟨src, before, b, after, rfl, hbodies, hb, hw⟩
  | elsewhere f => cases h

/-! ### Hosts -/

/-- The hook of a host as one of a table whose hooks take notes of what they could load. -/
def hookOf : Hook → Watcher (List Event)
  | .registry => .registry
  | .recorder tag => .visitor fun id m => .load id fun r => .done { m with notes := m.notes ++ [⟨tag, id, r⟩] }

theorem keeps_hookOf (hook : Hook) : (hookOf hook).Keeps := by
  cases hook with
  | registry => exact fun _ => trivial
  | recorder tag => exact fun _ _ _ _ _ _ => trivial

/-- A host is a table with hooks. -/
structure Shows (w : Watched (List Event)) (h : Host) : Prop where
  table : w.table = h.world.table
  watchers : w.watchers = h.hooks.map hookOf
  memory : w.memory = ⟨h.world.registry, h.world.providers, h.events⟩

variable {v v' : Watched (List Event)} {h h' : Host}

theorem Shows.world (hv : v.Shows h) : v.world = h.world := by
  rw [Watched.world, hv.table, hv.memory]

theorem Shows.keeps (hv : v.Shows h) : ∀ x ∈ v.watchers, x.Keeps := by
  intro x hx
  rw [hv.watchers] at hx
  obtain ⟨hook, -, rfl⟩ := List.mem_map.1 hx
  exact keeps_hookOf hook

theorem Shows.withTable (hv : v.Shows h) (t : MethodTable) : (v.set t).Shows (h.withTable t) :=
  ⟨rfl, hv.watchers, hv.memory⟩

theorem Shows.subscribe (hv : v.Shows h) (hook : Hook) :
    (v.act (.subscribe (hookOf hook))).2.Shows (h.subscribe hook) := by
  refine ⟨hv.table, ?_, hv.memory⟩
  show v.watchers ++ [hookOf hook] = (h.hooks ++ [hook]).map hookOf
  rw [hv.watchers, List.map_append, List.map_singleton]

theorem Shows.tell (hv : v.Shows h) (id : MethodId) (hook : Hook) :
    (v.tell id (hookOf hook)).Shows (h.tell id hook) := by
  cases hook with
  | registry =>
    refine ⟨?_, hv.watchers, ?_⟩
    · show (v.world.applyTo id).2.table = (h.world.applyTo id).2.table
      rw [hv.world]
    · show Memory.mk (v.world.applyTo id).2.registry (v.world.applyTo id).2.providers v.memory.notes =
        ⟨(h.world.applyTo id).2.registry, (h.world.applyTo id).2.providers, h.events⟩
      rw [hv.world, hv.memory]
  | recorder tag =>
    refine ⟨hv.table, hv.watchers, ?_⟩
    show { v.memory with notes := v.memory.notes ++ [⟨tag, id, v.table.load id⟩] } =
      Memory.mk h.world.registry h.world.providers (h.events ++ [⟨tag, id, h.world.table.load id⟩])
    rw [hv.memory, hv.table]

theorem Shows.notify (hv : v.Shows h) (id : MethodId) : (v.notify id).Shows (h.notify id) := by
  unfold Watched.notify Host.notify
  rw [hv.watchers]
  generalize h.hooks = hooks
  induction hooks generalizing v h with
  | nil => exact hv
  | cons hook hooks ih => exact ih (hv.tell id hook)

theorem Shows.defineIntrinsic (hv : v.Shows h) (id : MethodId) (s : Signature) (n : Native) :
    (v.act (.defineIntrinsic id s n)).2.Shows (h.defineIntrinsic id s n) := by
  show ((v.set (v.table.storeIntrinsic id s n)).notify id).Shows (h.defineIntrinsic id s n)
  rw [hv.table]
  exact (hv.withTable _).notify id

private theorem Shows.exists_define (hv : v.Shows h) (hd : h.define b = .ok h') :
    ∃ v', v.define b = .ok v' ∧ v'.Shows h' := by
  obtain ⟨t, ht, rfl⟩ := map_eq_ok.1 hd
  rw [← hv.table] at ht
  exact ⟨_, map_eq_ok.2 ⟨t, ht, rfl⟩, (hv.withTable t).notify b.method⟩

theorem Shows.define (hv : v.Shows h) (hd : h.define b = .ok h') : (v.act (.define b)).2.Shows h' := by
  obtain ⟨v', hv', hshows⟩ := hv.exists_define hd
  simpa only [act, hv'] using hshows

theorem Shows.commit (hv : v.Shows h) (hc : h.commit b = .ok h') : (v.act (.commit b)).2.Shows h' := by
  obtain ⟨t, ht, rfl⟩ := map_eq_ok.1 hc
  rw [← hv.table] at ht
  simp only [act, ht]
  exact hv.withTable t

theorem Shows.defineAll (hv : v.Shows h) (bs : List Body) :
    (v.defineAll bs).1 = (h.defineAll bs).1 ∧ (v.defineAll bs).2.Shows (h.defineAll bs).2 := by
  induction bs generalizing v h with
  | nil => exact ⟨rfl, hv⟩
  | cons b bs ih =>
    rcases hdefine : h.define b with e | h'
    · have hstore := map_eq_error.1 hdefine
      rw [← hv.table] at hstore
      have hv' : v.define b = .error e := map_eq_error.2 hstore
      simpa only [Watched.defineAll, Host.defineAll, hdefine, hv', true_and] using hv
    · obtain ⟨v', hv', hshows⟩ := hv.exists_define hdefine
      simp only [Watched.defineAll, Host.defineAll, hdefine, hv']
      exact ih hshows

theorem Shows.loadModule (hv : v.Shows h) (src : String) :
    (v.act (.loadModule src)).1 = (h.loadModule src).1.map (fun _ => ()) ∧
      (v.act (.loadModule src)).2.Shows (h.loadModule src).2 := by
  rcases hbodies : Assembly.bodies src.toList with e | bs
  · simp only [act, Host.loadModule, hbodies]
    exact ⟨rfl, hv⟩
  · obtain ⟨hresult, hshows⟩ := hv.defineAll bs
    simp only [act, Host.loadModule, hbodies]
    refine ⟨?_, hshows⟩
    rw [hresult]
    cases (h.defineAll bs).1 with
    | error e => rfl
    | ok u => rfl

/-- What is done with the table of a host. -/
inductive Call where
  | define (b : Body)
  | defineIntrinsic (id : MethodId) (s : Signature) (n : Native)
  | subscribe (hook : Hook)
  | commit (b : Body)
  | loadModule (src : String)

/-- The host after a call. A definition or a commit that fails changes nothing. -/
def Call.perform (h : Host) : Call → Host
  | define b => (h.define b).toOption.getD h
  | defineIntrinsic id s n => h.defineIntrinsic id s n
  | subscribe hook => h.subscribe hook
  | commit b => (h.commit b).toOption.getD h
  | loadModule src => (h.loadModule src).2

def Call.operation : Call → Operation (List Event)
  | define b => .define b
  | defineIntrinsic id s n => .defineIntrinsic id s n
  | subscribe hook => .subscribe (hookOf hook)
  | commit b => .commit b
  | loadModule src => .loadModule src

theorem Shows.call (hv : v.Shows h) (c : Call) : (v.act c.operation).2.Shows (c.perform h) := by
  cases c with
  | define b =>
    rcases hdefine : h.define b with e | h'
    · have hstore : h.world.table.store b = .error e := map_eq_error.1 hdefine
      have hfailure : v.Failure (.define b) e := .define (MethodTable.store_eq_error.1 hstore)
      rw [Call.operation, act_of_failure hfailure, Call.perform, hdefine]
      exact hv
    · rw [Call.perform, hdefine]
      exact hv.define hdefine
  | defineIntrinsic id s n => exact hv.defineIntrinsic id s n
  | subscribe hook => exact hv.subscribe hook
  | commit b =>
    rcases hcommit : h.commit b with e | h'
    · have hfailure : v.Failure (.commit b) e := by
        refine .commit (MethodTable.commit_eq_error.1 ?_)
        rw [hv.table]
        exact map_eq_error.1 hcommit
      rw [Call.operation, act_of_failure hfailure, Call.perform, hcommit]
      exact hv
    · rw [Call.perform, hcommit]
      exact hv.commit hcommit
  | loadModule src => exact (hv.loadModule src).2

/-- A host stays a table with hooks, whatever is done with its table. -/
theorem Shows.calls (hv : v.Shows h) (cs : List Call) :
    ((cs.map Call.operation).foldl (fun w op => (w.act op).2) v).Shows (cs.foldl Call.perform h) := by
  induction cs generalizing v h with
  | nil => exact hv
  | cons c cs ih => exact ih (hv.call c)

/-! ### The invariant -/

theorem intact_act (hw : ∀ t ∈ w.tables, t.Intact) (op : Operation σ) : ∀ t ∈ (w.act op).2.tables, t.Intact := by
  by_cases hop : ∃ x, op = .subscribe x
  · obtain ⟨x, rfl⟩ := hop
    exact hw
  · have hlead := leads_act (S := fun _ => True) (fun x h => hop ⟨x, h⟩) (fun x _ => x.within_true) (fun _ _ => trivial)
      (hw _ List.mem_cons_self).toSound
    exact hlead.intact hw

private theorem intact_perform (m : Memory σ) (ops : List (Operation σ)) : ∀ t ∈ (perform m ops).tables, t.Intact := by
  have hfold (w : Watched σ) (hw : ∀ t ∈ w.tables, t.Intact) :
      ∀ t ∈ (ops.foldl (fun w op => (w.act op).2) w).tables, t.Intact := by
    induction ops generalizing w with
    | nil => exact hw
    | cons op ops ih => exact ih _ (intact_act hw op)
  exact hfold _ (List.forall_mem_singleton.2 MethodTable.intact_empty)

/-- The table of a host is intact, whatever patches its registry applies meanwhile. -/
theorem intact_calls (r : Registry) (p : Providers) (cs : List Call) :
    (cs.foldl Call.perform { world := { registry := r, providers := p } }).world.table.Intact := by
  have hstart : Shows { memory := ⟨r, p, []⟩ } { world := { registry := r, providers := p } } := ⟨rfl, rfl, rfl⟩
  rw [← (hstart.calls cs).table]
  exact intact_perform ⟨r, p, []⟩ (cs.map Call.operation) _ List.mem_cons_self

/-- Whatever operations are done on a table, and whatever its hooks do meanwhile, all tables that there are on the way
are intact. An operation fails for one of certain reasons and then does nothing, not even tell the hooks; only of a text
are the methods before one that is rejected defined all the same. If all hooks keep to the method that they are told of,
as the registry does, then no operation changes an entry of another method than its own. -/
theorem perform_intact (m : Memory σ) (ops : List (Operation σ)) :
    (∀ t ∈ (perform m ops).tables, t.Intact) ∧
    (∀ op e, (perform m ops).Failure op e → (perform m ops).act op = (.error e, perform m ops)) ∧
    (∀ op e, ((perform m ops).act op).1 = .error e → (perform m ops).Failure op e ∨
      ∃ src before b after, op = .loadModule src ∧ Assembly.bodies src.toList = .ok (before ++ b :: after) ∧
        b.verify = .error e ∧ ((perform m ops).act op).2 = perform m (ops ++ before.map .define)) ∧
    ∀ op id, (∀ x ∈ (perform m ops).watchers, x.Keeps) → id ∉ op.methods →
      ((perform m ops).act op).2.table.get? id = (perform m ops).table.get? id := by
  refine ⟨intact_perform m ops, fun op e => act_of_failure, fun op e h => ?_, fun op id hkeeps hid => ?_⟩
  · rcases act_eq_error h with hfailure | ⟨src, before, b, after, hop, hbodies, hb, hw⟩
    · exact .inl hfailure
    · refine .inr ⟨src, before, b, after, hop, hbodies, hb, ?_⟩
      rw [hw, perform, perform, List.foldl_append]
  · by_cases hop : ∃ x, op = .subscribe x
    · obtain ⟨x, rfl⟩ := hop
      rfl
    · have hlead := leads_act (fun x h => hop ⟨x, h⟩) (fun x hx => (hkeeps x hx).within (· ∈ op.methods)) (fun _ h => h)
        (intact_perform m ops _ List.mem_cons_self).toSound
      exact hlead.get?_eq hid

/-- A host with a script for a method, which inserts an instruction that does nothing. The registry and a recorder are
told of methods. -/
def padder : Host where
  world := { registry := (Registry.register {} Workshop.five.method "pad" (.script [⟨.insert ⟨.nop, []⟩, false⟩])).2 }
  hooks := [.registry, .recorder "seen"]

/-- The method is defined when both are subscribed. -/
def padded : Watched (List Event) :=
  perform { registry := padder.world.registry, notes := [] }
    [.subscribe (hookOf .registry), .subscribe (hookOf (.recorder "seen")), .define Workshop.five]

theorem perform_intact_padded : (∃ h, padder.define Workshop.five = .ok h ∧ padded.Shows h ∧ h.world.table.Intact) ∧
    padded.act (.commit { Workshop.five with revision := some 1 }) = (.error (.stale Workshop.five.method), padded) ∧
    (padded.act (.defineIntrinsic ⟨"A", "other"⟩ ⟨[], [], none⟩ .divideByZero)).2.table.get? Workshop.five.method =
      padded.table.get? Workshop.five.method := by
  obtain ⟨hintact, hfailure, -, hother⟩ := perform_intact { registry := padder.world.registry, notes := [] }
    [.subscribe (hookOf .registry), .subscribe (hookOf (.recorder "seen")), .define Workshop.five]
  obtain ⟨h, hdefine⟩ : ∃ h, padder.define Workshop.five = .ok h := ⟨_, map_eq_ok.2 ⟨_, MethodTable.store_eq_ok.2
    ⟨if_pos (by decide +kernel), rfl⟩, rfl⟩⟩
  have hshows : padded.Shows h := by
    have hstart : Shows { memory := ⟨padder.world.registry, {}, []⟩ } { padder with hooks := [] } := ⟨rfl, rfl, rfl⟩
    exact ((hstart.subscribe .registry).subscribe (.recorder "seen")).define hdefine
  -- the registry has committed the second revision while the first was being defined
  have hrevision : (padded.table.body Workshop.five.method).toOption.bind Body.revision = some 2 := by
    decide +kernel
  refine ⟨⟨h, hdefine, hshows, hshows.table ▸ hintact _ List.mem_cons_self⟩, hfailure _ _ (.commit ?_),
    hother _ _ hshows.keeps (by decide)⟩
  cases hbody : padded.table.body Workshop.five.method with
  | error e =>
    rw [hbody] at hrevision
    cases hrevision
  | ok live =>
    rw [hbody] at hrevision
    refine .stale (MethodTable.body_eq_ok.1 hbody) (if_pos (by decide +kernel)) ?_
    rw [MethodTable.isStale, show live.revision = some 2 from hrevision]
    rfl

end Watched

end Graft
