import Graft.Proofs.Cursor.Stability
import Graft.Proofs.Host.MethodTable
import Mathlib.Data.Nat.Init
import Mathlib.Logic.Function.Basic

/-!
# Working copies

Working copies of live bodies are loaded, edited and committed in any order, and methods are defined in between. No
commit undoes a change that was made after its copy was loaded (`Workshop.commit_of_loaded`).

* `Workshop` is a method table with working copies, `Workshop.act` what one action does, and `Workshop.moment` what
  there is after a number of actions.
* `Replaced` says that an action puts something else in place of a method, and `Loaded` that a copy is the one that an
  action has loaded.
* `entry_of_replaced` says why a replaced body never comes back: from then on the live body has a later revision.
-/

namespace Graft

/-! ### Edits of a copy -/

/-- An edit of a body: one of the operations on bodies, or a script at a cursor with sources that it may bind. -/
inductive Edit where
  | push (i : Instruction)
  | insert (pos : Nat) (i : Instruction)
  | erase (pos : Nat)
  | retarget (source target : InstrId)
  | retargetOnly (ids : List InstrId) (source target : InstrId)
  | bind (x : Binding)
  | script (providers : Providers) (ss : Script)

/-- The body after an edit. An operation that fails leaves it as it was, and a script leaves what was done before. -/
def Edit.apply (b : Body) : Edit → Body
  | push i => b.push i
  | insert pos i =>
    match b.insert pos i with
    | .ok b => b
    | .error _ => b
  | erase pos =>
    match b.erase pos with
    | .ok (_, b) => b
    | .error _ => b
  | retarget source target => b.retarget source target
  | retargetOnly ids source target => b.retargetOnly ids source target
  | bind x =>
    match b.bind x with
    | .ok (_, b) => b
    | .error _ => b
  | script providers ss => (Script.run ⟨{ body := b }, providers⟩ ss).2.cursor.body

theorem Body.Stable.apply {P : Body → Prop} (hP : Body.Stable P) {b : Body} (hb : P b) (e : Edit) : P (e.apply b) := by
  cases e with
  | push i =>
    refine hP.insert (i := i) hb (Body.insert_ok_iff.2 ⟨Nat.le_refl b.length, ?_⟩)
    rw [Edit.apply, Body.push, Body.length, List.insertIdx_length_self]
  | insert pos i =>
    unfold Edit.apply
    dsimp only
    split
    · exact hP.insert hb ‹_›
    · exact hb
  | erase pos =>
    unfold Edit.apply
    dsimp only
    split
    · exact hP.erase hb ‹_›
    · exact hb
  | retarget source target => exact hP.retarget source target hb
  | retargetOnly ids source target => exact hP.retargetOnly ids source target hb
  | bind x =>
    unfold Edit.apply
    dsimp only
    split
    · exact hP.bind hb ‹_›
    · exact hb
  | script providers ss => exact hP.script (d := ⟨{ body := b }, providers⟩) hb ss

/-! ### Actions -/

/-- A method table with working copies, each under a number. At first all of them are bodies without instructions. -/
structure Workshop where
  table : MethodTable := {}
  copies : Nat → Body := fun _ => default

namespace Workshop

inductive Action where
  | load (copy : Nat) (id : MethodId)
  /-- Make a body that is not the copy of a live one. -/
  | create (copy : Nat) (b : Body)
  | edit (copy : Nat) (e : Edit)
  /-- Put a working copy in place of the live body of its method. The copy stays. -/
  | commit (copy : Nat)
  | define (b : Body)
  | defineIntrinsic (id : MethodId) (s : Signature) (n : Native)

def setCopy (w : Workshop) (copy : Nat) (b : Body) : Workshop :=
  { w with copies := Function.update w.copies copy b }

/-- The workshop after an action that succeeds. -/
def act (w : Workshop) : Action → Except Error Workshop
  | .load copy id => (w.table.load id).map (w.setCopy copy)
  | .create copy b => .ok (w.setCopy copy { b with revision := none })
  | .edit copy e => .ok (w.setCopy copy (e.apply (w.copies copy)))
  | .commit copy => (w.table.commit (w.copies copy)).map fun t => { w with table := t }
  | .define b => (w.table.store b).map fun t => { w with table := t }
  | .defineIntrinsic id s n => .ok { w with table := w.table.storeIntrinsic id s n }

/-- The workshop after an action. One that fails changes nothing. -/
def next (w : Workshop) (a : Action) : Workshop :=
  match w.act a with
  | .ok w' => w'
  | .error _ => w

/-- The workshop after the first `k` of the actions. -/
def moment (as : List Action) (k : Nat) : Workshop := (as.take k).foldl next {}

/-- The method for which an action that succeeds puts in another body or an intrinsic method. -/
def Action.method? (w : Workshop) : Action → Option MethodId
  | commit copy => some (w.copies copy).method
  | define b => some b.method
  | defineIntrinsic id _ _ => some id
  | _ => none

/-- The copy for which an action that succeeds takes another body, rather than an edited one. -/
def Action.copy? : Action → Option Nat
  | load copy _ => some copy
  | create copy _ => some copy
  | _ => none

/-- The `k`-th action, counted from 0, is `a`, and it succeeds. -/
def Done (as : List Action) (k : Nat) (a : Action) : Prop := as[k]? = some a ∧ ∃ w, (moment as k).act a = .ok w

def Replaced (as : List Action) (id : MethodId) (k : Nat) : Prop :=
  ∃ a, Done as k a ∧ a.method? (moment as k) = some id

/-- The copy that there is before the `j`-th action was loaded from a method by the `i`-th, and has only been edited
since then. -/
structure Loaded (as : List Action) (copy : Nat) (id : MethodId) (i j : Nat) : Prop where
  done : Done as i (.load copy id)
  lt : i < j
  kept : ∀ k, i < k → k < j → ∀ a, Done as k a → a.copy? ≠ some copy

variable {w w' : Workshop} {a : Action} {as : List Action} {id : MethodId} {copy i j k : Nat} {b : Body}

/-! ### One action -/

/-- What an action does to the table: nothing, or it puts an entry for one method, a body with a new revision. -/
theorem table_act (h : w.act a = .ok w') :
    (a.method? w = none ∧ w'.table = w.table) ∨
    (∃ b, a.method? w = some b.method ∧ w'.table = w.table.put b) ∨
    ∃ id s n, a.method? w = some id ∧ w'.table = w.table.storeIntrinsic id s n := by
  cases a with
  | load copy id =>
    obtain ⟨b, -, rfl⟩ := map_eq_ok.1 h
    exact .inl ⟨rfl, rfl⟩
  | create copy b =>
    obtain rfl := Except.ok.inj h
    exact .inl ⟨rfl, rfl⟩
  | edit copy e =>
    obtain rfl := Except.ok.inj h
    exact .inl ⟨rfl, rfl⟩
  | commit copy =>
    obtain ⟨t, ht, rfl⟩ := map_eq_ok.1 h
    obtain ⟨-, -, -, -, rfl⟩ := MethodTable.commit_eq_ok.1 ht
    exact .inr (.inl ⟨w.copies copy, rfl, rfl⟩)
  | define b =>
    obtain ⟨t, ht, rfl⟩ := map_eq_ok.1 h
    obtain ⟨-, rfl⟩ := MethodTable.store_eq_ok.1 ht
    exact .inr (.inl ⟨b, rfl, rfl⟩)
  | defineIntrinsic id s n =>
    obtain rfl := Except.ok.inj h
    exact .inr (.inr ⟨id, s, n, rfl, rfl⟩)

/-- A copy for which no other body is taken is the same or an edited one. -/
theorem copies_act (h : w.act a = .ok w') (hcopy : a.copy? ≠ some copy) :
    w'.copies copy = w.copies copy ∨ ∃ e : Edit, w'.copies copy = e.apply (w.copies copy) := by
  cases a with
  | load other id =>
    obtain ⟨b, -, rfl⟩ := map_eq_ok.1 h
    exact .inl (Function.update_of_ne (fun heq => hcopy (congrArg some heq.symm)) ..)
  | create other b =>
    obtain rfl := Except.ok.inj h
    exact .inl (Function.update_of_ne (fun heq => hcopy (congrArg some heq.symm)) ..)
  | edit other e =>
    obtain rfl := Except.ok.inj h
    by_cases heq : copy = other
    · subst heq
      exact .inr ⟨e, Function.update_self ..⟩
    · exact .inl (Function.update_of_ne heq ..)
  | commit other =>
    obtain ⟨t, -, rfl⟩ := map_eq_ok.1 h
    exact .inl rfl
  | define b =>
    obtain ⟨t, -, rfl⟩ := map_eq_ok.1 h
    exact .inl rfl
  | defineIntrinsic id s n =>
    obtain rfl := Except.ok.inj h
    exact .inl rfl

/-! ### Any number of actions -/

theorem moment_succ (h : as[k]? = some a) : moment as (k + 1) = (moment as k).next a := by
  rw [moment, List.take_add_one, h, Option.toList_some, List.foldl_append]
  rfl

theorem moment_succ_of_none (h : as[k]? = none) : moment as (k + 1) = moment as k := by
  rw [moment, List.take_add_one, h, Option.toList_none, List.append_nil, moment]

/-- From one moment to the next an action is done, or everything stays as it is. -/
theorem moment_cases (as : List Action) (k : Nat) :
    (∃ a, Done as k a ∧ (moment as k).act a = .ok (moment as (k + 1))) ∨
    ((∀ a, ¬ Done as k a) ∧ moment as (k + 1) = moment as k) := by
  cases ha : as[k]? with
  | none =>
    refine .inr ⟨fun a hdone => ?_, moment_succ_of_none ha⟩
    cases ha.symm.trans hdone.1
  | some a =>
    rw [moment_succ ha, next]
    cases hact : (moment as k).act a with
    | ok w => exact .inl ⟨a, ⟨ha, w, hact⟩, hact⟩
    | error e =>
      refine .inr ⟨fun a' ⟨ha', w, hw⟩ => ?_, rfl⟩
      obtain rfl := Option.some.inj (ha.symm.trans ha')
      cases hact.symm.trans hw

theorem Done.act_eq (h : Done as k a) : (moment as k).act a = .ok (moment as (k + 1)) := by
  obtain ⟨ha, w, hw⟩ := h
  rw [moment_succ ha, next, hw]

theorem table_cases (as : List Action) (k : Nat) :
    ((∀ id, ¬ Replaced as id k) ∧ (moment as (k + 1)).table = (moment as k).table) ∨
    (∃ b, (∀ id, Replaced as id k ↔ id = b.method) ∧ (moment as (k + 1)).table = (moment as k).table.put b) ∨
    ∃ id' s n, (∀ id, Replaced as id k ↔ id = id') ∧
      (moment as (k + 1)).table = (moment as k).table.storeIntrinsic id' s n := by
  rcases moment_cases as k with ⟨a, hdone, hact⟩ | ⟨hnone, hsame⟩
  · have hreplaced (id : MethodId) : Replaced as id k ↔ a.method? (moment as k) = some id := by
      refine ⟨fun ⟨a', hdone', hmethod⟩ => ?_, fun hmethod => ⟨a, hdone, hmethod⟩⟩
      obtain rfl := Option.some.inj (hdone.1.symm.trans hdone'.1)
      exact hmethod
    rcases table_act hact with ⟨hmethod, htable⟩ | ⟨b, hmethod, htable⟩ | ⟨id', s, n, hmethod, htable⟩
    · refine .inl ⟨fun id hid => ?_, htable⟩
      cases hmethod.symm.trans ((hreplaced id).1 hid)
    · refine .inr (.inl ⟨b, fun id => ?_, htable⟩)
      rw [hreplaced, hmethod, Option.some.injEq, eq_comm]
    · refine .inr (.inr ⟨id', s, n, fun id => ?_, htable⟩)
      rw [hreplaced, hmethod, Option.some.injEq, eq_comm]
  · refine .inl ⟨fun id ⟨a, hdone, _⟩ => hnone a hdone, by rw [hsame]⟩

theorem sound_moment (as : List Action) (k : Nat) : (moment as k).table.Sound := by
  induction k with
  | zero => exact MethodTable.sound_empty
  | succ k ih =>
    rcases table_cases as k with ⟨-, htable⟩ | ⟨b, -, htable⟩ | ⟨id, s, n, -, htable⟩
    · rwa [htable]
    · rw [htable]
      exact ih.put b
    · rw [htable]
      exact ih.storeIntrinsic id s n

theorem entry_of_not_replaced (hij : i ≤ j) (h : ∀ k, i ≤ k → k < j → ¬ Replaced as id k) :
    (moment as j).table.get? id = (moment as i).table.get? id := by
  induction j, hij using Nat.le_induction with
  | base => rfl
  | succ j hij ih =>
    have hnot := h j hij (Nat.lt_succ_self j)
    rw [← ih fun k hk hkj => h k hk (Nat.lt_succ_of_lt hkj)]
    rcases table_cases as j with ⟨-, htable⟩ | ⟨b, hreplaced, htable⟩ | ⟨id', s, n, hreplaced, htable⟩
    · rw [htable]
    · rw [htable, MethodTable.get?_put_of_ne _ fun heq => hnot ((hreplaced id).2 heq)]
    · rw [htable, MethodTable.get?_storeIntrinsic_of_ne _ fun heq => hnot ((hreplaced id).2 heq)]

theorem revisions_le (as : List Action) (hij : i ≤ j) :
    (moment as i).table.revisions ≤ (moment as j).table.revisions := by
  induction j, hij using Nat.le_induction with
  | base => exact Nat.le_refl _
  | succ j hij ih =>
    refine Nat.le_trans ih ?_
    rcases table_cases as j with ⟨-, htable⟩ | ⟨b, -, htable⟩ | ⟨id, s, n, -, htable⟩
    · exact htable ▸ Nat.le_refl _
    · exact htable ▸ Nat.le_succ _
    · exact htable ▸ Nat.le_refl _

/-- Once an entry has been replaced, the live body has a revision that had not been given out before. -/
theorem entry_of_replaced (hij : i ≤ j) (hjk : j < k) (h : Replaced as id j)
    (hb : (moment as k).table.get? id = some (.managed b)) :
    ∃ r, b.revision = some r ∧ (moment as i).table.revisions < r := by
  induction k, hjk using Nat.le_induction with
  | base =>
    have hle := revisions_le as hij
    rcases table_cases as j with ⟨hnone, -⟩ | ⟨b', hreplaced, htable⟩ | ⟨id', s, n, hreplaced, htable⟩
    · exact absurd h (hnone id)
    · obtain rfl := (hreplaced id).1 h
      rw [htable, MethodTable.get?_put_self] at hb
      obtain rfl := Method.managed.inj (Option.some.inj hb)
      exact ⟨_, rfl, Nat.lt_succ_of_le hle⟩
    · obtain rfl := (hreplaced id).1 h
      rw [htable, MethodTable.get?_storeIntrinsic_self] at hb
      cases hb
  | succ k hjk ih =>
    -- another replacement gives out a still later revision
    have hle := revisions_le as (Nat.le_trans hij (Nat.le_of_succ_le hjk))
    rcases table_cases as k with ⟨-, htable⟩ | ⟨b', -, htable⟩ | ⟨id', s, n, -, htable⟩
    · exact ih (htable ▸ hb)
    · by_cases hid : id = b'.method
      · subst hid
        rw [htable, MethodTable.get?_put_self] at hb
        obtain rfl := Method.managed.inj (Option.some.inj hb)
        exact ⟨_, rfl, Nat.lt_succ_of_le hle⟩
      · rw [htable, MethodTable.get?_put_of_ne _ hid] at hb
        exact ih hb
    · rw [htable] at hb
      exact ih (MethodTable.get?_of_storeIntrinsic hb)

/-! ### Loaded copies -/

/-- The body that an action has loaded was live then. -/
theorem Done.load (h : Done as i (.load copy id)) : ∃ b, (moment as i).table.load id = .ok b ∧
    (moment as (i + 1)).copies copy = b := by
  obtain ⟨b, hload, hw⟩ := map_eq_ok.1 h.act_eq
  refine ⟨b, hload, ?_⟩
  rw [← hw]
  exact Function.update_self ..

/-- What no edit takes away from the body that was loaded, its copy has. -/
theorem Loaded.stable (h : Loaded as copy id i j) {P : Body → Prop} (hP : Body.Stable P)
    (hb : P ((moment as (i + 1)).copies copy)) : P ((moment as j).copies copy) := by
  obtain ⟨-, hlt, hkept⟩ := h
  -- since the load nothing but edits has been done to the copy
  induction j, hlt using Nat.le_induction with
  | base => exact hb
  | succ j hij ih =>
    have hold := ih fun k hik hkj => hkept k hik (Nat.lt_succ_of_lt hkj)
    rcases moment_cases as j with ⟨a, hdone, hact⟩ | ⟨-, hsame⟩
    · rcases copies_act hact (hkept j hij (Nat.lt_succ_self j) a hdone) with hcopy | ⟨e, hcopy⟩
      · rwa [hcopy]
      · rw [hcopy]
        exact hP.apply hold e
    · rwa [hsame]

/-- A loaded copy is that of a revision of its method. -/
theorem Loaded.revision (h : Loaded as copy id i j) : ∃ live r, (moment as i).table.get? id = some (.managed live) ∧
    live.revision = some r ∧ r ≤ (moment as i).table.revisions ∧
    ((moment as j).copies copy).method = id ∧ ((moment as j).copies copy).revision = some r := by
  obtain ⟨live, hload, hcopy⟩ := h.done.load
  have hlive := MethodTable.body_eq_ok.1 hload
  obtain ⟨r, hr, hle⟩ := (sound_moment as i).revised hlive
  refine ⟨live, r, hlive, hr, hle, h.stable (Body.stable_method id) ?_, h.stable (Body.stable_revision (some r)) ?_⟩
  · rw [hcopy]
    exact (sound_moment as i).named hlive
  · rw [hcopy]
    exact hr

private theorem Loaded.commit_done (h : Loaded as copy id i j) (hj : as[j]? = some (.commit copy))
    (hnot : ∀ k, i < k → k < j → ¬ Replaced as id k) (hverify : ((moment as j).copies copy).verify = .ok ()) :
    Done as j (.commit copy) := by
  obtain ⟨live, r, hlive, hr, -, hmethod, hrevision⟩ := h.revision
  have hload : ¬ Replaced as id i := by
    rintro ⟨a, hdone, hid⟩
    obtain rfl := Option.some.inj (h.done.1.symm.trans hdone.1)
    cases hid
  have hentry : (moment as j).table.get? ((moment as j).copies copy).method = some (.managed live) := by
    rw [hmethod, entry_of_not_replaced (Nat.le_of_lt h.lt), hlive]
    intro k hik hkj
    rcases Nat.eq_or_lt_of_le hik with rfl | hik
    · exact hload
    · exact hnot k hik hkj
  have hfresh : MethodTable.isStale live ((moment as j).copies copy) = false := by
    rw [MethodTable.isStale, hrevision, hr, bne_self_eq_false, Bool.and_false]
  exact ⟨hj, _, map_eq_ok.2 ⟨_, MethodTable.commit_eq_ok.2 ⟨live, hentry, hverify, hfresh, rfl⟩, rfl⟩⟩

/-- A commit that succeeds finds the body live that its copy was loaded from. -/
private theorem Loaded.entry_of_commit (h : Loaded as copy id i j) (hdone : Done as j (.commit copy)) :
    ∃ live r, (moment as j).table.get? id = some (.managed live) ∧ live.revision = some r ∧
      r ≤ (moment as i).table.revisions ∧ ((moment as j).copies copy).revision = some r := by
  obtain ⟨-, r, -, -, hle, hmethod, hrevision⟩ := h.revision
  obtain ⟨t, ht, -⟩ := map_eq_ok.1 hdone.act_eq
  obtain ⟨live, hlive, -, hstale, -⟩ := MethodTable.commit_eq_ok.1 ht
  refine ⟨live, r, hmethod ▸ hlive, ?_, hle, hrevision⟩
  rw [MethodTable.isStale, hrevision, Option.isSome_some, Bool.true_and, bne_eq_false_iff_eq] at hstale
  exact hstale.symm

/-- The entry of a method was not replaced between a load and a commit of the copy that succeeds. -/
private theorem Loaded.not_replaced (h : Loaded as copy id i j) (hdone : Done as j (.commit copy)) (hik : i ≤ k)
    (hkj : k < j) : ¬ Replaced as id k := by
  intro hreplaced
  obtain ⟨live, r, hlive, hr, hle, -⟩ := h.entry_of_commit hdone
  obtain ⟨r', hr', hlt⟩ := entry_of_replaced hik hkj hreplaced hlive
  obtain rfl := Option.some.inj (hr.symm.trans hr')
  omega

/-- Of two copies that were loaded from one live body, only one can be committed. -/
private theorem Loaded.not_both {copy' i' j' : Nat} (h : Loaded as copy id i j) (h' : Loaded as copy' id i' j')
    (hsame : (moment as i).table.load id = (moment as i').table.load id) (hdone : Done as j (.commit copy))
    (hdone' : Done as j' (.commit copy')) : ¬ j < j' := by
  intro hlt
  obtain ⟨live, r, hlive, hr, hle, hmethod, -⟩ := h.revision
  obtain ⟨live', r', hlive', hr', -, -, -⟩ := h'.revision
  obtain rfl : live = live' := by
    rw [MethodTable.load, MethodTable.load, MethodTable.body_eq_ok.2 hlive, MethodTable.body_eq_ok.2 hlive'] at hsame
    exact Except.ok.inj hsame
  have hreplaced : Replaced as id j := ⟨_, hdone, congrArg some hmethod⟩
  rcases Nat.lt_or_ge j i' with hji | hij
  · -- the second copy was loaded after the commit, when the body was another one
    obtain ⟨r'', hr'', hgt⟩ := entry_of_replaced (Nat.le_of_lt h.lt) hji hreplaced hlive'
    obtain rfl := Option.some.inj (hr.symm.trans hr'')
    omega
  · exact h'.not_replaced hdone' hij hlt hreplaced

/-- A working copy can be committed only if nothing was put in place of its method since it was loaded. If nothing was,
and the copy passes verification, the commit succeeds and makes it the live body. So no two commits of copies that were
loaded from one live body succeed, be they of two copies or of the same one. -/
theorem commit_of_loaded (h : Loaded as copy id i j) :
    (Done as j (.commit copy) → ∀ k, i < k → k < j → ¬ Replaced as id k) ∧
    (as[j]? = some (.commit copy) → (∀ k, i < k → k < j → ¬ Replaced as id k) →
      ((moment as j).copies copy).verify = .ok () →
      Done as j (.commit copy) ∧ ∃ r, (moment as (j + 1)).table.body id =
        .ok { (moment as j).copies copy with revision := some r }) ∧
    ∀ copy' i' j', Loaded as copy' id i' j' → (moment as i).table.load id = (moment as i').table.load id →
      Done as j (.commit copy) → Done as j' (.commit copy') → j = j' := by
  refine ⟨fun hdone k hik hkj => h.not_replaced hdone (Nat.le_of_lt hik) hkj, fun hj hnot hverify => ?_, ?_⟩
  · have hdone := h.commit_done hj hnot hverify
    obtain ⟨t, ht, hnext⟩ := map_eq_ok.1 hdone.act_eq
    obtain ⟨-, -, -, -, rfl⟩ := MethodTable.commit_eq_ok.1 ht
    obtain ⟨-, -, -, -, -, hmethod, -⟩ := h.revision
    refine ⟨hdone, (moment as j).table.revisions + 1, MethodTable.body_eq_ok.2 ?_⟩
    rw [← hnext, ← hmethod]
    exact MethodTable.get?_put_self ..
  · intro copy' i' j' h' hsame hdone hdone'
    have hnot := h.not_both h' hsame hdone hdone'
    have hnot' := h'.not_both h hsame.symm hdone' hdone
    omega

private theorem done_of_toBool {x : Except Error Workshop} (h : x.toBool = true) : ∃ w, x = .ok w := by
  cases x with
  | ok w => exact ⟨w, rfl⟩
  | error e => cases h

def five : Body where
  method := ⟨"A", "five"⟩
  signature := ⟨[], [], some .i32⟩
  entries := [⟨⟨0⟩, .ldcI4, [.immediate (.i32 5)]⟩, ⟨⟨1⟩, .ret, []⟩]
  nextId := 2

/-- Two copies of one body are taken; the first is edited and committed, and then the second is committed. -/
def rivals : List Action :=
  [.define five, .load 0 five.method, .load 1 five.method, .edit 0 (.erase 0),
    .edit 0 (.insert 0 ⟨.ldcI4, [.immediate (.i32 6)]⟩), .commit 0, .commit 1]

theorem commit_of_loaded_rivals : Loaded rivals 0 five.method 1 5 ∧ Loaded rivals 1 five.method 2 6 ∧
    Done rivals 5 (.commit 0) ∧ ¬ Done rivals 6 (.commit 1) := by
  have hload : Done rivals 1 (.load 0 five.method) := ⟨rfl, done_of_toBool (by decide +kernel)⟩
  have hload' : Done rivals 2 (.load 1 five.method) := ⟨rfl, done_of_toBool (by decide +kernel)⟩
  have hloaded : Loaded rivals 0 five.method 1 5 := by
    refine ⟨hload, by decide, fun k hk hk' a hdone hcopy => ?_⟩
    have hother : ∀ k < 5, 1 < k → (rivals[k]?).bind Action.copy? ≠ some 0 := by decide
    exact hother k hk' hk (by rw [hdone.1, Option.bind_some, hcopy])
  have hloaded' : Loaded rivals 1 five.method 2 6 := by
    refine ⟨hload', by decide, fun k hk hk' a hdone hcopy => ?_⟩
    have hother : ∀ k < 6, 2 < k → (rivals[k]?).bind Action.copy? ≠ some 1 := by decide
    exact hother k hk' hk (by rw [hdone.1, Option.bind_some, hcopy])
  have hnot (k : Nat) (hk : 1 ≤ k) (hk' : k < 5) : ¬ Replaced rivals five.method k := by
    have hother : ∀ k < 5, 1 ≤ k →
        (rivals[k]?).bind (Action.method? (moment rivals k)) ≠ some five.method := by decide +kernel
    rintro ⟨a, hdone, hmethod⟩
    exact hother k hk' hk (by rw [hdone.1, Option.bind_some, hmethod])
  have hsame : (moment rivals 1).table.load five.method = (moment rivals 2).table.load five.method := by
    have hentry : (moment rivals 2).table.get? five.method = (moment rivals 1).table.get? five.method :=
      entry_of_not_replaced (by decide) fun k hk hk' => hnot k hk (by omega)
    simp only [MethodTable.load, MethodTable.body, hentry]
  obtain ⟨-, hcommit, hone⟩ := commit_of_loaded hloaded
  obtain ⟨hdone, -⟩ := hcommit rfl (fun k hk => hnot k (Nat.le_of_lt hk)) (if_pos (by decide +kernel))
  exact ⟨hloaded, hloaded', hdone, fun hdone' => absurd (hone 1 2 6 hloaded' hsame hdone hdone') (by decide)⟩

end Workshop

end Graft
