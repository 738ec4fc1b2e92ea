import Graft.Proofs.Host.Lifecycle

/-!
# What hooks are told

A hook is told of each definition once, when the body is in place (`Host.told_once`).

* `Host.announcements` lists the definitions in the course of requests, each with the host whose hooks are about to be
  told. `Announcement.notes` is what its recorders note.
* `Host.Seen` says which body there is while hooks are being told: the one that was just defined, unless the registry
  was told earlier and has committed another.
* `Input` is a request or the loading of a text, which is a list of requests.
-/

namespace Graft

/-! ### Attempts that commit -/

namespace World

variable {w : World} {id : MethodId} {live b : Body}

/-- The registry, when it is told of a method, commits the body that the patch of the method makes of the live one. -/
structure Patches (w : World) (id : MethodId) (live b : Body) : Prop where
  load : w.table.load id = .ok live
  edit : ∃ g p, w.registry.get? id = some g ∧ (∀ digest, g.state ≠ .applied digest) ∧
    g.patch.edit live w.providers = (.ok b, p)
  commit : w.table.commit b = .ok (w.table.put b)

theorem Patches.method (h : w.Patches id live b) (hs : w.table.Sound) : b.method = id := by
  obtain ⟨g, p, -, -, hedit⟩ := h.edit
  exact (Body.stable_method id).edit (hs.named (MethodTable.body_eq_ok.1 h.load)) hedit

theorem Patches.table_applyTo (h : w.Patches id live b) : (w.applyTo id).2.table = w.table.put b := by
  obtain ⟨g, p, hg, hdue, hedit⟩ := h.edit
  have hrun : (w.runPatch id g.patch).2.table = w.table.put b := by
    simp only [runPatch, h.load, hedit, h.commit]
  rcases applyTo_cases w id with
    ⟨hnone, -⟩ | ⟨g', digest, hg', happlied, -⟩ | ⟨g', hg', -, ⟨digest, w', hok, happly⟩ | ⟨e, w', herror, happly⟩⟩
  · cases hg.symm.trans hnone
  · obtain rfl := Option.some.inj (hg.symm.trans hg')
    exact absurd happlied (hdue digest)
  · obtain rfl := Option.some.inj (hg.symm.trans hg')
    rw [hok] at hrun
    rw [happly]
    exact hrun
  · obtain rfl := Option.some.inj (hg.symm.trans hg')
    rw [herror] at hrun
    rw [happly]
    exact hrun

theorem table_applyTo_of_not_patches (h : ∀ live b, ¬ w.Patches id live b) : (w.applyTo id).2.table = w.table := by
  have hrun {g : Registration} (hg : w.registry.get? id = some g) (hdue : ∀ digest, g.state ≠ .applied digest) :
      (w.runPatch id g.patch).2.table = w.table := by
    rcases runPatch_cases w id g.patch with ⟨e, p, hrun⟩ | ⟨live, b, p, t, hload, hedit, hcommit, -⟩
    · rw [hrun]
    · obtain ⟨-, -, -, -, rfl⟩ := MethodTable.commit_eq_ok.1 hcommit
      exact absurd ⟨hload, ⟨g, p, hg, hdue, hedit⟩, hcommit⟩ (h live b)
  rcases applyTo_cases w id with
    ⟨-, happly⟩ | ⟨g, digest, -, -, happly⟩ | ⟨g, hg, hdue, ⟨digest, w', hok, happly⟩ | ⟨e, w', herror, happly⟩⟩
  · rw [happly]
  · rw [happly]
  · have htable := hrun hg hdue
    rw [hok] at htable
    rw [happly]
    exact htable
  · have htable := hrun hg hdue
    rw [herror] at htable
    rw [happly]
    exact htable

end World

namespace Host

variable {h : Host} {id : MethodId} {b c : Body} {hook : Hook} {hooks hooks' : List Hook} {tag : String} {e : Event}

/-! ### While hooks are told -/

/-- The host when the first hooks have been told of a method, and the others have not. -/
def told (h : Host) (id : MethodId) (hooks : List Hook) : Host := hooks.foldl (tell id) h

/-- No body is committed while hooks are told of a method. -/
def Quiet (id : MethodId) : Host → List Hook → Prop
  | _, [] => True
  | h, hook :: hooks => (hook = .registry → ∀ live b, ¬ h.world.Patches id live b) ∧ Quiet id (h.tell id hook) hooks

/-- The live body when hooks have been told of the definition of `b`: it is `b`, unless the registry was among the hooks
and has committed what the patch made of the body that was there. -/
inductive Seen (id : MethodId) (h : Host) (b : Body) : List Hook → Body → Prop
  | defined {hooks : List Hook} (quiet : Quiet id h hooks) : Seen id h b hooks b
  | patched {before after : List Hook} {live c : Body} (seen : Seen id h b before live)
      (patches : (h.told id before).world.Patches id live c)
      (quiet : Quiet id ((h.told id before).tell id .registry) after) :
      Seen id h b (before ++ .registry :: after)
        { c with revision := some ((h.told id before).world.table.revisions + 1) }

/-- A hook that commits nothing is told before the others. -/
private theorem Seen.cons (hidle : hook = .registry → ∀ live c, ¬ h.world.Patches id live c)
    (hseen : Seen id (h.tell id hook) b hooks c) : Seen id h b (hook :: hooks) c := by
  induction hseen with
  | defined quiet => exact .defined ⟨hidle, quiet⟩
  | patched seen patches quiet ih => exact (Seen.patched ih patches quiet :)

/-- The registry is told before the others, and commits a body. -/
private theorem Seen.cons_patched {live : Body} (hpatches : h.world.Patches id live c)
    (hseen : Seen id (h.tell id .registry) { c with revision := some (h.world.table.revisions + 1) } hooks b) :
    Seen id h live (.registry :: hooks) b := by
  induction hseen with
  | defined quiet =>
    have hfirst : Seen id h live [] live := .defined trivial
    exact (Seen.patched hfirst hpatches quiet :)
  | patched seen patches quiet ih => exact (Seen.patched ih patches quiet :)

/-- What is live while hooks are told of a definition. -/
theorem load_told (hs : h.world.table.Sound) (hload : h.world.table.load id = .ok b) (hooks : List Hook) :
    ∃ c, (h.told id hooks).world.table.load id = .ok c ∧ Seen id h b hooks c := by
  induction hooks generalizing h b with
  | nil => exact ⟨b, hload, .defined trivial⟩
  | cons hook hooks ih =>
    cases hook with
    | recorder tag =>
      obtain ⟨c, hc, hseen⟩ := ih (h := h.tell id (.recorder tag)) hs hload
      exact ⟨c, hc, hseen.cons nofun⟩
    | registry =>
      have hs' : (h.tell id .registry).world.table.Sound := World.sound_applyTo hs id
      by_cases hpatches : ∃ live c, h.world.Patches id live c
      · obtain ⟨live, c, hpatches⟩ := hpatches
        obtain rfl := Except.ok.inj (hpatches.load.symm.trans hload)
        have htable : (h.tell id .registry).world.table = h.world.table.put c := hpatches.table_applyTo
        have hlive : (h.tell id .registry).world.table.load id =
            .ok { c with revision := some (h.world.table.revisions + 1) } := by
          rw [htable, ← hpatches.method hs]
          exact MethodTable.body_eq_ok.2 (MethodTable.get?_put_self ..)
        obtain ⟨c', hc', hseen⟩ := ih hs' hlive
        exact ⟨c', hc', hseen.cons_patched hpatches⟩
      · have hidle (live c : Body) : ¬ h.world.Patches id live c := fun hc => hpatches ⟨live, c, hc⟩
        have htable : (h.tell id .registry).world.table = h.world.table := World.table_applyTo_of_not_patches hidle
        have hlive : (h.tell id .registry).world.table.load id = .ok b := by rw [htable, hload]
        obtain ⟨c, hc, hseen⟩ := ih hs' hlive
        exact ⟨c, hc, hseen.cons fun _ => hidle⟩

/-- Hooks cannot do anything to a method without a body. -/
theorem table_told_of_error {err : Error} (hload : h.world.table.load id = .error err) (hooks : List Hook) :
    (h.told id hooks).world.table = h.world.table := by
  induction hooks generalizing h with
  | nil => rfl
  | cons hook hooks ih =>
    have htable : (h.tell id hook).world.table = h.world.table := by
      cases hook with
      | recorder tag => rfl
      | registry =>
        refine World.table_applyTo_of_not_patches fun live c hpatches => ?_
        cases hpatches.load.symm.trans hload
    have hload' : (h.tell id hook).world.table.load id = .error err := by rw [htable, hload]
    exact (ih hload').trans htable

/-! ### Notes -/

/-- What a hook notes when it is told of a method. -/
def note (h : Host) (id : MethodId) : Hook → List Event
  | .registry => []
  | .recorder tag => [⟨tag, id, h.world.table.load id⟩]

/-- What hooks note one after the other. -/
def notes (id : MethodId) : Host → List Hook → List Event
  | _, [] => []
  | h, hook :: hooks => h.note id hook ++ notes id (h.tell id hook) hooks

theorem events_told (h : Host) (id : MethodId) (hooks : List Hook) :
    (h.told id hooks).events = h.events ++ notes id h hooks := by
  induction hooks generalizing h with
  | nil => exact (List.append_nil _).symm
  | cons hook hooks ih =>
    have hfirst : (h.tell id hook).events = h.events ++ h.note id hook := by
      cases hook with
      | registry => exact (List.append_nil _).symm
      | recorder tag => rfl
    have hrest := ih (h.tell id hook)
    rw [hfirst, List.append_assoc] at hrest
    exact hrest

theorem hooks_told (h : Host) (id : MethodId) (hooks : List Hook) : (h.told id hooks).hooks = h.hooks := by
  induction hooks generalizing h with
  | nil => rfl
  | cons hook hooks ih =>
    have hrest := ih (h.tell id hook)
    cases hook with
    | registry => exact hrest
    | recorder tag => exact hrest

theorem notes_append (h : Host) (id : MethodId) (hooks hooks' : List Hook) :
    notes id h (hooks ++ hooks') = notes id h hooks ++ notes id (h.told id hooks) hooks' := by
  induction hooks generalizing h with
  | nil => rfl
  | cons hook hooks ih =>
    have hrest := ih (h.tell id hook)
    rw [List.cons_append, notes, hrest, notes, List.append_assoc]
    rfl

/-- Only recorders make notes. -/
theorem recorder_mem_of_mem_notes (he : e ∈ notes id h hooks) : .recorder e.tag ∈ hooks := by
  induction hooks generalizing h with
  | nil => cases he
  | cons hook hooks ih =>
    rcases List.mem_append.1 he with hfirst | hrest
    · cases hook with
      | registry => cases hfirst
      | recorder tag =>
        obtain rfl := List.mem_singleton.1 hfirst
        exact List.mem_cons_self
    · exact List.mem_cons_of_mem _ (ih hrest)

/-- The notes of one recorder among others. -/
def notesOf (tag : String) (events : List Event) : List Event := events.filter fun e => e.tag = tag

theorem notesOf_append (tag : String) (events events' : List Event) :
    notesOf tag (events ++ events') = notesOf tag events ++ notesOf tag events' :=
  List.filter_append ..

private theorem notesOf_eq_nil (h : Host) (id : MethodId) (hhooks : .recorder tag ∉ hooks) :
    notesOf tag (notes id h hooks) = [] := by
  refine List.filter_eq_nil_iff.2 fun e he htag => ?_
  obtain rfl := of_decide_eq_true htag
  exact hhooks (recorder_mem_of_mem_notes he)

/-- A recorder that is a hook once makes one note, of what there is when the hooks before it have been told. -/
theorem notesOf_notes (h : Host) (id : MethodId) (hbefore : .recorder tag ∉ hooks) (hafter : .recorder tag ∉ hooks') :
    notesOf tag (notes id h (hooks ++ .recorder tag :: hooks')) =
      [⟨tag, id, (h.told id hooks).world.table.load id⟩] := by
  have hself : notesOf tag ((h.told id hooks).note id (.recorder tag)) =
      [⟨tag, id, (h.told id hooks).world.table.load id⟩] := List.filter_cons_of_pos (by simp)
  rw [notes_append, notes, notesOf_append, notesOf_append, notesOf_eq_nil h id hbefore, hself,
    notesOf_eq_nil _ id hafter]
  rfl

/-! ### Announcements -/

/-- What hooks are told of. -/
inductive Definition where
  | managed (b : Body)
  | intrinsic (id : MethodId) (s : Signature) (n : Native)

def Definition.method : Definition → MethodId
  | managed b => b.method
  | intrinsic id _ _ => id

/-- A definition, and the host in which it is stored and of which no hook has been told it yet. -/
structure Announcement where
  definition : Definition
  stored : Host

/-- The notes of all recorders. -/
def Announcement.notes (a : Announcement) : List Event := Host.notes a.definition.method a.stored a.stored.hooks

/-- The host when the first hooks have been told. -/
def Announcement.told (a : Announcement) (hooks : List Hook) : Host := a.stored.told a.definition.method hooks

/-- The note of a recorder, when the hooks before it have been told. -/
def Announcement.noteAfter (a : Announcement) (hooks : List Hook) (tag : String) : Event :=
  ⟨tag, a.definition.method, (a.told hooks).world.table.load a.definition.method⟩

/-- A definition that succeeds is announced. -/
def announced (h : Host) : Request → List Announcement
  | .define b =>
    match h.world.table.store b with
    | .ok t => [⟨.managed b, h.withTable t⟩]
    | .error _ => []
  | .defineIntrinsic id s n => [⟨.intrinsic id s n, h.withTable (h.world.table.storeIntrinsic id s n)⟩]
  | _ => []

def announcements : Host → List Request → List Announcement
  | _, [] => []
  | h, r :: rs => h.announced r ++ announcements (h.perform r) rs

/-- The definitions of a request, said without a host. -/
def Request.definitions : Request → List Definition
  | .define b =>
    match b.verify with
    | .ok _ => [.managed b]
    | .error _ => []
  | .defineIntrinsic id s n => [.intrinsic id s n]
  | _ => []

/-- The hooks that a request subscribes. -/
def Request.subscribed : Request → List Hook
  | .subscribe hook => [hook]
  | _ => []

variable {r : Request} {rs : List Request} {a : Announcement}

theorem define_of_verify (hverify : b.verify = .ok ()) : h.define b = .ok (h.perform (.define b)) := by
  have hstore : h.world.table.store b = .ok (h.world.table.put b) := MethodTable.store_eq_ok.2 ⟨hverify, rfl⟩
  simp only [perform, define, hstore]
  rfl

theorem define_of_error {err : Error} (hverify : b.verify = .error err) : h.define b = .error err := by
  have hstore : h.world.table.store b = .error err := MethodTable.store_eq_error.2 hverify
  rw [define, hstore]
  rfl

theorem perform_define_of_error {err : Error} (hverify : b.verify = .error err) : h.perform (.define b) = h := by
  rw [perform, define_of_error hverify]
  rfl

/-- A request defines something, and all hooks are told of it, or it makes no one take notes. -/
theorem perform_cases (h : Host) (r : Request) :
    (∃ a, h.announced r = [a] ∧ r.definitions = [a.definition] ∧ h.perform r = a.told a.stored.hooks ∧
      a.stored.hooks = h.hooks ∧ a.stored.events = h.events ∧ r.subscribed = []) ∨
    (h.announced r = [] ∧ r.definitions = [] ∧ (h.perform r).events = h.events ∧
      (h.perform r).hooks = h.hooks ++ r.subscribed) := by
  have hkeep : h.hooks = h.hooks ++ [] := (List.append_nil _).symm
  cases r with
  | define b =>
    rcases hverify : b.verify with err | u
    · have hannounced : h.announced (.define b) = [] := by
        simp only [announced, MethodTable.store_eq_error.2 hverify]
      have hdefinitions : (Request.define b).definitions = [] := by
        simp only [Request.definitions, hverify]
      rw [perform_define_of_error hverify]
      exact .inr ⟨hannounced, hdefinitions, rfl, hkeep⟩
    · have hstore : h.world.table.store b = .ok (h.world.table.put b) := MethodTable.store_eq_ok.2 ⟨hverify, rfl⟩
      refine .inl ⟨⟨.managed b, h.withTable (h.world.table.put b)⟩, ?_, ?_, ?_, rfl, rfl, rfl⟩
      · simp only [announced, hstore]
      · simp only [Request.definitions, hverify]
      · simp only [perform, define, hstore]
        rfl
  | defineIntrinsic id s n => exact .inl ⟨_, rfl, rfl, rfl, rfl, rfl, rfl⟩
  | commit b =>
    rcases hcommit : h.world.table.commit b with err | t
    · simp only [perform, commit, hcommit]
      exact .inr ⟨rfl, rfl, rfl, hkeep⟩
    · simp only [perform, commit, hcommit]
      exact .inr ⟨rfl, rfl, rfl, hkeep⟩
  | subscribe hook => exact .inr ⟨rfl, rfl, rfl, rfl⟩
  | _ => exact .inr ⟨rfl, rfl, rfl, hkeep⟩

theorem events_perform (h : Host) (r : Request) :
    (h.perform r).events = h.events ++ (h.announced r).flatMap Announcement.notes := by
  rcases perform_cases h r with ⟨a, ha, -, hperform, -, hevents, -⟩ | ⟨hnone, -, hevents, -⟩
  · rw [ha, hperform, Announcement.told, events_told, hevents, List.flatMap_singleton]
    rfl
  · rw [hnone, hevents, List.flatMap_nil, List.append_nil]

theorem hooks_perform (h : Host) (r : Request) : (h.perform r).hooks = h.hooks ++ r.subscribed := by
  rcases perform_cases h r with ⟨a, -, -, hperform, hhooks, -, hnone⟩ | ⟨-, -, -, hhooks⟩
  · rw [hperform, Announcement.told, hooks_told, hhooks, hnone, List.append_nil]
  · exact hhooks

/-- All notes are made by hooks that are told of a definition. -/
theorem events_foldl (h : Host) (rs : List Request) :
    (rs.foldl perform h).events = h.events ++ (h.announcements rs).flatMap Announcement.notes := by
  induction rs generalizing h with
  | nil => exact (List.append_nil _).symm
  | cons r rs ih =>
    rw [List.foldl_cons, ih, events_perform, announcements, List.flatMap_append, List.append_assoc]

theorem hooks_foldl (h : Host) (rs : List Request) :
    (rs.foldl perform h).hooks = h.hooks ++ rs.flatMap Request.subscribed := by
  induction rs generalizing h with
  | nil => exact (List.append_nil _).symm
  | cons r rs ih =>
    rw [List.foldl_cons, ih, hooks_perform, List.flatMap_cons, List.append_assoc]

/-- Definitions are announced in the order of the requests, and nothing else is. -/
theorem definition_announcements (h : Host) (rs : List Request) :
    (h.announcements rs).map Announcement.definition = rs.flatMap Request.definitions := by
  induction rs generalizing h with
  | nil => rfl
  | cons r rs ih =>
    rw [announcements, List.map_append, ih, List.flatMap_cons]
    rcases perform_cases h r with ⟨a, ha, hdefinition, -⟩ | ⟨hnone, hdefinition, -⟩
    · rw [ha, hdefinition, List.map_singleton]
    · rw [hnone, hdefinition, List.map_nil]

/-- An announcement is that of some request. -/
theorem exists_of_mem_announcements (ha : a ∈ h.announcements rs) :
    ∃ before r after, rs = before ++ r :: after ∧ a ∈ (before.foldl perform h).announced r := by
  induction rs generalizing h with
  | nil => cases ha
  | cons r rs ih =>
    rcases List.mem_append.1 ha with hfirst | hrest
    · exact ⟨[], r, rs, rfl, hfirst⟩
    · obtain ⟨before, r', after, rfl, ha'⟩ := ih hrest
      exact ⟨r :: before, r', after, rfl, ha'⟩

/-- The hooks that are told are those that are there already, and others that are subscribed meanwhile. -/
theorem hooks_of_mem_announcements (ha : a ∈ h.announcements rs) :
    ∃ later, a.stored.hooks = h.hooks ++ later ∧ later ⊆ rs.flatMap Request.subscribed := by
  obtain ⟨before, r, after, rfl, hr⟩ := exists_of_mem_announcements ha
  refine ⟨before.flatMap Request.subscribed, ?_, ?_⟩
  · rw [← hooks_foldl]
    rcases perform_cases (before.foldl perform h) r with ⟨a', ha', -, -, hhooks, -⟩ | ⟨hnone, -⟩
    · rw [ha'] at hr
      obtain rfl := List.mem_singleton.1 hr
      exact hhooks
    · rw [hnone] at hr
      cases hr
  · rw [List.flatMap_append]
    exact List.subset_append_left ..

/-- Notes are made by recorders that are among the hooks. -/
theorem recorder_mem_of_mem_announcements (he : e ∈ (h.announcements rs).flatMap Announcement.notes) :
    .recorder e.tag ∈ h.hooks ++ rs.flatMap Request.subscribed := by
  obtain ⟨a, ha, hnote⟩ := List.mem_flatMap.1 he
  obtain ⟨later, hlater, hsub⟩ := hooks_of_mem_announcements ha
  have hmem := recorder_mem_of_mem_notes hnote
  rw [hlater] at hmem
  rcases List.mem_append.1 hmem with hthere | hnew
  · exact List.mem_append_left _ hthere
  · exact List.mem_append_right _ (hsub hnew)

/-- What can be loaded of a definition when the first hooks have been told of it. -/
def Announcement.Shows (a : Announcement) (hooks : List Hook) : Prop :=
  match a.definition with
  | .managed b => ∃ c, (a.told hooks).world.table.load b.method = .ok c ∧
      Seen b.method a.stored { b with revision := some a.stored.world.table.revisions } hooks c
  | .intrinsic id _ _ => (a.told hooks).world.table.load id = .error (.noBody id)

theorem shows_of_mem_announced (hs : h.world.table.Sound) (ha : a ∈ h.announced r) (hooks : List Hook) :
    a.Shows hooks := by
  cases r with
  | define b =>
    rcases hstore : h.world.table.store b with err | t
    · simp only [announced, hstore] at ha
      cases ha
    · simp only [announced, hstore] at ha
      obtain rfl := List.mem_singleton.1 ha
      have hsound := hs.store hstore
      obtain ⟨-, rfl⟩ := MethodTable.store_eq_ok.1 hstore
      exact load_told hsound (MethodTable.body_eq_ok.2 (MethodTable.get?_put_self ..)) hooks
  | defineIntrinsic id s n =>
    obtain rfl := List.mem_singleton.1 ha
    have hload : (h.world.table.storeIntrinsic id s n).load id = .error (.noBody id) := by
      rw [MethodTable.load, MethodTable.body, MethodTable.get?_storeIntrinsic_self]
    have htable := table_told_of_error (h := h.withTable (h.world.table.storeIntrinsic id s n)) hload hooks
    show ((h.withTable (h.world.table.storeIntrinsic id s n)).told id hooks).world.table.load id = _
    rw [htable]
    exact hload
  | _ => cases ha

theorem shows_of_mem_announcements (hs : h.world.table.Sound) (ha : a ∈ h.announcements rs) (hooks : List Hook) :
    a.Shows hooks := by
  obtain ⟨before, r, after, -, ha⟩ := exists_of_mem_announcements ha
  exact shows_of_mem_announced ((linked_history h before).sound hs) ha hooks

/-- A recorder that is a hook once makes one note of each definition. -/
theorem notesOf_announcements (hhooks : h.hooks = hooks ++ .recorder tag :: hooks') (hbefore : .recorder tag ∉ hooks)
    (hafter : .recorder tag ∉ hooks' ++ rs.flatMap Request.subscribed) :
    notesOf tag ((h.announcements rs).flatMap Announcement.notes) =
      (h.announcements rs).map fun a => a.noteAfter hooks tag := by
  have hone (a : Announcement) (ha : a ∈ h.announcements rs) : notesOf tag a.notes = [a.noteAfter hooks tag] := by
    obtain ⟨later, hlater, hsub⟩ := hooks_of_mem_announcements ha
    rw [hhooks, List.append_assoc, List.cons_append] at hlater
    rw [Announcement.notes, hlater]
    refine notesOf_notes a.stored a.definition.method hbefore fun hin => hafter ?_
    rcases List.mem_append.1 hin with hin | hin
    · exact List.mem_append_left _ hin
    · exact List.mem_append_right _ (hsub hin)
  generalize h.announcements rs = as at hone
  induction as with
  | nil => rfl
  | cons a as ih =>
    rw [List.flatMap_cons, notesOf_append, hone a List.mem_cons_self,
      ih fun a' ha' => hone a' (List.mem_cons_of_mem _ ha')]
    rfl

/-! ### Texts -/

/-- What is done with a host. -/
inductive Input where
  | request (r : Request)
  | text (src : String)

/-- The requests that an input amounts to: a text defines its methods up to the first that is rejected. -/
def Input.requests : Input → List Request
  | request r => [r]
  | text src =>
    match Assembly.bodies src.toList with
    | .ok bs => (bs.takeWhile fun b => b.verify.isOk).map .define
    | .error _ => []

def accept (h : Host) : Input → Host
  | .request r => h.perform r
  | .text src => (h.loadModule src).2

/-- Bodies that pass verification are defined one after the other. -/
theorem defineAll_append {before : List Body} (hbefore : ∀ b ∈ before, b.verify = .ok ()) (h : Host) (bs : List Body) :
    h.defineAll (before ++ bs) = ((before.map Request.define).foldl perform h).defineAll bs := by
  induction before generalizing h with
  | nil => rfl
  | cons b before ih =>
    obtain ⟨hb, hrest⟩ := List.forall_mem_cons.1 hbefore
    rw [List.cons_append, defineAll, define_of_verify hb]
    exact ih hrest _

theorem defineAll_of_error {err : Error} (hverify : b.verify = .error err) (h : Host) (bs : List Body) :
    h.defineAll (b :: bs) = (.error err, h) := by
  rw [defineAll, define_of_error hverify]

private theorem defineAll_eq (h : Host) (bs : List Body) :
    (h.defineAll bs).2 = ((bs.takeWhile fun b => b.verify.isOk).map Request.define).foldl perform h := by
  induction bs generalizing h with
  | nil => rfl
  | cons b bs ih =>
    cases hverify : b.verify with
    | error err =>
      have hnone : (b :: bs).takeWhile (fun b => b.verify.isOk) = [] :=
        List.takeWhile_cons_of_neg (by rw [hverify]; exact nofun)
      rw [defineAll_of_error hverify, hnone]
      rfl
    | ok u =>
      have hfirst : (b :: bs).takeWhile (fun b => b.verify.isOk) = b :: bs.takeWhile fun b => b.verify.isOk :=
        List.takeWhile_cons_of_pos (by rw [hverify]; rfl)
      rw [defineAll, define_of_verify hverify, hfirst]
      exact ih _

/-- A text up to a body that is rejected. -/
theorem loadModule_of_error {src : String} {before after : List Body} {err : Error}
    (hbodies : Assembly.bodies src.toList = .ok (before ++ b :: after)) (hbefore : ∀ b' ∈ before, b'.verify = .ok ())
    (hb : b.verify = .error err) (h : Host) :
    h.loadModule src = (.error err, (before.map Request.define).foldl perform h) ∧
      (Input.text src).requests = before.map .define := by
  constructor
  · simp only [loadModule, hbodies, defineAll_append hbefore, defineAll_of_error hb]
    rfl
  · have hall : ∀ b' ∈ before, b'.verify.isOk = true := by
      intro b' hb'
      rw [hbefore b' hb']
      rfl
    have hnone : (b :: after).takeWhile (fun b => b.verify.isOk) = [] :=
      List.takeWhile_cons_of_neg (by rw [hb]; exact nofun)
    simp only [Input.requests, hbodies, List.takeWhile_append_of_pos hall, hnone, List.append_nil]

theorem accept_eq (h : Host) (i : Input) : h.accept i = i.requests.foldl perform h := by
  cases i with
  | request r => rfl
  | text src =>
    cases hbodies : Assembly.bodies src.toList with
    | error err => simp only [accept, loadModule, Input.requests, hbodies, List.foldl_nil]
    | ok bs =>
      simp only [accept, loadModule, Input.requests, hbodies]
      exact defineAll_eq h bs

theorem foldl_accept (h : Host) (is : List Input) : is.foldl accept h = (is.flatMap Input.requests).foldl perform h := by
  induction is generalizing h with
  | nil => rfl
  | cons i is ih => rw [List.foldl_cons, ih, accept_eq, List.flatMap_cons, List.foldl_append]

/-- Texts subscribe no hooks. -/
theorem mem_subscribed_iff {is : List Input} :
    hook ∈ (is.flatMap Input.requests).flatMap Request.subscribed ↔ .request (.subscribe hook) ∈ is := by
  constructor
  · intro hhook
    obtain ⟨r, hr, hhook⟩ := List.mem_flatMap.1 hhook
    obtain ⟨i, hi, hr⟩ := List.mem_flatMap.1 hr
    cases i with
    | request r' =>
      obtain rfl := List.mem_singleton.1 hr
      cases r with
      | subscribe hook' =>
        obtain rfl := List.mem_singleton.1 hhook
        exact hi
      | _ => cases hhook
    | text src =>
      cases hbodies : Assembly.bodies src.toList with
      | error err =>
        simp only [Input.requests, hbodies] at hr
        cases hr
      | ok bs =>
        simp only [Input.requests, hbodies] at hr
        obtain ⟨b, -, rfl⟩ := List.mem_map.1 hr
        cases hhook
  · intro hi
    exact List.mem_flatMap.2 ⟨.subscribe hook, List.mem_flatMap.2 ⟨_, hi, List.mem_singleton_self _⟩,
      List.mem_singleton_self _⟩

private theorem definitions_of_verify {bs : List Body} (hbs : ∀ b ∈ bs, b.verify = .ok ()) :
    (bs.map Request.define).flatMap Request.definitions = bs.map Definition.managed := by
  induction bs with
  | nil => rfl
  | cons b bs ih =>
    obtain ⟨hb, hrest⟩ := List.forall_mem_cons.1 hbs
    have hfirst : (Request.define b).definitions = [.managed b] := by simp only [Request.definitions, hb]
    rw [List.map_cons, List.flatMap_cons, hfirst, ih hrest]
    rfl

/-- There is no recorder among the hooks that no request has subscribed, and no note of one. -/
private theorem not_mem_hooks {before : List Input} (hnot : .request (.subscribe (.recorder tag)) ∉ before) :
    .recorder tag ∉ (before.foldl accept {}).hooks ∧ notesOf tag (before.foldl accept {}).events = [] := by
  have hhooks : (before.foldl accept {}).hooks = (before.flatMap Input.requests).flatMap Request.subscribed := by
    rw [foldl_accept, hooks_foldl, List.nil_append]
  have hnone : .recorder tag ∉ (before.foldl accept {}).hooks := by
    intro hin
    rw [hhooks] at hin
    exact hnot (mem_subscribed_iff.1 hin)
  refine ⟨hnone, List.filter_eq_nil_iff.2 fun e he htag => hnone ?_⟩
  obtain rfl := of_decide_eq_true htag
  rw [foldl_accept, events_foldl] at he
  rw [hhooks]
  exact recorder_mem_of_mem_announcements he

/-! ### Once, and in order -/

/-- From a subscription on, a recorder is told of each definition that succeeds once, in the order of the definitions,
and of nothing else. What it can load then, as any other hook, is the body that was just defined, or the one that the
registry has committed when it was told before; of an intrinsic method it is nothing. Of a text, the methods before one
that is rejected are defined and no others.

Anything may be done with the host before the subscription and after it. If the tag is that of other recorders too, all
of them make their notes under it. -/
theorem told_once (before after : List Input) (tag : String) :
    let h := before.foldl accept {}
    let as := (h.subscribe (.recorder tag)).announcements (after.flatMap Input.requests)
    let h' := (.request (.subscribe (.recorder tag)) :: after).foldl accept h
    h'.events = h.events ++ as.flatMap Announcement.notes ∧
    (.request (.subscribe (.recorder tag)) ∉ before ++ after →
      notesOf tag h'.events = as.map fun a => a.noteAfter h.hooks tag) ∧
    as.map Announcement.definition = (after.flatMap Input.requests).flatMap Request.definitions ∧
    (∀ a ∈ as, h.hooks ++ [.recorder tag] <+: a.stored.hooks ∧
      ∀ earlier later, a.stored.hooks = earlier ++ later → a.Shows earlier) ∧
    ∀ src defined b rest err, Assembly.bodies src.toList = .ok (defined ++ b :: rest) →
      (∀ b' ∈ defined, b'.verify = .ok ()) → b.verify = .error err →
      h'.loadModule src = (.error err, (defined.map Request.define).foldl perform h') ∧
      (h'.announcements (Input.text src).requests).map Announcement.definition = defined.map .managed := by
  intro h as h'
  have hstart : h = (before.flatMap Input.requests).foldl perform {} := foldl_accept {} before
  have hsound : h.world.table.Sound := hstart ▸ (linked_history {} _).sound MethodTable.sound_empty
  have hend : h' = (after.flatMap Input.requests).foldl perform (h.subscribe (.recorder tag)) :=
    foldl_accept (h.subscribe (.recorder tag)) after
  have hevents : h'.events = h.events ++ as.flatMap Announcement.notes := hend ▸ events_foldl _ _
  refine ⟨hevents, fun hsole => ?_, definition_announcements _ _, fun a ha => ⟨?_, fun earlier later _ => ?_⟩, ?_⟩
  · obtain ⟨hbefore, hnone⟩ : .recorder tag ∉ h.hooks ∧ notesOf tag h.events = [] :=
      not_mem_hooks fun hin => hsole (List.mem_append_left _ hin)
    have hafter : .recorder tag ∉ (after.flatMap Input.requests).flatMap Request.subscribed := by
      intro hin
      exact hsole (List.mem_append_right _ (mem_subscribed_iff.1 hin))
    have hhooks : (h.subscribe (.recorder tag)).hooks = h.hooks ++ .recorder tag :: [] := rfl
    rw [hevents, notesOf_append, hnone, List.nil_append]
    exact notesOf_announcements hhooks hbefore hafter
  · obtain ⟨later, hlater, -⟩ := hooks_of_mem_announcements ha
    exact ⟨later, hlater.symm⟩
  · exact shows_of_mem_announcements (h := h.subscribe (.recorder tag)) hsound ha earlier
  · intro src defined b rest err hbodies hdefined hb
    obtain ⟨hload, hrequests⟩ := loadModule_of_error hbodies hdefined hb h'
    refine ⟨hload, ?_⟩
    rw [definition_announcements, hrequests]
    exact definitions_of_verify hdefined

/-- A method has a patch, and the registry is subscribed. -/
def patched : List Input :=
  [.request (.register Workshop.five.method "pad" (.script [⟨.insert ⟨.nop, []⟩, false⟩])),
    .request (.subscribe .registry)]

/-- The method is defined, a body is rejected, another is committed, and the method is defined once more. -/
def redefined : List Input :=
  [.request (.define Workshop.five), .request (.define { Workshop.five with entries := [] }),
    .request (.commit Workshop.five), .request (.define Workshop.five)]

/-- The recorder sees the padded body, under its second revision, and then the body as it is defined again. -/
theorem told_once_redefined : .request (.subscribe (.recorder "seen")) ∉ patched ++ redefined ∧
    (notesOf "seen" ((.request (.subscribe (.recorder "seen")) :: redefined).foldl accept
      (patched.foldl accept {})).events).map
      (fun e => (e.method, e.loaded.toOption.map fun b => (b.length, b.revision))) =
      [(Workshop.five.method, some (3, some 2)), (Workshop.five.method, some (2, some 4))] := by
  have hsole : .request (.subscribe (.recorder "seen")) ∉ patched ++ redefined := by
    simp [patched, redefined]
  obtain ⟨-, hnotes, -⟩ := told_once patched redefined "seen"
  refine ⟨hsole, ?_⟩
  rw [hnotes hsole]
  decide +kernel

end Host

end Graft
