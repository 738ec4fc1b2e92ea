import Graft.Proofs.Form.Plan
import Graft.Proofs.Host.Installation

/-!
# Snapshots bring values back

A snapshot is taken of the settings and brought back when they have changed (`Settings.restore_snapshot`).

* `Settings.Step` is one operation on the settings, and `Settings.Evolves` a sequence of them.
* `Settings.applySnapshot_cases` says what a snapshot changes: nothing if one of its values is of another type than its
  setting, and else the values of all settings that it has a value for.
-/

namespace Graft.Settings

/-! ### Operations -/

/-- An operation that succeeds, or the installation of a plan, which may have registered settings before it fails. -/
inductive Step : Settings → Settings → Prop
  | register {s s' : Settings} {key : String} {v : Value} {label category : String}
      (h : s.register key v label category = .ok s') : Step s s'
  | set {s s' : Settings} {key : String} {v old : Value} (h : s.set key v = .ok (old, s')) : Step s s'
  | reset {s s' : Settings} {key : String} {old : Value} (h : s.reset key = .ok (old, s')) : Step s s'
  | restore {s s' : Settings} {snap : Snapshot} {n : Nat} (h : s.applySnapshot snap = .ok (n, s')) : Step s s'
  | install (w : World) (plan : Plan) : Step w.providers.settings (w.install plan).2.providers.settings

/-- Any number of operations, one after the other. -/
abbrev Evolves : Settings → Settings → Prop := Relation.ReflTransGen Step

variable {s s' : Settings} {key : String} {x : Setting} {l : List (String × Value)} {snap : Snapshot}

theorem Step.changes (h : Step s s') : s.Changes s' := by
  cases h with
  | register h => exact changes_register h
  | set h => exact changes_set h
  | reset h => exact changes_reset h
  | restore h => exact changes_applySnapshot h
  | install w plan => exact w.changes_install plan

theorem Evolves.changes (h : Evolves s s') : s.Changes s' := by
  induction h with
  | refl => exact .refl
  | tail _ hlast ih => exact ih.trans hlast.changes

/-! ### Writing the values of a snapshot -/

theorem get?_write (s : Settings) (e : String × Value) (key : String) :
    (s.write e).get? key = (s.get? key).map fun x => if key = e.1 then { x with current := e.2 } else x := by
  unfold write
  cases hold : s.get? e.1 with
  | none =>
    by_cases hkey : key = e.1
    · simp [hkey, hold]
    · simp [hkey]
  | some old =>
    dsimp only
    rw [get?_insert]
    by_cases hkey : key = e.1
    · simp [hkey, hold]
    · simp [hkey]

/-- Entries with different keys are all written, and nothing else is. -/
theorem get?_foldl_write (s : Settings) (hl : (l.map Prod.fst).Nodup) (key : String) :
    (l.foldl write s).get? key = (s.get? key).map fun x => { x with current := (l.lookup key).getD x.current } := by
  induction l generalizing s with
  | nil => simp
  | cons e l ih =>
    obtain ⟨k, v⟩ := e
    obtain ⟨hnew, hl⟩ := List.nodup_cons.1 hl
    rw [List.foldl_cons, ih _ hl, get?_write, Option.map_map]
    congr 1
    funext x
    by_cases hkey : key = k
    · -- a key that comes first does not come again
      subst hkey
      have hnone : l.lookup key = none := by
        rw [List.lookup_eq_none_iff]
        intro e he
        have hne : key ≠ e.1 := fun heq => hnew (List.mem_map.2 ⟨e, he, heq.symm⟩)
        simpa using hne
      simp [hnone]
    · simp [hkey, List.lookup_cons, beq_eq_false_iff_ne.2 hkey]

/-- The values that fit can be written one after the other by `set`. -/
theorem foldlM_set (h : ∀ e ∈ l, s.Accepts e) :
    l.foldlM (fun s e => (s.set e.1 e.2).map Prod.snd) s = .ok (l.foldl write s) := by
  induction l generalizing s with
  | nil => rfl
  | cons e l ih =>
    obtain ⟨he, hrest⟩ := List.forall_mem_cons.1 h
    have hset : (s.set e.1 e.2).map Prod.snd = .ok (s.write e) := by
      obtain ⟨x, hx, htype⟩ := he
      rw [set_eq_ok.2 ⟨x, hx, htype, rfl, rfl⟩, write, hx]
      rfl
    have hfirst := change_write he
    rw [List.foldlM_cons, hset, List.foldl_cons]
    exact ih fun e' he' => hfirst.accepts (hrest e' he')

/-- Whether a key is registered does not depend on the entries, so that these are found as in the whole list. -/
theorem lookup_registered (hx : s.get? key = some x) : (s.registered l).lookup key = l.lookup key := by
  induction l with
  | nil => rfl
  | cons e l ih =>
    obtain ⟨k, v⟩ := e
    cases hk : s.get? k with
    | none =>
      have hne : key ≠ k := by
        rintro rfl
        cases hk.symm.trans hx
      rw [registered_cons_none hk, ih, List.lookup_cons, beq_eq_false_iff_ne.2 hne]
    | some y => rw [registered_cons_some hk, List.lookup_cons, List.lookup_cons, ih]

/-- A snapshot fails at the first value that is of another type than its setting. If there is none, it writes all values of
registered settings, none of which is refused. -/
theorem applySnapshot_cases (s : Settings) (hsnap : snap.Sorted) :
    (∃ before key v after x, snap.toList = before ++ (key, v) :: after ∧ (∀ e ∈ before, s.Fits e) ∧
      s.get? key = some x ∧ v.type ≠ x.type ∧ s.applySnapshot snap = .error (.settingType key x.type v.type)) ∨
    ((∀ e ∈ snap.toList, s.Fits e) ∧ ∃ s', s.applySnapshot snap = .ok ((s.registered snap.toList).length, s') ∧
      (s.registered snap.toList).foldlM (fun s e => (s.set e.1 e.2).map Prod.snd) s = .ok s' ∧
      ∀ key, s'.get? key = (s.get? key).map fun x => { x with current := (snap.get? key).getD x.current }) := by
  unfold applySnapshot
  rcases s.known_cases snap.toList with ⟨hfits, hok⟩ | ⟨before, key, v, after, x, hsplit, hbefore, hx, htype, herror⟩
  · refine .inr ⟨hfits, (s.registered snap.toList).foldl write s, by rw [hok]; rfl,
      foldlM_set (accepts_of_mem_registered hfits), fun key => ?_⟩
    have hnodup : ((s.registered snap.toList).map Prod.fst).Nodup :=
      hsnap.nodup_keys.sublist (List.filter_sublist.map Prod.fst)
    rw [get?_foldl_write s hnodup]
    cases hx : s.get? key with
    | none => rfl
    | some x => rw [lookup_registered hx]; rfl
  · exact .inl ⟨before, key, v, after, x, hsplit, hbefore, hx, htype, by rw [herror]; rfl⟩

/-! ### Taking a snapshot and bringing it back -/

theorem get?_snapshot (s : Settings) (key : String) : s.snapshot.get? key = (s.get? key).map Setting.current :=
  Dict.get?_map ..

/-- After changes, the settings that a snapshot was taken of are all there, and take the values that they had. -/
theorem registered_snapshot (hs : s.byKey.Sorted) (htyped : s.Typed) (h : s.Changes s') :
    (∀ e ∈ s.snapshot.toList, s'.Fits e) ∧ s'.registered s.snapshot.toList = s.snapshot.toList := by
  have hlater : ∀ e ∈ s.snapshot.toList, ∃ x w, s.get? e.1 = some x ∧ x.current = e.2 ∧
      s'.get? e.1 = some { x with current := w } := by
    intro e he
    have hfound := (hs.map Setting.current).get?_of_mem he
    rw [Dict.get?_map] at hfound
    obtain ⟨x, hx, hcurrent⟩ := Option.map_eq_some_iff.1 hfound
    obtain ⟨w, hw⟩ := h.kept hx
    exact ⟨x, w, hx, hcurrent, hw⟩
  constructor
  · intro e he y hy
    obtain ⟨x, w, hx, hcurrent, hw⟩ := hlater e he
    obtain rfl := Option.some.inj (hw.symm.trans hy)
    exact hcurrent ▸ htyped e.1 x hx
  · refine List.filter_eq_self.2 fun e he => ?_
    obtain ⟨x, w, -, -, hw⟩ := hlater e he
    rw [hw, Option.isSome_some]

/-- Whatever has been done with the settings, all values are of the types of their settings. A snapshot of them, which can
be read from its text, can be brought back whatever is done next: all settings that it was taken of are then what they
were, and those that were registered later stay as they are. Any other snapshot fails at its first value of a wrong type,
before anything is written, or writes the values of all its keys that are registered and changes nothing else. -/
theorem restore_snapshot (hs : Evolves {} s) (hs' : Evolves s s') :
    s.Typed ∧
    (∃ snap s'', Snapshot.ofText s.snapshot.text = .ok snap ∧ s'.applySnapshot snap = .ok (s.byKey.size, s'') ∧
      ∀ key, s''.get? key = (s.get? key).or (s'.get? key)) ∧
    ∀ snap : Snapshot, snap.Sorted →
      (∃ before key v after x, snap.toList = before ++ (key, v) :: after ∧ (∀ e ∈ before, s.Fits e) ∧
        s.get? key = some x ∧ v.type ≠ x.type ∧ s.applySnapshot snap = .error (.settingType key x.type v.type)) ∨
      ((∀ e ∈ snap.toList, s.Fits e) ∧ ∃ s'', s.applySnapshot snap = .ok ((s.registered snap.toList).length, s'') ∧
        (s.registered snap.toList).foldlM (fun s e => (s.set e.1 e.2).map Prod.snd) s = .ok s'' ∧
        ∀ key, s''.get? key = (s.get? key).map fun x => { x with current := (snap.get? key).getD x.current }) := by
  have htyped : s.Typed := hs.changes.keeps.typed typed_empty
  have hsorted : s.byKey.Sorted := hs.changes.sorted .nil
  have hsnapshot : s.snapshot.Sorted := hsorted.map _
  refine ⟨htyped, ⟨s.snapshot, ?_⟩, fun snap hsnap => s.applySnapshot_cases hsnap⟩
  obtain ⟨hfits, hregistered⟩ := registered_snapshot hsorted htyped hs'.changes
  rcases s'.applySnapshot_cases hsnapshot with
    ⟨before, key, v, after, x, hsplit, -, hx, htype, -⟩ | ⟨-, s'', hok, -, hget⟩
  · have hmem : (key, v) ∈ s.snapshot.toList := by simp [hsplit]
    exact absurd (hfits _ hmem x hx) htype
  · have hlength : (s'.registered s.snapshot.toList).length = s.byKey.size := by
      rw [hregistered]
      exact List.length_map _
    refine ⟨s'', Snapshot.ofText_text_of_sorted hsnapshot, hlength ▸ hok, fun key => ?_⟩
    rw [hget, get?_snapshot]
    cases hx : s.get? key with
    | none => simp
    | some x =>
      obtain ⟨w, hw⟩ := hs'.changes.kept hx
      simp [hw]

/-- A setting of 64 bits, and one that is registered after it. -/
def seed (n : Int64) : Setting := ⟨"Seed", "World", .i64 0, .i64 n⟩

def hard : Setting := ⟨"Hard mode", "World", .bool false, .bool false⟩

/-- A store with the least value, under a key that is written with an escape. -/
def seeded : Settings := ⟨⟨[("a\"b", seed Int64.minValue)]⟩⟩

def reseeded : Settings := ⟨⟨[("a", hard), ("a\"b", seed 7)]⟩⟩

/-- The least value comes back, and the later setting stays. -/
theorem restore_snapshot_seeded : seeded.Typed ∧ ∃ snap s'', Snapshot.ofText seeded.snapshot.text = .ok snap ∧
    reseeded.applySnapshot snap = .ok (1, s'') ∧ s''.get? "a\"b" = some (seed Int64.minValue) ∧
    s''.get? "a" = some hard := by
  have hseeded : Evolves {} seeded := by
    have hregister : ({} : Settings).register "a\"b" (.i64 0) "Seed" "World" = .ok ⟨⟨[("a\"b", seed 0)]⟩⟩ := rfl
    have hset : Settings.set ⟨⟨[("a\"b", seed 0)]⟩⟩ "a\"b" (.i64 Int64.minValue) = .ok (.i64 0, seeded) := rfl
    exact .tail (.single (.register hregister)) (.set hset)
  have hreseeded : Evolves seeded reseeded := by
    have hset : seeded.set "a\"b" (.i64 7) = .ok (.i64 Int64.minValue, ⟨⟨[("a\"b", seed 7)]⟩⟩) := rfl
    have hregister : Settings.register ⟨⟨[("a\"b", seed 7)]⟩⟩ "a" (.bool false) "Hard mode" "World" = .ok reseeded := rfl
    exact .tail (.single (.set hset)) (.register hregister)
  obtain ⟨htyped, ⟨snap, s'', hread, hok, hget⟩, -⟩ := restore_snapshot hseeded hreseeded
  exact ⟨htyped, snap, s'', hread, hok, hget "a\"b", hget "a"⟩

end Graft.Settings
