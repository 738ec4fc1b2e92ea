import Graft.Proofs.Dict
import Graft.Proofs.Failure
import Graft.Settings.Store
import Mathlib.Logic.Relation

/-!
# Changes of settings

A setting takes values of its type only, and apart from its value it never changes.

* `Settings.Change` is one change: a setting is added, or takes another value. Registering, setting, resetting and bringing
  back a snapshot come to a sequence of changes; there is one lemma on it for each of these.
* `Settings.Typed` says that all current values are of the types of their settings, and `Settings.Keeps` what lasts
  whatever the changes are.
-/

namespace Graft.Settings

variable {s s' s'' : Settings} {key : String} {x : Setting} {v w : Value} {e : String × Value} {l : List (String × Value)}

theorem get?_insert (s : Settings) (key : String) (x : Setting) (k : String) :
    (⟨s.byKey.insert key x⟩ : Settings).get? k = if k = key then some x else s.get? k := by
  by_cases hk : k = key
  · subst hk
    rw [if_pos rfl]
    exact Dict.get?_insert_self ..
  · rw [if_neg hk]
    exact Dict.get?_insert_of_ne _ hk _

/-- A setting is added, or one takes another value of its type. -/
inductive Change (s : Settings) : Settings → Prop
  | add {key : String} {x : Setting} (hnone : s.get? key = none) (hx : x.current.type = x.type) :
      s.Change ⟨s.byKey.insert key x⟩
  | write {key : String} {old : Setting} {v : Value} (hold : s.get? key = some old) (hv : v.type = old.type) :
      s.Change ⟨s.byKey.insert key { old with current := v }⟩

/-- Any number of changes, one after the other. -/
abbrev Changes : Settings → Settings → Prop := Relation.ReflTransGen Change

/-! ### What changes keep -/

/-- All current values are of the types of their settings. -/
def Typed (s : Settings) : Prop := ∀ key x, s.get? key = some x → x.current.type = x.type

/-- From `s` to `s'`, all values stay of the types of their settings, and no setting is lost or changes its type. -/
structure Keeps (s s' : Settings) : Prop where
  typed : s.Typed → s'.Typed
  type : ∀ {key x}, s.get? key = some x → ∃ x', s'.get? key = some x' ∧ x'.type = x.type

theorem typed_empty : ({} : Settings).Typed := nofun

theorem Keeps.refl (s : Settings) : s.Keeps s := ⟨fun h => h, fun hx => ⟨_, hx, rfl⟩⟩

theorem Keeps.trans (h : s.Keeps s') (h' : s'.Keeps s'') : s.Keeps s'' := by
  refine ⟨fun hs => h'.typed (h.typed hs), fun hx => ?_⟩
  obtain ⟨x', hx', htype⟩ := h.type hx
  obtain ⟨x'', hx'', htype'⟩ := h'.type hx'
  exact ⟨x'', hx'', htype'.trans htype⟩

/-- Apart from its value, a setting stays what it is. -/
theorem Change.kept (h : s.Change s') (hx : s.get? key = some x) : ∃ v, s'.get? key = some { x with current := v } := by
  cases h with
  | @add k y hnone hy =>
    have hk : key ≠ k := by
      rintro rfl
      cases hnone.symm.trans hx
    exact ⟨x.current, by rw [get?_insert, if_neg hk, hx]⟩
  | @write k old v hold hv =>
    rw [get?_insert]
    by_cases hk : key = k
    · subst hk
      obtain rfl := Option.some.inj (hold.symm.trans hx)
      exact ⟨v, by rw [if_pos rfl]⟩
    · exact ⟨x.current, by rw [if_neg hk, hx]⟩

theorem Change.keeps (h : s.Change s') : s.Keeps s' := by
  constructor
  · intro hs k y hy
    cases h with
    | add hnone hx =>
      rw [get?_insert] at hy
      split at hy
      · obtain rfl := Option.some.inj hy
        exact hx
      · exact hs k y hy
    | write hold hv =>
      rw [get?_insert] at hy
      split at hy
      · obtain rfl := Option.some.inj hy
        exact hv
      · exact hs k y hy
  · intro k y hy
    obtain ⟨v, hv⟩ := h.kept hy
    exact ⟨_, hv, rfl⟩

theorem Change.sorted (h : s.Change s') (hs : s.byKey.Sorted) : s'.byKey.Sorted := by
  cases h with
  | add hnone hx => exact hs.insert _ _
  | write hold hv => exact hs.insert _ _

theorem Changes.kept (h : s.Changes s') (hx : s.get? key = some x) : ∃ v, s'.get? key = some { x with current := v } := by
  induction h with
  | refl => exact ⟨x.current, hx⟩
  | tail _ hlast ih =>
    obtain ⟨v, hv⟩ := ih
    obtain ⟨w, hw⟩ := hlast.kept hv
    exact ⟨w, hw⟩

theorem Changes.keeps (h : s.Changes s') : s.Keeps s' := by
  induction h with
  | refl => exact .refl s
  | tail _ hlast ih => exact ih.trans hlast.keeps

theorem Changes.sorted (h : s.Changes s') (hs : s.byKey.Sorted) : s'.byKey.Sorted := by
  induction h with
  | refl => exact hs
  | tail _ hlast ih => exact hlast.sorted ih

/-! ### Single settings -/

theorem checkType_eq_ok {expected found : ValueType} : checkType key expected found = .ok () ↔ found = expected := by
  unfold checkType
  split <;> simp [*]

theorem changes_register {label category : String} (h : s.register key v label category = .ok s') : s.Changes s' := by
  unfold register at h
  split at h
  · obtain ⟨-, -, rfl⟩ := map_eq_ok.1 h
    exact .refl
  · rename_i hnone
    obtain rfl := Except.ok.inj h
    exact .single (.add hnone rfl)

theorem set_eq_ok : s.set key v = .ok (w, s') ↔ ∃ old, s.get? key = some old ∧ v.type = old.type ∧ w = old.current ∧
    s' = ⟨s.byKey.insert key { old with current := v }⟩ := by
  unfold set
  cases hold : s.get? key with
  | none => simp
  | some old =>
    simp only [bind_eq_ok, Option.some.injEq, exists_eq_left']
    constructor
    · rintro ⟨⟨⟩, hcheck, h⟩
      obtain ⟨rfl, rfl⟩ := Prod.mk.inj (Except.ok.inj h)
      exact ⟨checkType_eq_ok.1 hcheck, rfl, rfl⟩
    · rintro ⟨htype, rfl, rfl⟩
      exact ⟨(), checkType_eq_ok.2 htype, rfl⟩

theorem changes_set (h : s.set key v = .ok (w, s')) : s.Changes s' := by
  obtain ⟨old, hold, htype, -, rfl⟩ := set_eq_ok.1 h
  exact .single (.write hold htype)

theorem changes_reset (h : s.reset key = .ok (w, s')) : s.Changes s' := by
  unfold reset at h
  split at h
  · cases h
  · rename_i old hold
    obtain ⟨-, rfl⟩ := Prod.mk.inj (Except.ok.inj h)
    exact .single (.write hold rfl)

/-! ### Snapshots -/

/-- The value is of the type of the setting, if there is one under the key. -/
def Fits (s : Settings) (e : String × Value) : Prop := ∀ x, s.get? e.1 = some x → e.2.type = x.type

/-- The entries under registered keys. -/
def registered (s : Settings) (l : List (String × Value)) : List (String × Value) :=
  l.filter fun e => (s.get? e.1).isSome

theorem registered_cons_none (hnone : s.get? key = none) : s.registered ((key, v) :: l) = s.registered l := by
  simp [registered, hnone]

theorem registered_cons_some (hx : s.get? key = some x) : s.registered ((key, v) :: l) = (key, v) :: s.registered l := by
  simp [registered, hx]

/-- Either all values fit, or the first one that does not is what looking for registered entries fails for. -/
theorem known_cases (s : Settings) (l : List (String × Value)) :
    ((∀ e ∈ l, s.Fits e) ∧ s.known l = .ok (s.registered l)) ∨
    ∃ before key v after x, l = before ++ (key, v) :: after ∧ (∀ e ∈ before, s.Fits e) ∧ s.get? key = some x ∧
      v.type ≠ x.type ∧ s.known l = .error (.settingType key x.type v.type) := by
  induction l with
  | nil => exact .inl ⟨nofun, rfl⟩
  | cons e l ih =>
    obtain ⟨key, v⟩ := e
    unfold known
    cases hx : s.get? key with
    | none =>
      have hfits : s.Fits (key, v) := fun x hx' => nomatch hx.symm.trans hx'
      rcases ih with ⟨hall, hok⟩ | ⟨before, k, w, after, x, rfl, hbefore, hk, htype, herror⟩
      · exact .inl ⟨List.forall_mem_cons.2 ⟨hfits, hall⟩, by rw [registered_cons_none hx]; exact hok⟩
      · exact .inr ⟨(key, v) :: before, k, w, after, x, rfl, List.forall_mem_cons.2 ⟨hfits, hbefore⟩, hk, htype, herror⟩
    | some old =>
      by_cases hv : v.type = old.type
      · have hfits : s.Fits (key, v) := fun x hx' => Option.some.inj (hx.symm.trans hx') ▸ hv
        have hcheck : checkType key old.type v.type = .ok () := checkType_eq_ok.2 hv
        rcases ih with ⟨hall, hok⟩ | ⟨before, k, w, after, x, rfl, hbefore, hk, htype, herror⟩
        · refine .inl ⟨List.forall_mem_cons.2 ⟨hfits, hall⟩, ?_⟩
          rw [registered_cons_some hx]
          simp only [hcheck, hok]
          rfl
        · refine .inr ⟨(key, v) :: before, k, w, after, x, rfl, List.forall_mem_cons.2 ⟨hfits, hbefore⟩, hk, htype, ?_⟩
          simp only [hcheck, herror]
          rfl
      · refine .inr ⟨[], key, v, l, old, rfl, nofun, hx, hv, ?_⟩
        simp only [checkType, if_neg hv]
        rfl

theorem fits_of_known {entries : List (String × Value)} (h : s.known l = .ok entries) :
    (∀ e ∈ l, s.Fits e) ∧ entries = s.registered l := by
  rcases s.known_cases l with ⟨hall, hok⟩ | ⟨before, key, v, after, x, -, -, -, -, herror⟩
  · exact ⟨hall, Except.ok.inj (h.symm.trans hok)⟩
  · cases h.symm.trans herror

/-- The value can be written to a setting. -/
def Accepts (s : Settings) (e : String × Value) : Prop := ∃ x, s.get? e.1 = some x ∧ e.2.type = x.type

theorem accepts_of_mem_registered (h : ∀ e ∈ l, s.Fits e) : ∀ e ∈ s.registered l, s.Accepts e := by
  intro e he
  obtain ⟨hmem, hsome⟩ := List.mem_filter.1 he
  obtain ⟨x, hx⟩ := Option.isSome_iff_exists.1 hsome
  exact ⟨x, hx, h e hmem x hx⟩

theorem Change.accepts (h : s.Change s') (he : s.Accepts e) : s'.Accepts e := by
  obtain ⟨x, hx, htype⟩ := he
  obtain ⟨v, hv⟩ := h.kept hx
  exact ⟨_, hv, htype⟩

theorem change_write (he : s.Accepts e) : s.Change (s.write e) := by
  obtain ⟨x, hx, htype⟩ := he
  rw [write, hx]
  exact .write hx htype

private theorem changes_foldl_write (h : ∀ e ∈ l, s.Accepts e) : s.Changes (l.foldl write s) := by
  induction l generalizing s with
  | nil => exact .refl
  | cons e l ih =>
    obtain ⟨he, hrest⟩ := List.forall_mem_cons.1 h
    -- writing one value leaves the types of all settings, so that they take the other values as before
    have hfirst := change_write he
    exact .head hfirst (ih fun e' he' => hfirst.accepts (hrest e' he'))

theorem changes_applySnapshot {snap : Snapshot} {n : Nat} (h : s.applySnapshot snap = .ok (n, s')) : s.Changes s' := by
  obtain ⟨entries, hentries, h⟩ := bind_eq_ok.1 h
  obtain ⟨-, rfl⟩ := Prod.mk.inj (Except.ok.inj h)
  obtain ⟨hfits, rfl⟩ := fits_of_known hentries
  exact changes_foldl_write (accepts_of_mem_registered hfits)

end Graft.Settings
