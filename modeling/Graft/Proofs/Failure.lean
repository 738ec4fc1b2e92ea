import Mathlib.Data.List.Forall2

/-!
# Computations that may fail

When a computation in `Except` gives a result, so do its parts. Lists of results correspond to lists of computations
element by element.
-/

namespace Graft

variable {ε α β : Type}

theorem bind_eq_ok {x : Except ε α} {g : α → Except ε β} {r : β} :
    x >>= g = .ok r ↔ ∃ a, x = .ok a ∧ g a = .ok r := by
  cases x with
  | error e => simp [bind, Except.bind]
  | ok a => simp [bind, Except.bind]

theorem map_eq_ok {x : Except ε α} {g : α → β} {r : β} : x.map g = .ok r ↔ ∃ a, x = .ok a ∧ g a = r := by
  cases x with
  | error e => simp [Except.map]
  | ok a => simp [Except.map]

theorem map_eq_error {x : Except ε α} {g : α → β} {e : ε} : x.map g = .error e ↔ x = .error e := by
  cases x with
  | error e' => simp [Except.map]
  | ok a => simp [Except.map]

theorem mapError_eq_ok {ε' : Type} {x : Except ε α} {g : ε → ε'} {a : α} : x.mapError g = .ok a ↔ x = .ok a := by
  cases x with
  | error e => simp [Except.mapError]
  | ok a' => simp [Except.mapError]

theorem toOption_eq_some {x : Except ε α} {a : α} : x.toOption = some a ↔ x = .ok a := by
  cases x with
  | error e => simp [Except.toOption]
  | ok a' => simp [Except.toOption]

/-- What every step of a chain of computations keeps, the whole chain keeps. -/
theorem foldlM_keeps {P : α → Prop} {g : α → β → Except ε α} (hstep : ∀ a b a', P a → g a b = .ok a' → P a')
    (l : List β) {a r : α} (ha : P a) (h : l.foldlM g a = .ok r) : P r := by
  induction l generalizing a with
  | nil =>
    rw [List.foldlM_nil] at h
    exact Except.ok.inj h ▸ ha
  | cons b l ih =>
    rw [List.foldlM_cons] at h
    obtain ⟨a', ha', hrest⟩ := bind_eq_ok.1 h
    exact ih (hstep a b a' ha ha') hrest

/-! ### Errors of one kind -/

/-- Whatever the computation fails with has the property. -/
structure FailsOnly (P : ε → Prop) (x : Except ε α) : Prop where
  error : ∀ e, x = .error e → P e

section FailsOnly

variable {P : ε → Prop}

theorem failsOnly_ok (a : α) : FailsOnly P (.ok a : Except ε α) := ⟨nofun⟩

theorem failsOnly_error {e : ε} (h : P e) : FailsOnly P (.error e : Except ε α) := ⟨fun _ he => Except.error.inj he ▸ h⟩

theorem FailsOnly.bind {x : Except ε α} {g : α → Except ε β} (hx : FailsOnly P x) (hg : ∀ a, FailsOnly P (g a)) :
    FailsOnly P (x >>= g) := by
  refine ⟨fun e he => ?_⟩
  cases x with
  | error e' =>
    obtain rfl : e' = e := Except.error.inj he
    exact hx.error e' rfl
  | ok a => exact (hg a).error e he

end FailsOnly

/-! ### Lists that correspond element by element -/

section Forall₂

variable {γ : Type} {R : α → β → Prop} {as : List α} {bs : List β}

theorem exists_of_mem_left (h : List.Forall₂ R as bs) {a : α} (ha : a ∈ as) : ∃ b ∈ bs, R a b := by
  induction h with
  | nil => cases ha
  | cons hfirst _ ih =>
    rcases List.mem_cons.1 ha with rfl | ha
    · exact ⟨_, List.mem_cons_self, hfirst⟩
    · obtain ⟨b, hb, hab⟩ := ih ha
      exact ⟨b, List.mem_cons_of_mem _ hb, hab⟩

theorem exists_of_mem_right (h : List.Forall₂ R as bs) {b : β} (hb : b ∈ bs) : ∃ a ∈ as, R a b :=
  exists_of_mem_left h.flip hb

theorem exists_getElem?_of_forall₂ (h : List.Forall₂ R as bs) {k : Nat} {a : α} (ha : as[k]? = some a) :
    ∃ b, bs[k]? = some b ∧ R a b := by
  induction h generalizing k with
  | nil => cases ha
  | cons hfirst _ ih =>
    cases k with
    | zero =>
      obtain rfl := Option.some.inj ha
      exact ⟨_, rfl, hfirst⟩
    | succ k =>
      rw [List.getElem?_cons_succ] at ha
      exact ih ha

theorem exists_forall₂ (h : ∀ a ∈ as, ∃ b, R a b) : ∃ bs, List.Forall₂ R as bs := by
  induction as with
  | nil => exact ⟨[], .nil⟩
  | cons a as ih =>
    obtain ⟨b, hb⟩ := h a List.mem_cons_self
    obtain ⟨bs, hbs⟩ := ih fun a ha => h a (List.mem_cons_of_mem _ ha)
    exact ⟨b :: bs, .cons hb hbs⟩

/-- What is made of the elements of two lists is the same if it is the same for the elements that stand at one place. -/
theorem map_eq_of_forall₂ (h : List.Forall₂ R as bs) {u : α → γ} {v : β → γ} (huv : ∀ a b, R a b → u a = v b) :
    as.map u = bs.map v := by
  induction h with
  | nil => rfl
  | cons hhead _ ih => rw [List.map_cons, List.map_cons, huv _ _ hhead, ih]

theorem filterMap_eq_of_forall₂ (h : List.Forall₂ R as bs) {u : α → Option γ} {v : β → Option γ}
    (huv : ∀ a b, R a b → u a = v b) : as.filterMap u = bs.filterMap v := by
  have hmap := congrArg (List.filterMap id) (map_eq_of_forall₂ h huv)
  simpa only [List.filterMap_map, Function.id_comp] using hmap

theorem flatMap_eq_of_forall₂ (h : List.Forall₂ R as bs) {u : α → List γ} {v : β → List γ}
    (huv : ∀ a b, R a b → u a = v b) : as.flatMap u = bs.flatMap v := by
  rw [List.flatMap_def, List.flatMap_def, map_eq_of_forall₂ h huv]

theorem forall₂_zipIdx (h : List.Forall₂ R as bs) (n : Nat) :
    List.Forall₂ (fun x y => R x.1 y.1 ∧ x.2 = y.2) (as.zipIdx n) (bs.zipIdx n) := by
  induction h generalizing n with
  | nil => exact .nil
  | cons hhead _ ih => exact .cons ⟨hhead, rfl⟩ (ih (n + 1))

/-- Correspondences can be put together. -/
theorem forall₂_trans {S : β → γ → Prop} {T : α → γ → Prop} {cs : List γ} (h : List.Forall₂ R as bs)
    (h' : List.Forall₂ S bs cs) (hT : ∀ a b c, R a b → S b c → T a c) : List.Forall₂ T as cs := by
  induction h generalizing cs with
  | nil =>
    cases h'
    exact .nil
  | cons hfirst _ ih =>
    cases h' with
    | cons hfirst' hrest' => exact .cons (hT _ _ _ hfirst hfirst') (ih hrest')

/-- The results of a list of computations are those of its elements. -/
theorem mapM_eq_some_iff {f : α → Option β} :
    as.mapM f = some bs ↔ List.Forall₂ (fun a b => f a = some b) as bs := by
  induction as generalizing bs with
  | nil => simp [eq_comm]
  | cons a as ih =>
    rw [List.mapM_cons, List.forall₂_cons_left_iff]
    simp only [Option.bind_eq_bind, Option.bind_eq_some_iff, Option.pure_def, Option.some.injEq, ih]
    constructor
    · rintro ⟨b, hb, bs, hbs, rfl⟩
      exact ⟨b, bs, hb, hbs, rfl⟩
    · rintro ⟨b, bs, hb, hbs, rfl⟩
      exact ⟨b, hb, bs, hbs, rfl⟩

/-- The results of a list of computations that may fail are those of its elements. -/
theorem mapM_eq_ok_iff {g : α → Except ε β} :
    as.mapM g = .ok bs ↔ List.Forall₂ (fun a b => g a = .ok b) as bs := by
  induction as generalizing bs with
  | nil =>
    rw [List.mapM_nil, List.forall₂_nil_left_iff]
    exact ⟨fun h => (Except.ok.inj h).symm, fun h => h ▸ rfl⟩
  | cons a as ih =>
    rw [List.mapM_cons, List.forall₂_cons_left_iff]
    constructor
    · intro h
      obtain ⟨b, hb, h⟩ := bind_eq_ok.1 h
      obtain ⟨bs', hbs', h⟩ := bind_eq_ok.1 h
      exact ⟨b, bs', hb, ih.1 hbs', (Except.ok.inj h).symm⟩
    · rintro ⟨b, bs', hb, hbs', rfl⟩
      exact bind_eq_ok.2 ⟨b, hb, bind_eq_ok.2 ⟨bs', ih.2 hbs', rfl⟩⟩

end Forall₂

/-- If a list of computations gives results, so does each of them. -/
theorem exists_of_mapM {g : α → Except ε β} {l : List α} {rs : List β} (h : l.mapM g = .ok rs) {a : α} (ha : a ∈ l) :
    ∃ r, g a = .ok r := by
  obtain ⟨r, -, hr⟩ := exists_of_mem_left (mapM_eq_ok_iff.1 h) ha
  exact ⟨r, hr⟩

end Graft
