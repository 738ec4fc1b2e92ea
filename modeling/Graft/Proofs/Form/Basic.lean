import Graft.Form.Basic
import Graft.Proofs.Json.Reading

/-!
# Forms that read what they write

* `Form.Returns` says that a value is read from what is written for it, which is plain and not nested too deep.
* `Form.RoundTrips` says so of all values that a form reads; `Form.rereads_of_roundTrips` draws the conclusion for texts.
* `returns_list`, `returns_record` and the lemmas on fields put forms together from those of their parts.
-/

namespace Graft

namespace Form

variable {α : Type} {f : Form α} {a : α} {as : List α} {c d n : Nat}

/-- What is written for a value is plain, is nested at most `d` deep, and is read as the value. -/
structure Returns (f : Form α) (a : α) (d : Nat) : Prop where
  read : f.read (f.write a) = some a
  plain : (f.write a).Plain
  depth : (f.write a).depth ≤ d

/-- All values that are read can be read from what is written for them, which is nested at most as deep as what was read,
or at most `c` deep. -/
def RoundTrips (f : Form α) (c : Nat) : Prop := ∀ j a, f.read j = some a → f.Returns a (max c j.depth)

/-- A value that was read from a text is read from its own text, on one line or laid out, since that is not nested deeper
than a text may be. -/
def Rereads (f : Form α) : Prop := ∀ (s : String) (a : α), f.ofText? s = some a →
  (f.write a).depth ≤ nesting ∧ f.ofText? (f.text a) = some a ∧ f.ofText? (f.pretty a) = some a

theorem Returns.ofText?_text (h : f.Returns a d) (hd : d ≤ nesting) : f.ofText? (f.text a) = some a := by
  rw [ofText?, text, Json.read?_compact h.plain (Nat.le_trans h.depth hd), Option.bind_some, h.read]

theorem Returns.ofText?_pretty (h : f.Returns a d) (hd : d ≤ nesting) : f.ofText? (f.pretty a) = some a := by
  rw [ofText?, pretty, Json.read?_pretty h.plain (Nat.le_trans h.depth hd), Option.bind_some, h.read]

theorem rereads_of_roundTrips (hf : f.RoundTrips c) (hc : c ≤ nesting) : f.Rereads := by
  intro s a h
  obtain ⟨j, hj, hread⟩ := Option.bind_eq_some_iff.1 h
  have hreturns := hf _ _ hread
  have hshallow : max c j.depth ≤ nesting := Nat.max_le.2 ⟨hc, Json.depth_of_read? hj⟩
  exact ⟨Nat.le_trans hreturns.depth hshallow, hreturns.ofText?_text hshallow, hreturns.ofText?_pretty hshallow⟩

theorem Returns.field (h : f.Returns a d) : (f.write a).Plain ∧ (f.write a).depth ≤ d := ⟨h.plain, h.depth⟩

theorem Returns.mono (h : f.Returns a d) (hd : d ≤ n) : f.Returns a n := ⟨h.read, h.plain, Nat.le_trans h.depth hd⟩

theorem roundTrips_of_returns (h : ∀ a, f.Returns a c) : f.RoundTrips c := fun _ _ _ => (h _).mono (Nat.le_max_left ..)

/-! ### Lists -/

theorem returns_list (h : ∀ a ∈ as, f.Returns a d) : f.list.Returns as (d + 1) := by
  refine ⟨?_, .arr fun j hj => ?_, Nat.succ_le_succ (Json.depthOfItems_le.2 fun j hj => ?_)⟩
  · show (as.map f.write).mapM f.read = some as
    rw [mapM_eq_some_iff, List.forall₂_map_left_iff, List.forall₂_same]
    exact fun a ha => (h a ha).read
  · obtain ⟨a, ha, rfl⟩ := List.mem_map.1 hj
    exact (h a ha).plain
  · obtain ⟨a, ha, rfl⟩ := List.mem_map.1 hj
    exact (h a ha).depth

theorem returns_nil (f : Form α) (d : Nat) : f.list.Returns [] (d + 1) := returns_list nofun

theorem RoundTrips.list (hf : f.RoundTrips c) : f.list.RoundTrips (c + 1) := by
  intro j as h
  cases j with
  | arr items =>
    have hitems := mapM_eq_some_iff.1 h
    have hreturns : f.list.Returns as (max c ((Json.arr items).depth - 1) + 1) := by
      refine returns_list fun a ha => ?_
      obtain ⟨j, hj, hread⟩ := exists_of_mem_right hitems ha
      have := Json.depth_lt_arr hj
      exact (hf _ _ hread).mono (by omega)
    have : 0 < (Json.arr items).depth := Nat.succ_pos _
    exact hreturns.mono (by omega)
  | _ => cases h

/-! ### Fields -/

section Fields

variable {o : Option Json} {absent : α}

@[simp]
theorem required_some (f : Form α) (j : Json) : f.required (some j) = f.read j := rfl

@[simp]
theorem optional_some (f : Form α) (absent : α) (j : Json) : f.optional absent (some j) = f.read j := rfl

theorem RoundTrips.required (hf : f.RoundTrips c) (ho : ∀ j, o = some j → j.depth ≤ n) (h : f.required o = some a) :
    f.Returns a (max c n) := by
  obtain ⟨j, hj, hread⟩ := Option.bind_eq_some_iff.1 h
  have := ho j hj
  exact (hf _ _ hread).mono (by omega)

theorem RoundTrips.optional (hf : f.RoundTrips c) (habsent : f.Returns absent c) (ho : ∀ j, o = some j → j.depth ≤ n)
    (h : f.optional absent o = some a) : f.Returns a (max c n) := by
  cases o with
  | none =>
    obtain rfl := Option.some.inj h
    exact habsent.mono (Nat.le_max_left ..)
  | some j =>
    have := ho j rfl
    exact (hf _ _ h).mono (by omega)

theorem RoundTrips.nullable {a : Option α} (hf : f.RoundTrips c) (ho : ∀ j, o = some j → j.depth ≤ n)
    (h : f.nullable o = some a) : ∀ x ∈ a, f.Returns x (max c n) := by
  intro x hx
  unfold Form.nullable at h
  split at h
  · obtain rfl := Option.some.inj h
    cases hx
  · obtain rfl := Option.some.inj h
    cases hx
  · rename_i j _
    obtain ⟨y, hy, rfl⟩ := Option.map_eq_some_iff.1 h
    obtain rfl := Option.some.inj hx
    have := ho j rfl
    exact (hf _ _ hy).mono (by omega)

theorem nullable_writeNullable {a : Option α} (hnull : f.read .null = none) (h : ∀ x ∈ a, f.Returns x d) :
    f.nullable (some (f.writeNullable a)) = some a ∧ (f.writeNullable a).Plain ∧ (f.writeNullable a).depth ≤ d := by
  cases a with
  | none => exact ⟨rfl, .null, Nat.zero_le _⟩
  | some x =>
    obtain ⟨hread, hplain, hdepth⟩ := h x rfl
    refine ⟨?_, hplain, hdepth⟩
    show f.nullable (some (f.write x)) = _
    unfold Form.nullable
    split
    · rename_i heq
      cases heq
    · rename_i heq
      rw [Option.some.inj heq, hnull] at hread
      cases hread
    · rename_i heq
      obtain rfl := Option.some.inj heq
      rw [hread]
      rfl

end Fields

end Form

/-! ### Records -/

namespace Json

variable {names : List String} {least : Nat} {os : List (Option Json)} {js : List Json} {j : Json}

theorem mem_of_mem_valuesOf {name : String} {fields : List (String × Json)} {j : Json} (h : j ∈ valuesOf name fields) :
    (name, j) ∈ fields := by
  obtain ⟨⟨name', j'⟩, hf, rfl⟩ := List.mem_map.1 h
  obtain ⟨hmem, hname⟩ := List.mem_filter.1 hf
  obtain rfl := beq_iff_eq.1 hname
  exact hmem

/-- The fields of a record are nested less deep than the record. -/
theorem exists_depth_of_record? (h : j.record? names least = some os) :
    ∃ n, j.depth = n + 1 ∧ ∀ o ∈ os, ∀ k, o = some k → k.depth ≤ n := by
  cases j with
  | obj fields =>
    refine ⟨_, rfl, fun o ho k hk => ?_⟩
    obtain ⟨name, -, hname⟩ := exists_of_mem_right (mapM_eq_some_iff.1 h) ho
    subst hk
    have hmem : k ∈ valuesOf name fields := by
      unfold unique? at hname
      split at hname
      · cases hname
      · rename_i hvalues
        obtain rfl := Option.some.inj (Option.some.inj hname)
        rw [hvalues]
        exact List.mem_singleton_self _
      · cases hname
    exact Nat.le_of_lt_succ (depth_lt_obj (mem_of_mem_valuesOf hmem))
  | arr items =>
    refine ⟨_, rfl, fun o ho k hk => ?_⟩
    unfold record? at h
    dsimp only at h
    split at h
    · obtain rfl := Option.some.inj h
      subst hk
      rcases List.mem_append.1 ho with hmem | hmem
      · obtain ⟨k', hk', heq⟩ := List.mem_map.1 hmem
        obtain rfl := Option.some.inj heq
        exact Nat.le_of_lt_succ (depth_lt_arr hk')
      · cases List.eq_of_mem_replicate hmem
    · cases h
  | _ => cases h

private theorem valuesOf_eq_nil {name : String} {fields : List (String × Json)} (h : name ∉ fields.map Prod.fst) :
    valuesOf name fields = [] := by
  refine List.eq_nil_iff_forall_not_mem.2 fun j hj => ?_
  exact h (List.mem_map.2 ⟨_, mem_of_mem_valuesOf hj, rfl⟩)

private theorem valuesOf_zip {name : String} (hnodup : names.Nodup) (hlength : names.length = js.length)
    (h : (name, j) ∈ names.zip js) : valuesOf name (names.zip js) = [j] := by
  induction names generalizing js with
  | nil => cases h
  | cons first names ih =>
    cases js with
    | nil => cases hlength
    | cons k js =>
      obtain ⟨hnew, hnodup⟩ := List.nodup_cons.1 hnodup
      have hkeys : (names.zip js).map Prod.fst = names := List.map_fst_zip (Nat.le_of_eq (Nat.succ.inj hlength))
      rw [List.zip_cons_cons] at h ⊢
      rcases List.mem_cons.1 h with heq | h
      · obtain ⟨rfl, rfl⟩ := Prod.mk.inj heq
        have hrest : valuesOf name (names.zip js) = [] := by
          refine valuesOf_eq_nil ?_
          rwa [hkeys]
        rw [valuesOf] at hrest ⊢
        rw [List.filter_cons_of_pos (by simp), List.map_cons, hrest]
      · have hne : first ≠ name := by
          rintro rfl
          exact hnew (List.of_mem_zip h).1
        have hrest := ih hnodup (Nat.succ.inj hlength) h
        rw [valuesOf] at hrest ⊢
        rw [List.filter_cons_of_neg (by simpa using hne), hrest]

/-- An object with different names is a record of its values. -/
theorem record?_zip (h : j = obj (names.zip js)) (hnodup : names.Nodup) (hlength : names.length = js.length) :
    j.record? names least = some (js.map some) := by
  rw [h]
  show names.mapM (fun name => unique? name (names.zip js)) = _
  rw [mapM_eq_some_iff, List.forall₂_map_right_iff, List.forall₂_iff_zip]
  refine ⟨hlength, fun h => ?_⟩
  rw [unique?, valuesOf_zip hnodup hlength h]

end Json

namespace Form

variable {α : Type} {f : Form α} {a : α} {d : Nat} {names : List String} {js : List Json}

theorem returns_obj (hwrite : f.write a = .obj (names.zip js)) (hread : f.read (f.write a) = some a)
    (hfields : ∀ j ∈ js, j.Plain ∧ j.depth ≤ d) : f.Returns a (d + 1) := by
  have hmem {g : String × Json} (hg : g ∈ names.zip js) : g.2 ∈ js := (List.of_mem_zip hg).2
  refine ⟨hread, hwrite ▸ .obj fun g hg => (hfields _ (hmem hg)).1, ?_⟩
  rw [hwrite]
  exact Nat.succ_le_succ (Json.depthOfFields_le.2 fun g hg => (hfields _ (hmem hg)).2)

/-- A record is read from what is written for it if its fields are read from what is written for them. -/
theorem returns_record (least : Nat) (hwrite : f.write a = .obj (names.zip js)) (hnodup : names.Nodup)
    (hlength : names.length = js.length)
    (hread : ∀ j : Json, j.record? names least = some (js.map some) → f.read j = some a)
    (hfields : ∀ j ∈ js, j.Plain ∧ j.depth ≤ d) : f.Returns a (d + 1) := by
  exact returns_obj hwrite (hread _ (Json.record?_zip hwrite hnodup hlength)) hfields

end Form

end Graft
