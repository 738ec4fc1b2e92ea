import Graft.Dict

/-!
# Insertions into dictionaries

An insertion changes what is under its key and nothing else. It keeps the keys in order; the entries of a dictionary in
order give the same dictionary again (`ofList_toList`).
-/

namespace Graft.Dict

variable {κ α : Type} [DecidableEq κ] [LT κ] [DecidableLT κ]

private theorem lookup_insertEntry_self (k : κ) (v : α) (l : List (κ × α)) :
    (insertEntry k v l).lookup k = some v := by
  induction l with
  | nil => exact List.lookup_cons_self
  | cons e l ih =>
    obtain ⟨k', v'⟩ := e
    unfold insertEntry
    split
    · exact List.lookup_cons_self
    · rename_i hk
      split
      · exact List.lookup_cons_self
      · rw [List.lookup_cons, beq_eq_false_iff_ne.2 hk]
        exact ih

private theorem lookup_insertEntry_of_ne {k k' : κ} (hne : k' ≠ k) (v : α) (l : List (κ × α)) :
    (insertEntry k v l).lookup k' = l.lookup k' := by
  have hbeq : (k' == k) = false := beq_eq_false_iff_ne.2 hne
  induction l with
  | nil => rw [insertEntry, List.lookup_cons, hbeq]
  | cons e l ih =>
    obtain ⟨k₁, v₁⟩ := e
    unfold insertEntry
    split
    · rename_i hk
      rw [List.lookup_cons, List.lookup_cons, ← hk, hbeq]
    · split
      · rw [List.lookup_cons, hbeq]
      · rw [List.lookup_cons, List.lookup_cons, ih]

theorem get?_insert_self (d : Dict κ α) (k : κ) (v : α) : (d.insert k v).get? k = some v :=
  lookup_insertEntry_self k v d.toList

theorem get?_insert_of_ne (d : Dict κ α) {k k' : κ} (hne : k' ≠ k) (v : α) : (d.insert k v).get? k' = d.get? k' :=
  lookup_insertEntry_of_ne hne v d.toList

omit [LT κ] [DecidableLT κ] in
theorem get?_map {β : Type} (d : Dict κ α) (f : α → β) (k : κ) : (d.map f).get? k = (d.get? k).map f := by
  obtain ⟨l⟩ := d
  show (l.map fun e => (e.1, f e.2)).lookup k = (l.lookup k).map f
  induction l with
  | nil => rfl
  | cons e l ih =>
    rw [List.map_cons, List.lookup_cons, List.lookup_cons, ih]
    split <;> rfl

/-! ### Order -/

/-- The keys are in increasing order. -/
def Sorted (d : Dict κ α) : Prop := d.toList.Pairwise fun e e' => e.1 < e'.1

omit [DecidableEq κ] [DecidableLT κ] in
theorem Sorted.map {β : Type} {d : Dict κ α} (hd : d.Sorted) (f : α → β) : (d.map f).Sorted := List.pairwise_map.2 hd

private theorem mem_insertEntry {k : κ} {v : α} {l : List (κ × α)} {e : κ × α} (h : e ∈ insertEntry k v l) :
    e = (k, v) ∨ e ∈ l := by
  induction l with
  | nil => exact .inl (List.mem_singleton.1 h)
  | cons e' l ih =>
    unfold insertEntry at h
    split at h
    · rcases List.mem_cons.1 h with rfl | h
      · exact .inl rfl
      · exact .inr (List.mem_cons_of_mem _ h)
    · split at h
      · exact List.mem_cons.1 h
      · rcases List.mem_cons.1 h with rfl | h
        · exact .inr List.mem_cons_self
        · exact (ih h).imp id (List.mem_cons_of_mem _)

variable [LE κ] [Std.LawfulOrderLT κ]

private theorem insertEntry_last {k : κ} {v : α} {l : List (κ × α)} (h : ∀ e ∈ l, e.1 < k) :
    insertEntry k v l = l ++ [(k, v)] := by
  induction l with
  | nil => rfl
  | cons e l ih =>
    obtain ⟨hlt, h⟩ := List.forall_mem_cons.1 h
    have hne : k ≠ e.1 := (Std.ne_of_lt hlt).symm
    rw [insertEntry, if_neg hne, if_neg (Std.not_gt_of_lt hlt), ih h, List.cons_append]

/-- Entries that are inserted in order stay as they are. -/
theorem ofList_toList {d : Dict κ α} (hd : d.Sorted) : ofList d.toList = d := by
  suffices h : ∀ l l' : List (κ × α), (l' ++ l).Pairwise (fun e e' => e.1 < e'.1) →
      l.foldl (fun d e => d.insert e.1 e.2) (⟨l'⟩ : Dict κ α) = ⟨l' ++ l⟩ from h d.toList [] hd
  intro l
  induction l with
  | nil => exact fun l' _ => by rw [List.append_nil, List.foldl_nil]
  | cons e l ih =>
    intro l' h
    have hlast : (⟨l'⟩ : Dict κ α).insert e.1 e.2 = ⟨l' ++ [e]⟩ := by
      rw [Dict.insert, insertEntry_last fun e' he' => (List.pairwise_append.1 h).2.2 e' he' e List.mem_cons_self]
    rw [List.foldl_cons, hlast, ih _ (by rwa [List.append_assoc]), List.append_assoc, List.singleton_append]

omit [DecidableEq κ] [DecidableLT κ] in
theorem Sorted.nodup_keys {d : Dict κ α} (hd : d.Sorted) : d.keys.Nodup :=
  List.pairwise_map.2 (hd.imp fun hlt => Std.ne_of_lt hlt)

omit [DecidableLT κ] in
/-- The entries are what is found under their keys. -/
theorem Sorted.get?_of_mem {d : Dict κ α} (hd : d.Sorted) {e : κ × α} (he : e ∈ d.toList) : d.get? e.1 = some e.2 := by
  obtain ⟨before, after, hsplit⟩ := List.append_of_mem he
  have hlt : ∀ e' ∈ before, e'.1 < e.1 := by
    unfold Sorted at hd
    rw [hsplit] at hd
    exact fun e' he' => (List.pairwise_append.1 hd).2.2 e' he' e List.mem_cons_self
  refine List.lookup_eq_some_iff.2 ⟨before, after, hsplit, fun e' he' => ?_⟩
  exact bne_iff_ne.2 (Std.ne_of_lt (hlt e' he')).symm

variable [Std.IsLinearOrder κ]

private theorem pairwise_insertEntry {k : κ} {v : α} {l : List (κ × α)} (h : l.Pairwise fun e e' => e.1 < e'.1) :
    (insertEntry k v l).Pairwise fun e e' => e.1 < e'.1 := by
  induction l with
  | nil => exact List.pairwise_singleton _ _
  | cons e l ih =>
    obtain ⟨hfirst, hrest⟩ := List.pairwise_cons.1 h
    unfold insertEntry
    split
    · rename_i heq
      exact List.pairwise_cons.2 ⟨heq ▸ hfirst, hrest⟩
    · rename_i hne
      split
      · rename_i hlt
        refine List.pairwise_cons.2 ⟨fun e' he' => ?_, h⟩
        rcases List.mem_cons.1 he' with rfl | he'
        · exact hlt
        · exact Std.lt_trans hlt (hfirst e' he')
      · rename_i hnot
        have hgt : e.1 < k := ((Std.lt_trichotomy k e.1).resolve_left hnot).resolve_left hne
        refine List.pairwise_cons.2 ⟨fun e' he' => ?_, ih hrest⟩
        rcases mem_insertEntry he' with rfl | he'
        · exact hgt
        · exact hfirst e' he'

theorem Sorted.insert {d : Dict κ α} (hd : d.Sorted) (k : κ) (v : α) : (d.insert k v).Sorted := pairwise_insertEntry hd

theorem sorted_ofList (l : List (κ × α)) : (ofList l).Sorted := by
  suffices h : ∀ d : Dict κ α, d.Sorted → (l.foldl (fun d e => d.insert e.1 e.2) d).Sorted from h {} .nil
  induction l with
  | nil => exact fun d hd => hd
  | cons e l ih => exact fun d hd => ih _ (hd.insert e.1 e.2)

end Graft.Dict
