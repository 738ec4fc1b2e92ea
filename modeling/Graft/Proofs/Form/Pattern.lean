import Graft.Form.Pattern
import Graft.Proofs.Form.Instruction

/-!
# The form of patterns reads what it writes

Every pattern is read from its tree (`ofJson?_toJson`), which is not nested deeper than any tree from which the pattern was
read (`depth_toJson_le`). The first is an induction on the pattern, the second on the depth to which trees are read.
-/

namespace Graft.Pattern

open Json

variable {p : Pattern} {ps : List Pattern} {kind name : String} {j : Json} {isPart : Bool} {n : Nat}

/-! ### Objects with a kind and one field -/

theorem depth_tagged : (tagged kind name j).depth = j.depth + 1 := by
  simp [tagged, depth, depthOfFields]

theorem plain_tagged (hj : j.Plain) : (tagged kind name j).Plain := by
  refine .obj fun f hf => ?_
  simp only [List.mem_cons, List.not_mem_nil, or_false] at hf
  rcases hf with rfl | rfl
  · exact .str kind
  · exact hj

theorem tagged?_tagged (hname : name ≠ "kind") :
    (tagged kind name j).tagged? "kind" = some (.str kind, tagged kind name j) := by
  simp [tagged, tagged?, valuesOf, hname]

theorem field?_tagged (hname : name ≠ "kind") : field? name (tagged kind name j) = some j := by
  have hkind : "kind" ≠ name := hname.symm
  simp [field?, tagged, record?, unique?, valuesOf, hkind]

/-- A field is nested less deep than the tree in which it is found. -/
private theorem exists_of_field? {α : Type} {read : Json → Option α} {make : α → Pattern}
    (h : ((field? name j).bind read).map make = some p) :
    ∃ k a, k.depth < j.depth ∧ read k = some a ∧ p = make a := by
  obtain ⟨a, ha, rfl⟩ := Option.map_eq_some_iff.1 h
  obtain ⟨k, hk, ha⟩ := Option.bind_eq_some_iff.1 ha
  refine ⟨k, a, ?_, ha, rfl⟩
  unfold field? at hk
  split at hk
  · rename_i hrecord
    obtain ⟨n, hn, hfields⟩ := exists_depth_of_record? hrecord
    have := hfields _ (List.mem_singleton_self _) k hk
    omega
  · cases hk

/-! ### Reading what was written -/

theorem toJsonAll_eq_map (ps : List Pattern) : toJsonAll ps = ps.map toJson := by
  induction ps with
  | nil => rfl
  | cons p ps ih => rw [toJsonAll, ih, List.map_cons]

private theorem parts?_toJsonAll {part? : Json → Option Pattern} (hparts : ∀ p ∈ ps, part? (toJson p) = some p) :
    parts? part? (.arr (toJsonAll ps)) = some ps := by
  rw [parts?, toJsonAll_eq_map, mapM_eq_some_iff, List.forall₂_map_left_iff, List.forall₂_same]
  exact hparts

private theorem nameOf?_str (hkind : kind ∈ kinds) : (Json.str kind).nameOf? kinds isPart = some kind := if_pos hkind

private theorem halfWord?_toInt (n : Int32) : halfWord? (.int n.toInt) = some n := by
  rw [halfWord?, if_pos (.of_toInt n), Int32.ofInt_toInt]

private theorem depth_toJson_pos (p : Pattern) : 0 < (toJson p).depth := by
  cases p <;> exact Nat.succ_pos _

-- Stated for any tree of the number: what is written for it would be compared with the bound of 16 bits in unary.
private theorem ofJson?_ldarg {k : UInt16} (hk : Form.uint16.read j = some k) :
    ofJson? isPart (n + 1) (tagged "ldarg" "index" j) = some (ldarg k) := by
  simp (disch := decide) only [ofJson?, tagged?_tagged, nameOf?_str, field?_tagged, Option.bind_some, hk,
    Option.map_some]

/-- A pattern is read from its tree, alone and as a part. -/
theorem ofJson?_toJson (isPart : Bool) (h : (toJson p).depth ≤ n) : ofJson? isPart n (toJson p) = some p := by
  induction n generalizing p isPart with
  | zero => exact absurd (depth_toJson_pos p) (Nat.not_lt.2 h)
  | succ n ih =>
    have hparts (ps : List Pattern) (hps : depthOfItems (toJsonAll ps) ≤ n) :
        parts? (ofJson? true n) (.arr (toJsonAll ps)) = some ps := by
      rw [toJsonAll_eq_map, depthOfItems_le, List.forall_mem_map] at hps
      exact parts?_toJsonAll fun p hp => ih true (hps p hp)
    cases p with
    | any => simp (disch := decide) [toJson, ofJson?, tagged?, valuesOf, nameOf?_str, record?]
    | opcode op =>
      simp (disch := decide) only [toJson, ofJson?, tagged?_tagged, nameOf?_str, field?_tagged, Option.bind_some,
        op.returns_form.read, Option.map_some]
    | ldcI4 k =>
      simp (disch := decide) only [toJson, ofJson?, tagged?_tagged, nameOf?_str, field?_tagged, Option.bind_some,
        halfWord?_toInt, Option.map_some]
    | constant v =>
      simp (disch := decide) only [toJson, ofJson?, tagged?_tagged, nameOf?_str, field?_tagged, Option.bind_some,
        v.ofJson?_write, Option.map_some]
    | ldarg k => exact ofJson?_ldarg (Form.returns_uint16 k).read
    | and ps =>
      rw [toJson, depth_tagged, depth] at h
      simp (disch := decide) only [toJson, ofJson?, tagged?_tagged, nameOf?_str, field?_tagged, Option.bind_some,
        hparts ps (by omega), Option.map_some]
    | or ps =>
      rw [toJson, depth_tagged, depth] at h
      simp (disch := decide) only [toJson, ofJson?, tagged?_tagged, nameOf?_str, field?_tagged, Option.bind_some,
        hparts ps (by omega), Option.map_some]
    | not p =>
      rw [toJson, depth_tagged] at h
      simp (disch := decide) only [toJson, ofJson?, tagged?_tagged, nameOf?_str, field?_tagged, Option.bind_some,
        ih true (p := p) (by omega), Option.map_some]

mutual

theorem plain_toJson : (p : Pattern) → (toJson p).Plain
  | any => .obj fun _ hf => List.mem_singleton.1 hf ▸ .str _
  | opcode op => plain_tagged op.returns_form.plain
  | ldcI4 n => plain_tagged (.int (InHalfWord.of_toInt n).fits64)
  | constant v => plain_tagged v.returns_form.plain
  | ldarg n => plain_tagged (Form.returns_uint16 n).plain
  | and ps => plain_tagged (.arr (plain_toJsonAll ps))
  | or ps => plain_tagged (.arr (plain_toJsonAll ps))
  | not p => plain_tagged (plain_toJson p)

theorem plain_toJsonAll : (ps : List Pattern) → ∀ j ∈ toJsonAll ps, j.Plain
  | [] => nofun
  | p :: ps => List.forall_mem_cons.2 ⟨plain_toJson p, plain_toJsonAll ps⟩

end

/-! ### Depth -/

private theorem depth_pos_of_tagged? {k tree : Json} (h : j.tagged? name = some (k, tree)) :
    0 < j.depth ∧ tree.depth ≤ j.depth := by
  unfold tagged? at h
  split at h
  · split at h
    · obtain ⟨-, rfl⟩ := Prod.mk.inj (Option.some.inj h)
      exact ⟨Nat.succ_pos _, Nat.le_refl _⟩
    · cases h
  · obtain ⟨-, rfl⟩ := Prod.mk.inj (Option.some.inj h)
    refine ⟨Nat.succ_pos _, Nat.succ_le_succ ?_⟩
    rw [depthOfItems]
    exact Nat.le_max_right ..
  · cases h

private theorem depth_pos_of_value {inPattern : Bool} {v : Value} (h : Value.ofJson? inPattern j = some v) :
    0 < j.depth := by
  unfold Value.ofJson? at h
  split at h
  · exact Nat.succ_pos _
  · exact Nat.succ_pos _
  · cases h

private theorem depth_of_parts? {part? : Json → Option Pattern}
    (hpart : ∀ {j p}, part? j = some p → (toJson p).depth ≤ j.depth) (h : parts? part? j = some ps) :
    depthOfItems (toJsonAll ps) < j.depth := by
  unfold parts? at h
  split at h
  · rw [toJsonAll_eq_map, depth, Nat.lt_succ_iff, depthOfItems_le, List.forall_mem_map]
    intro p hp
    obtain ⟨j, hj, hread⟩ := exists_of_mem_right (mapM_eq_some_iff.1 h) hp
    exact Nat.le_trans (hpart hread) (depthOfItems_le.1 (Nat.le_refl _) j hj)
  · cases h

/-- A pattern is written at most as deep as the tree from which it was read. -/
theorem depth_toJson_le (h : ofJson? isPart n j = some p) : (toJson p).depth ≤ j.depth := by
  induction n generalizing p isPart j with
  | zero =>
    rw [ofJson?] at h
    cases h
  | succ n ih =>
    rw [ofJson?] at h
    split at h
    · cases h
    · rename_i htagged
      obtain ⟨hpos, htree⟩ := depth_pos_of_tagged? htagged
      split at h
      · obtain ⟨-, -, rfl⟩ := Option.map_eq_some_iff.1 h
        exact hpos
      · obtain ⟨k, op, -, -, rfl⟩ := exists_of_field? h
        rw [toJson, depth_tagged]
        exact hpos
      · obtain ⟨k, z, -, -, rfl⟩ := exists_of_field? h
        rw [toJson, depth_tagged]
        exact hpos
      · obtain ⟨k, v, hk, hv, rfl⟩ := exists_of_field? h
        have hdepth := v.returns_form.depth
        have hvalue := depth_pos_of_value hv
        rw [toJson, depth_tagged]
        omega
      · obtain ⟨k, m, -, -, rfl⟩ := exists_of_field? h
        rw [toJson, depth_tagged]
        exact hpos
      · obtain ⟨k, ps, hk, hps, rfl⟩ := exists_of_field? h
        have hps := depth_of_parts? ih hps
        rw [toJson, depth_tagged, depth]
        omega
      · obtain ⟨k, ps, hk, hps, rfl⟩ := exists_of_field? h
        have hps := depth_of_parts? ih hps
        rw [toJson, depth_tagged, depth]
        omega
      · obtain ⟨k, q, hk, hq, rfl⟩ := exists_of_field? h
        have hq := ih hq
        rw [toJson, depth_tagged]
        omega
      · cases h

theorem roundTrips_form : form.RoundTrips 0 := by
  intro j p h
  change (if j.isSound then ofJson? false j.depth j else none) = some p at h
  split at h
  · have hplain := plain_toJson p
    refine ⟨?_, hplain, Nat.le_trans (depth_toJson_le h) (Nat.le_max_right ..)⟩
    show (if (toJson p).isSound then ofJson? false (toJson p).depth (toJson p) else none) = some p
    rw [if_pos hplain.isSound, ofJson?_toJson false (Nat.le_refl _)]
  · cases h

end Graft.Pattern
