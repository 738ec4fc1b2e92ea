import Graft.Proofs.Assembly.Drafts
import Mathlib.Data.List.Nodup

/-!
# Identities of instructions

An identity names one instruction of a body only, and is given to a new instruction once.

* `Body.Numbered` says so of a body; it holds of every body that is read from a text (`numbered_of_bodies`), and every
  edit keeps it.
* `positionOf?_eq_some_iff` says that the position of an identity is the one at which the identity stands.
-/

namespace Graft

namespace Body

variable {b b' : Body}

/-- The identities of the instructions of a body are different, and none of them is one to be given out later. -/
structure Numbered (b : Body) : Prop where
  nodup : (b.entries.map Entry.id).Nodup
  fresh : ∀ e ∈ b.entries, e.id.number < b.nextId

theorem Numbered.freshId_not_mem (h : b.Numbered) : b.freshId ∉ b.entries.map Entry.id := by
  intro hmem
  obtain ⟨e, he, hid⟩ := List.mem_map.1 hmem
  have := h.fresh e he
  rw [hid] at this
  exact Nat.lt_irrefl _ this

/-- Two instructions of one identity are the same. -/
theorem Numbered.ext (h : b.Numbered) {e e' : Entry} (he : e ∈ b.entries) (he' : e' ∈ b.entries) (hid : e.id = e'.id) :
    e = e' :=
  List.inj_on_of_nodup_map h.nodup he he' hid

theorem id?_of_getElem? {p : Nat} {e : Entry} (he : b.entries[p]? = some e) : b.id? p = some e.id := by
  rw [id?, he, Option.map_some]

theorem instr?_of_getElem? {p : Nat} {e : Entry} (he : b.entries[p]? = some e) : b.instr? p = some e.instr := by
  rw [instr?, he, Option.map_some]

theorem mem_ids_of_id? {p : Nat} {t : InstrId} (h : b.id? p = some t) : t ∈ b.entries.map Entry.id := by
  obtain ⟨e, he, rfl⟩ := Option.map_eq_some_iff.1 h
  exact List.mem_map_of_mem (List.mem_of_getElem? he)

/-- The position of an identity is the one at which it stands. -/
theorem positionOf?_eq_some_iff (h : b.Numbered) {t : InstrId} {p : Nat} : b.positionOf? t = some p ↔ b.id? p = some t := by
  simp only [positionOf?, List.findIdx?_eq_some_iff_getElem, beq_iff_eq, id?, Option.map_eq_some_iff,
    List.getElem?_eq_some_iff]
  constructor
  · rintro ⟨hp, hid, -⟩
    exact ⟨_, ⟨hp, rfl⟩, hid⟩
  · rintro ⟨e, ⟨hp, rfl⟩, hid⟩
    refine ⟨hp, hid, fun q hq hsame => ?_⟩
    -- the same identity at an earlier position would be that of the same entry
    have hentries := h.ext (List.getElem_mem (Nat.lt_trans hq hp)) (List.getElem_mem hp) (hsame.trans hid.symm)
    have := (List.Nodup.getElem_inj_iff (List.Nodup.of_map Entry.id h.nodup)).1 hentries
    omega

/-- An identity stands at one position only. -/
theorem Numbered.eq_of_id? (h : b.Numbered) {t : InstrId} {p q : Nat} (hp : b.id? p = some t) (hq : b.id? q = some t) :
    p = q :=
  Option.some.inj (((positionOf?_eq_some_iff h).2 hp).symm.trans ((positionOf?_eq_some_iff h).2 hq))

/-! ### Edits -/

theorem erase_ok_iff {p : Nat} {e : Entry} : b.erase p = .ok (e, b') ↔
    b.entries[p]? = some e ∧ b' = { b with entries := b.entries.eraseIdx p } := by
  unfold erase
  cases b.entries[p]? with
  | none => simp
  | some e' => simp [eq_comm]

theorem insert_ok_iff {p : Nat} {i : Instruction} : b.insert p i = .ok b' ↔
    p ≤ b.length ∧ b' = { b with entries := b.entries.insertIdx p ⟨b.freshId, i⟩, nextId := b.nextId + 1 } := by
  unfold insert
  split <;> simp [*, eq_comm]

/-- To insert at the end is to push. -/
theorem insert_length (b : Body) (i : Instruction) : b.insert b.length i = .ok (b.push i) := by
  refine insert_ok_iff.2 ⟨Nat.le_refl _, ?_⟩
  rw [push, length, List.insertIdx_length_self]

theorem bind_ok_iff {x : Binding} {n : UInt16} : b.bind x = .ok (n, b') ↔
    b.externals.size < maxExternals ∧ n = UInt16.ofNat b.externals.size ∧
      b' = { b with externals := b.externals.push x } := by
  unfold bind
  dsimp only
  split <;> simp [*, eq_comm]

/-- An edit that keeps the identities, or some of them, keeps a body numbered. -/
private theorem Numbered.of_sublist (h : b.Numbered)
    (hids : (b'.entries.map Entry.id).Sublist (b.entries.map Entry.id)) (hnext : b'.nextId = b.nextId) :
    b'.Numbered := by
  refine ⟨h.nodup.sublist hids, fun e he => ?_⟩
  obtain ⟨e', he', hid⟩ := List.mem_map.1 (hids.subset (List.mem_map_of_mem he))
  rw [hnext, ← hid]
  exact h.fresh e' he'

/-- Moving labels changes no identity. -/
theorem ids_retarget (b : Body) (source target : InstrId) :
    (b.retarget source target).entries.map Entry.id = b.entries.map Entry.id := by
  rw [Body.retarget, List.map_map]
  rfl

theorem ids_retargetOnly (b : Body) (ids : List InstrId) (source target : InstrId) :
    (b.retargetOnly ids source target).entries.map Entry.id = b.entries.map Entry.id := by
  rw [Body.retargetOnly, List.map_map]
  refine List.map_congr_left fun e _ => ?_
  dsimp only [Function.comp_apply]
  split <;> rfl

theorem id?_retarget (b : Body) (source target : InstrId) (p : Nat) : (b.retarget source target).id? p = b.id? p := by
  rw [id?, id?, ← List.getElem?_map, ids_retarget, List.getElem?_map]

theorem Numbered.retarget (h : b.Numbered) (source target : InstrId) : (b.retarget source target).Numbered := by
  refine h.of_sublist ?_ rfl
  rw [ids_retarget]

theorem Numbered.retargetOnly (h : b.Numbered) (ids : List InstrId) (source target : InstrId) :
    (b.retargetOnly ids source target).Numbered := by
  refine h.of_sublist ?_ rfl
  rw [ids_retargetOnly]

theorem Numbered.erase (h : b.Numbered) {p : Nat} {e : Entry} (he : b.erase p = .ok (e, b')) : b'.Numbered := by
  obtain ⟨-, rfl⟩ := erase_ok_iff.1 he
  exact h.of_sublist ((List.eraseIdx_sublist b.entries p).map Entry.id) rfl

theorem Numbered.insert (h : b.Numbered) {p : Nat} {i : Instruction} (hb : b.insert p i = .ok b') : b'.Numbered := by
  obtain ⟨hp, rfl⟩ := insert_ok_iff.1 hb
  have hperm : (b.entries.insertIdx p ⟨b.freshId, i⟩).Perm (⟨b.freshId, i⟩ :: b.entries) :=
    List.perm_insertIdx _ _ hp
  constructor
  · exact (hperm.map Entry.id).nodup_iff.2 (List.nodup_cons.2 ⟨h.freshId_not_mem, h.nodup⟩)
  · intro e he
    rcases List.mem_cons.1 (hperm.mem_iff.1 he) with rfl | he
    · exact Nat.lt_succ_self _
    · exact Nat.lt_succ_of_lt (h.fresh e he)

theorem Numbered.push (h : b.Numbered) (i : Instruction) : (b.push i).Numbered := h.insert (insert_length b i)

theorem Numbered.bind (h : b.Numbered) {x : Binding} {n : UInt16} (hb : b.bind x = .ok (n, b')) : b'.Numbered := by
  obtain ⟨-, -, rfl⟩ := bind_ok_iff.1 hb
  exact h.of_sublist (List.Sublist.refl _) rfl

end Body

/-! ### Bodies of a text -/

namespace Assembly

/-- The instructions of a text are numbered from 0 on. -/
theorem ids_of_zipIdx {b : Body} {instrs : List Instruction}
    (hentries : b.entries = instrs.zipIdx.map fun (i, n) => ⟨⟨n⟩, i⟩) :
    b.entries.map Entry.id = (List.range instrs.length).map InstrId.mk := by
  have hids : (instrs.zipIdx.map fun x => (⟨⟨x.2⟩, x.1⟩ : Entry)).map Entry.id =
      (instrs.zipIdx.map Prod.snd).map InstrId.mk := by
    rw [List.map_map, List.map_map]
    rfl
  rw [hentries, hids, List.zipIdx_map_snd, List.range_eq_range']

theorem numbered_of_zipIdx {b : Body} {instrs : List Instruction}
    (hentries : b.entries = instrs.zipIdx.map fun (i, n) => ⟨⟨n⟩, i⟩) (hnext : b.nextId = instrs.length) : b.Numbered := by
  constructor
  · rw [ids_of_zipIdx hentries]
    exact List.Nodup.map (fun m n hmn => InstrId.mk.inj hmn) List.nodup_range
  · intro e he
    rw [hentries] at he
    obtain ⟨x, hx, rfl⟩ := List.mem_map.1 he
    rw [hnext]
    exact List.snd_lt_of_mem_zipIdx hx

/-- A body of a text is assembled from a draft. -/
private theorem assembled_of_bodies {src : List Char} {bs : List Body} (h : bodies src = .ok bs) {b : Body}
    (hb : b ∈ bs) : ∃ d : Draft, d.assemble = .ok b := by
  obtain ⟨-, secs, -, hbodies⟩ := bodies_eq_ok.1 h
  obtain ⟨s, -, hs⟩ := exists_of_mem_right hbodies hb
  obtain ⟨id, sig, d, -, -, hd⟩ := Section.body_eq_ok.1 hs
  exact ⟨d, hd⟩

/-- All bodies of a text are numbered. -/
theorem numbered_of_bodies {src : List Char} {bs : List Body} (h : bodies src = .ok bs) {b : Body} (hb : b ∈ bs) :
    b.Numbered := by
  obtain ⟨d, hd⟩ := assembled_of_bodies h hb
  obtain ⟨-, instrs, -, rfl⟩ := Draft.assemble_eq_ok.1 hd
  exact numbered_of_zipIdx rfl rfl

/-- No body of a text takes external values. -/
theorem externals_of_bodies {src : List Char} {bs : List Body} (h : bodies src = .ok bs) {b : Body} (hb : b ∈ bs) :
    b.externals = #[] := by
  obtain ⟨d, hd⟩ := assembled_of_bodies h hb
  obtain ⟨-, instrs, -, rfl⟩ := Draft.assemble_eq_ok.1 hd
  rfl

end Assembly

end Graft
