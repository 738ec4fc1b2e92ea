import Graft.Proofs.Body.Substitution
import Mathlib.Data.List.Forall2

/-!
# Padded bodies

A body is padded with a `nop`, which moves the instructions behind it by one position. A branch to where it is put may go
to it or pass it by, which makes no difference.

* `padded` and `unpadded` are the positions of an instruction in the one body and in the other.
* `Body.Padded` says that a body is another one, padded.
* `Body.padded_insert` and `Body.padded_erase` say that putting in a `nop`, and taking one out, come to this.
-/

namespace Graft

variable {b b' : Body} {p q x : Nat} {i i' : Instruction}

/-! ### Positions -/

/-- The position in a padded body of the instruction at position `q`. -/
def padded (p q : Nat) : Nat := if q < p then q else q + 1

/-- The position of the instruction that control has come to at position `x` of a padded body. From the `nop` it only goes
on to the next one. -/
def unpadded (p x : Nat) : Nat := if x ≤ p then x else x - 1

theorem unpadded_padded (p q : Nat) : unpadded p (padded p q) = q := by
  unfold unpadded padded
  split <;> split <;> omega

theorem padded_unpadded (hx : x ≠ p) : padded p (unpadded p x) = x := by
  unfold unpadded padded
  split <;> split <;> omega

theorem padded_self (p : Nat) : padded p p = p + 1 := if_neg (Nat.lt_irrefl p)

theorem padded_ne (p q : Nat) : padded p q ≠ p := by
  unfold padded
  split <;> omega

theorem padded_of_le (h : p ≤ q) : padded p q = q + 1 := if_neg (Nat.not_lt.2 h)

theorem unpadded_self (p : Nat) : unpadded p p = p := if_pos (Nat.le_refl p)

theorem unpadded_zero (p : Nat) : unpadded p 0 = 0 := if_pos (Nat.zero_le p)

/-- Going on from an instruction other than the `nop` is going on by one position. -/
theorem unpadded_succ (hx : x ≠ p) : unpadded p (x + 1) = unpadded p x + 1 := by
  unfold unpadded
  split <;> split <;> omega

/-- Going on from the `nop` is staying where one is. -/
theorem unpadded_succ_self (p : Nat) : unpadded p (p + 1) = p := if_neg (Nat.not_succ_le_self p)

/-! ### Padded bodies -/

/-- Operands of `b` and of `b'` that are the same, or labels that name the same position. A label on position `p` may name
the `nop` or what follows it. -/
inductive Operand.Padded (b b' : Body) (p : Nat) : Operand → Operand → Prop
  | immediate (v : Value) : Padded b b' p (.immediate v) (.immediate v)
  | label {t t' : InstrId} {x : Nat} (here : b.positionOf? t = some (unpadded p x)) (there : b'.positionOf? t' = some x) :
      Padded b b' p (.label t) (.label t')
  | index (n : UInt16) : Padded b b' p (.index n) (.index n)
  | external (n : UInt16) : Padded b b' p (.external n) (.external n)

/-- Instructions of `b` and of `b'` that differ in the identities in their labels only. -/
structure Instruction.Padded (b b' : Body) (p : Nat) (i i' : Instruction) : Prop where
  op : i.op = i'.op
  operands : List.Forall₂ (Operand.Padded b b' p) i.operands i'.operands

/-- The body `b'` is `b` with a `nop` put in at position `p`, in front of an instruction. -/
structure Body.Padded (b b' : Body) (p : Nat) : Prop where
  method : b.method = b'.method
  signature : b.signature = b'.signature
  externals : b.externals = b'.externals
  length : b'.length = b.length + 1
  inside : p < b.length
  nop : b'.instr? p = some ⟨.nop, []⟩
  instr : ∀ {q i}, b.instr? q = some i → ∃ i', b'.instr? (padded p q) = some i' ∧ Instruction.Padded b b' p i i'

namespace Instruction.Padded

variable (h : Instruction.Padded b b' p i i')

include h

/-- All that is read of the first operand. -/
private theorem first : i.immediate? = i'.immediate? ∧ i.slot? = i'.slot? ∧ i.external? = i'.external? ∧
    b.target? i = (b'.target? i').map (unpadded p) ∧ (b'.target? i' = none → i.label? = i'.label?) := by
  obtain ⟨op, operands⟩ := i
  obtain ⟨op', operands'⟩ := i'
  obtain ⟨-, hoperands⟩ := h
  cases hoperands with
  | nil => exact ⟨rfl, rfl, rfl, rfl, fun _ => rfl⟩
  | cons hfirst _ =>
    cases hfirst with
    | label here there =>
      refine ⟨rfl, rfl, rfl, ?_, fun hnone => ?_⟩
      · exact here.trans (congrArg (Option.map (unpadded p)) there).symm
      · cases there.symm.trans hnone
    | _ => exact ⟨rfl, rfl, rfl, rfl, fun _ => rfl⟩

theorem immediate? : i.immediate? = i'.immediate? := h.first.1

theorem slot? : i.slot? = i'.slot? := h.first.2.1

theorem target? : b.target? i = (b'.target? i').map (unpadded p) := h.first.2.2.2.1

theorem label? (hnone : b'.target? i' = none) : i.label? = i'.label? := h.first.2.2.2.2 hnone

theorem binding? (hexternals : b.externals = b'.externals) : b.binding? i = b'.binding? i' := by
  rw [Body.binding?, Body.binding?, h.first.2.2.1, hexternals]

end Instruction.Padded

namespace Body

/-- At a position other than that of the `nop` there is the same as in the body that is padded. -/
theorem Padded.instr? (h : b.Padded b' p) (hx : x ≠ p) : (b.instr? (unpadded p x) = none ∧ b'.instr? x = none) ∨
    ∃ i i', b.instr? (unpadded p x) = some i ∧ b'.instr? x = some i' ∧ Instruction.Padded b b' p i i' := by
  cases hi : b.instr? (unpadded p x) with
  | some i =>
    obtain ⟨i', hi', hpadded⟩ := h.instr hi
    rw [padded_unpadded hx] at hi'
    exact .inr ⟨i, i', rfl, hi', hpadded⟩
  | none =>
    refine .inl ⟨rfl, ?_⟩
    have hout : b.length ≤ unpadded p x := List.getElem?_eq_none_iff.1 (Option.map_eq_none_iff.1 hi)
    have hx' : padded p (unpadded p x) = unpadded p x + 1 := padded_of_le (Nat.le_trans (Nat.le_of_lt h.inside) hout)
    rw [padded_unpadded hx] at hx'
    have hlength := h.length
    rw [Body.instr?, Option.map_eq_none_iff, List.getElem?_eq_none_iff]
    show b'.length ≤ x
    omega

/-! ### Putting in, and taking out -/

/-- Entries of a list in which one is put in. -/
private theorem getElem?_insertIdx_padded {es : List Entry} {e : Entry} (q : Nat) :
    (es.insertIdx p e)[padded p q]? = es[q]? := by
  unfold padded
  split
  · rename_i hq
    rw [List.getElem?_insertIdx_of_lt hq]
  · rename_i hq
    rw [List.getElem?_insertIdx_of_gt (by omega), Nat.add_sub_cancel]

private theorem getElem?_eraseIdx_unpadded {es : List Entry} (hx : x ≠ p) : (es.eraseIdx p)[unpadded p x]? = es[x]? := by
  rw [List.getElem?_eraseIdx]
  unfold unpadded
  split <;> split <;> congr 1 <;> omega

theorem padded_insert (hb : b.Numbered) (hlinked : b.Linked) (hp : p < b.length)
    (hb' : b.insert p ⟨.nop, []⟩ = .ok b') : b.Padded b' p := by
  have hnumbered := hb.insert hb'
  have hentries : p ≤ b.entries.length := Nat.le_of_lt hp
  obtain ⟨-, rfl⟩ := insert_ok_iff.1 hb'
  have hentry (q : Nat) : (b.entries.insertIdx p ⟨b.freshId, ⟨.nop, []⟩⟩)[padded p q]? = b.entries[q]? :=
    getElem?_insertIdx_padded q
  constructor
  · rfl
  · rfl
  · rfl
  · exact List.length_insertIdx_of_le_length hentries _
  · exact hp
  · rw [Body.instr?, List.getElem?_insertIdx_self, if_pos hentries]
    rfl
  · intro q j hj
    obtain ⟨e, he, rfl⟩ := Option.map_eq_some_iff.1 hj
    refine ⟨e.instr, by rwa [Body.instr?, hentry], rfl, ?_⟩
    rw [List.forall₂_same]
    intro o ho
    cases o with
    | label t =>
      obtain ⟨r, hr⟩ := List.mem_iff_getElem?.1 (hlinked e (List.mem_of_getElem? he) t ho)
      rw [List.getElem?_map] at hr
      refine .label (x := padded p r) ?_ ?_
      · rw [unpadded_padded]
        exact (positionOf?_eq_some_iff hb).2 hr
      · refine (positionOf?_eq_some_iff hnumbered).2 ?_
        rw [Body.id?, hentry]
        exact hr
    | immediate v => exact .immediate v
    | index n => exact .index n
    | external n => exact .external n

section Erase

variable {e : Entry} {rest : Body} {successor : InstrId} (hb' : b'.Numbered) (he : b'.entries[p]? = some e)
  (hrest : rest = { b' with entries := b'.entries.eraseIdx p }) (hnext : rest.id? p = some successor)

include hb' he hrest hnext

/-- A label on what is taken out moves to what follows, and all other labels stay as they are. -/
private theorem positionOf?_erase {t : InstrId} (ht : t ∈ b'.entries.map Entry.id) :
    ∃ x, (rest.retarget e.id successor).positionOf? (if t = e.id then successor else t) = some (unpadded p x) ∧
      b'.positionOf? t = some x := by
  have hnumbered := (hb'.erase (erase_ok_iff.2 ⟨he, hrest⟩)).retarget e.id successor
  obtain ⟨x, hx⟩ := List.mem_iff_getElem?.1 ht
  rw [List.getElem?_map] at hx
  refine ⟨x, (positionOf?_eq_some_iff hnumbered).2 ((id?_retarget ..).trans ?_), (positionOf?_eq_some_iff hb').2 hx⟩
  by_cases hold : t = e.id
  · obtain rfl : x = p := hb'.eq_of_id? hx (hold ▸ id?_of_getElem? he)
    rw [if_pos hold, unpadded_self, hnext]
  · have hxp : x ≠ p := by
      rintro rfl
      rw [he] at hx
      exact hold (Option.some.inj hx).symm
    rw [if_neg hold, Body.id?, hrest, getElem?_eraseIdx_unpadded hxp]
    exact hx

/-- A body from which a `nop` is taken out is one that was padded. -/
theorem padded_erase (hlinked : b'.Linked) (hnop : e.instr = ⟨.nop, []⟩) :
    (rest.retarget e.id successor).Padded b' p := by
  have hp : p < b'.entries.length := (List.getElem?_eq_some_iff.1 he).1
  have hentries : rest.entries = b'.entries.eraseIdx p := by rw [hrest]
  constructor
  · rw [hrest]
    rfl
  · rw [hrest]
    rfl
  · rw [hrest]
    rfl
  · rw [Body.length, Body.length, Body.retarget, List.length_map, hentries, List.length_eraseIdx_of_lt hp]
    omega
  · obtain ⟨next, hnext, -⟩ := Option.map_eq_some_iff.1 hnext
    rw [Body.retarget, Body.length, List.length_map]
    exact (List.getElem?_eq_some_iff.1 hnext).1
  · rw [instr?_of_getElem? he, hnop]
  · intro q j hj
    obtain ⟨e₁, he₁, rfl⟩ := Option.map_eq_some_iff.1 hj
    rw [Body.retarget, List.getElem?_map] at he₁
    obtain ⟨e₀, he₀, rfl⟩ := Option.map_eq_some_iff.1 he₁
    have hplace : b'.entries[padded p q]? = some e₀ := by
      rw [← getElem?_eraseIdx_unpadded (padded_ne p q), unpadded_padded, ← hentries, he₀]
    refine ⟨e₀.instr, instr?_of_getElem? hplace, rfl, ?_⟩
    show List.Forall₂ _ (e₀.instr.operands.map _) _
    rw [List.forall₂_map_left_iff, List.forall₂_same]
    intro o ho
    cases o with
    | label t =>
      obtain ⟨x, hhere, hthere⟩ :=
        positionOf?_erase hb' he hrest hnext (hlinked e₀ (List.mem_of_getElem? hplace) t ho)
      rw [Instruction.retarget_label]
      exact .label hhere hthere
    | immediate v => exact .immediate v
    | index n => exact .index n
    | external n => exact .external n

end Erase

end Body

end Graft
