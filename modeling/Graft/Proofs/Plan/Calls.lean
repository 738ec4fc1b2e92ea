import Graft.Proofs.Alike.Basic
import Graft.Proofs.Plan.Replacements

/-!
# Calls in place of other instructions

Replacements put calls in place of instructions of the body as it was. All other instructions keep their positions, their
operands and the positions that their labels name.

* `Body.Calls` says so of a list of replacements.
* `replaceAll_calls` says when replacements one after the other succeed, and that they come to this.
-/

namespace Graft

open Typing

variable {b b₁ b' : Body} {i i₁ i' : Instruction} {e : Entry} {x : Binding} {p : Nat}

/-! ### Alike instructions -/

private theorem Operand.Alike.trans {o o₁ o' : Operand} (h : Operand.Alike b b₁ o o₁)
    (h' : Operand.Alike b₁ b' o₁ o') : Operand.Alike b b' o o' := by
  cases h with
  | immediate v => cases h'; exact .immediate v
  | index n => cases h'; exact .index n
  | external n => cases h'; exact .external n
  | label here there =>
    cases h' with
    | label here' there' =>
      obtain rfl := Option.some.inj (there.symm.trans here')
      exact .label here there'

theorem Instruction.Alike.trans (h : Instruction.Alike b b₁ i i₁) (h' : Instruction.Alike b₁ b' i₁ i') :
    Instruction.Alike b b' i i' := by
  obtain ⟨hop, hoperands⟩ := h
  obtain ⟨hop', hoperands'⟩ := h'
  refine ⟨hop.trans hop', ?_⟩
  generalize i.operands = os, i₁.operands = os₁ at hoperands hoperands'
  generalize i'.operands = os' at hoperands'
  induction hoperands generalizing os' with
  | nil =>
    cases hoperands'
    exact .nil
  | cons ho _ ih =>
    cases hoperands' with
    | cons ho' hrest => exact .cons (ho.trans ho') (ih _ hrest)

/-- A call has no label, so that an alike instruction is the same. -/
private theorem Instruction.Alike.eq_call {n : UInt16} (h : Instruction.Alike b b' ⟨.call, [.external n]⟩ i) :
    i = ⟨.call, [.external n]⟩ := by
  obtain ⟨op, operands⟩ := i
  obtain ⟨rfl, hoperands⟩ := h
  cases hoperands with
  | cons ho hrest =>
    cases ho
    cases hrest
    rfl

private theorem alike_self (hfit : Fits b i) : Instruction.Alike b b i i := by
  refine ⟨rfl, ?_⟩
  cases hfit with
  | plain => exact .nil
  | constant => exact .cons (.immediate _) .nil
  | argument => exact .cons (.index _) .nil
  | localVar => exact .cons (.index _) .nil
  | external => exact .cons (.external _) .nil
  | branch kind named =>
    obtain ⟨t, q, ht, hq, -⟩ := (Fits.branch kind named).target kind
    obtain rfl := Option.some.inj ht
    exact .cons (.label hq hq) .nil

private theorem entries_withCall_self (he : b.entries[p]? = some e) : (b.withCall p e.id x).entries[p]? =
    some ⟨b.freshId, .call, [.external (UInt16.ofNat b.externals.size)]⟩ := by
  have hp : p < b.entries.length := (List.getElem?_eq_some_iff.1 he).1
  show ((b.entries.map _).set p _)[p]? = _
  rw [List.getElem?_set_self (by rwa [List.length_map])]

private theorem entries_withCall_of_ne {q : Nat} {e' : Entry} (he' : b.entries[q]? = some e') (hq : q ≠ p)
    {old : InstrId} : (b.withCall p old x).entries[q]? = some ⟨e'.id, e'.instr.retarget old b.freshId⟩ := by
  show ((b.entries.map _).set p _)[q]? = _
  rw [List.getElem?_set_ne (Ne.symm hq), List.getElem?_map, he', Option.map_some]

/-- When one instruction gives way to a call, all others stay alike. -/
private theorem alike_withCall (hb : b.Numbered) (he : b.entries[p]? = some e) (hfit : Fits b i) :
    Instruction.Alike b (b.withCall p e.id x) i (i.retarget e.id b.freshId) := by
  refine ⟨rfl, ?_⟩
  have htarget := (withCall_operands (x := x) hb he hfit).1
  cases hfit with
  | plain => exact .nil
  | constant => exact .cons (.immediate _) .nil
  | argument => exact .cons (.index _) .nil
  | localVar => exact .cons (.index _) .nil
  | external => exact .cons (.external _) .nil
  | @branch op t kind named =>
    obtain ⟨t', q, ht, hq, -⟩ := (Fits.branch kind named).target kind
    obtain rfl : t = t' := Option.some.inj ht
    refine .cons ?_ .nil
    rw [Body.target?, Body.target?, Instruction.label?_retarget] at htarget
    rw [Instruction.retarget_label]
    exact .label hq (htarget.trans hq)

/-! ### Bodies with several calls in place of other instructions -/

/-- The body `b'` is `b` with calls in place of the instructions of `l`, each with its external value. These values come
behind those of `b`, in the order of the list. -/
structure Body.Calls (b : Body) (l : List (InstrId × Binding)) (b' : Body) : Prop where
  method : b'.method = b.method
  signature : b'.signature = b.signature
  length : b'.length = b.length
  externals : b'.externals = b.externals ++ (l.map Prod.snd).toArray
  call : ∀ {j p : Nat} {id : InstrId} {x : Binding}, l[j]? = some (id, x) → b.id? p = some id →
    ∃ n : UInt16, n.toNat = b.externals.size + j ∧ b'.instr? p = some ⟨.call, [.external n]⟩
  other : ∀ {q : Nat} {e : Entry}, b.entries[q]? = some e → e.id ∉ l.map Prod.fst →
    ∃ i : Instruction, b'.entries[q]? = some ⟨e.id, i⟩ ∧ Instruction.Alike b b' e.instr i

namespace Body.Calls

variable {l : List (InstrId × Binding)}

/-- The call at the place of an instruction takes the external value that came with it. -/
theorem binding (h : b.Calls l b') {j : Nat} {id : InstrId} (hj : l[j]? = some (id, x)) {n : UInt16}
    (hn : n.toNat = b.externals.size + j) : b'.externals[n.toNat]? = some x := by
  rw [h.externals, hn, Array.getElem?_append_right (Nat.le_add_right _ _), Nat.add_sub_cancel_left]
  simp [hj]

/-- External values that were there before stay in their rows. -/
theorem externals_getElem? (h : b.Calls l b') {n : Nat} (hn : n < b.externals.size) :
    b'.externals[n]? = b.externals[n]? := by
  rw [h.externals, Array.getElem?_append_left hn]

theorem id? (h : b.Calls l b') {q : Nat} {id : InstrId} (hq : b.id? q = some id) (hid : id ∉ l.map Prod.fst) :
    b'.id? q = some id := by
  obtain ⟨e, he, rfl⟩ := Option.map_eq_some_iff.1 hq
  obtain ⟨i, hi, -⟩ := h.other he hid
  rw [Body.id?, hi, Option.map_some]

theorem refl (hfits : ∀ i ∈ b.instrs, Fits b i) : b.Calls [] b := by
  refine ⟨rfl, rfl, rfl, by simp, nofun, fun {q e} he _ => ⟨e.instr, he, ?_⟩⟩
  exact alike_self (hfits e.instr (List.mem_map_of_mem (List.mem_of_getElem? he)))

/-- One replacement, followed by others of instructions that were there before. -/
theorem cons (hb : b.Numbered) (hfits : ∀ i ∈ b.instrs, Fits b i) (he : b.entries[p]? = some e)
    (hroom : b.externals.size < Body.maxExternals) (hnot : e.id ∉ l.map Prod.fst)
    (hmem : ∀ id ∈ l.map Prod.fst, id ∈ b.entries.map Entry.id) (h : (b.withCall p e.id x).Calls l b') :
    b.Calls ((e.id, x) :: l) b' := by
  have hid := Body.id?_of_getElem? he
  have hsize : (b.withCall p e.id x).externals.size = b.externals.size + 1 := Array.size_push ..
  constructor
  · exact h.method
  · exact h.signature
  · rw [h.length, length_withCall]
  · rw [h.externals]
    show b.externals.push x ++ _ = _
    rw [Array.push_eq_append, Array.append_assoc]
    simp
  · intro j q id y hj hq
    cases j with
    | zero =>
      obtain ⟨rfl, rfl⟩ := Prod.mk.inj (Option.some.inj hj)
      obtain rfl : p = q := hb.eq_of_id? hid hq
      -- the call is not among the instructions that are replaced afterwards
      have hnew : b.freshId ∉ l.map Prod.fst := fun hin => hb.freshId_not_mem (hmem _ hin)
      obtain ⟨i, hi, halike⟩ := h.other (entries_withCall_self he) hnew
      refine ⟨UInt16.ofNat b.externals.size, UInt16.toNat_ofNat_of_lt hroom, ?_⟩
      rw [Body.instr?, hi, Option.map_some, halike.eq_call]
    | succ j =>
      have hother : id ∈ l.map Prod.fst := List.mem_map.2 ⟨_, List.mem_of_getElem? hj, rfl⟩
      have hne : q ≠ p := by
        rintro rfl
        obtain rfl := Option.some.inj (hid.symm.trans hq)
        exact hnot hother
      have hq' : (b.withCall p e.id x).id? q = some id := (Body.substitute_id? he q).trans ((if_neg hne).trans hq)
      obtain ⟨n, hn, hcall⟩ := h.call hj hq'
      exact ⟨n, by omega, hcall⟩
  · intro q e' he' hnew
    rw [List.map_cons, List.mem_cons, not_or] at hnew
    have hne : q ≠ p := by
      rintro rfl
      obtain rfl := Option.some.inj (he.symm.trans he')
      exact hnew.1 rfl
    obtain ⟨i, hi, halike⟩ := h.other (entries_withCall_of_ne he' hne) hnew.2
    have hfit : Fits b e'.instr := hfits _ (List.mem_map_of_mem (List.mem_of_getElem? he'))
    exact ⟨i, hi, (alike_withCall hb he hfit).trans halike⟩

end Body.Calls

namespace BoundRule

variable {c : Cursor} {l : List (InstrId × Binding)}

/-- The instruction can give way to a call of the external value: it takes nothing from the stack, and puts one value of
the same type on it. -/
def Suits (b : Body) (id : InstrId) (x : Binding) : Prop :=
  ∃ e ∈ b.entries, e.id = id ∧ b.effect? e.instr = some ⟨0, 1, some x.type⟩

/-- All instructions of a list can give way to their calls, and the table of external values has room for these. -/
structure Admits (b : Body) (l : List (InstrId × Binding)) : Prop where
  suits : ∀ s ∈ l, Suits b s.1 s.2
  room : l ≠ [] → b.externals.size + l.length ≤ Body.maxExternals

/-- It does not matter for the other instructions that one has given way to a call. -/
private theorem suits_withCall (hb : b.Numbered) (hfits : ∀ i ∈ b.instrs, Fits b i) (he : b.entries[p]? = some e)
    {id : InstrId} (hold : id ∈ b.entries.map Entry.id) (hne : id ≠ e.id) {y : Binding} :
    Suits (b.withCall p e.id x) id y ↔ Suits b id y := by
  constructor
  · rintro ⟨e', he', rfl, heffect⟩
    rcases Body.mem_entries_substitute he' with hfresh | ⟨e₀, he₀, rfl⟩
    · rw [hfresh] at hold
      exact absurd hold hb.freshId_not_mem
    · rw [effect?_withCall hb he (hfits _ (List.mem_map_of_mem he₀))] at heffect
      exact ⟨e₀, he₀, rfl, heffect⟩
  · rintro ⟨e₀, he₀, rfl, heffect⟩
    obtain ⟨q, hq⟩ := List.mem_iff_getElem?.1 he₀
    have hqp : q ≠ p := by
      rintro rfl
      obtain rfl := Option.some.inj (he.symm.trans hq)
      exact hne rfl
    refine ⟨_, List.mem_of_getElem? (entries_withCall_of_ne hq hqp), rfl, ?_⟩
    rw [effect?_withCall hb he (hfits _ (List.mem_map_of_mem he₀)), heffect]

/-- One replacement leaves the conditions for the others as they are. -/
private theorem admits_cons (hb : b.Numbered) (hfits : ∀ i ∈ b.instrs, Fits b i) (hp : b.entries[p]? = some e)
    (heffect : b.effect? e.instr = some ⟨0, 1, some x.type⟩) (hroom : b.externals.size < Body.maxExternals)
    (hold : ∀ s ∈ l, s.1 ∈ b.entries.map Entry.id ∧ s.1 ≠ e.id) :
    Admits b ((e.id, x) :: l) ↔ Admits (b.withCall p e.id x) l := by
  have hsize : (b.withCall p e.id x).externals.size = b.externals.size + 1 := Array.size_push ..
  constructor
  · rintro ⟨hsuits, hfew⟩
    refine ⟨fun s hs => ?_, fun _ => ?_⟩
    · exact (suits_withCall hb hfits hp (hold s hs).1 (hold s hs).2).2 (hsuits s (List.mem_cons_of_mem _ hs))
    · have := hfew (List.cons_ne_nil _ _)
      rw [List.length_cons] at this
      omega
  · rintro ⟨hsuits, hfew⟩
    refine ⟨fun s hs => ?_, fun _ => ?_⟩
    · rcases List.mem_cons.1 hs with rfl | hs
      · exact ⟨e, List.mem_of_getElem? hp, rfl, heffect⟩
      · exact (suits_withCall hb hfits hp (hold s hs).1 (hold s hs).2).1 (hsuits s hs)
    · rw [List.length_cons]
      by_cases hl : l = []
      · subst hl
        rw [List.length_nil]
        omega
      · have := hfew hl
        omega

/-- Replacements succeed exactly if all instructions have the effects of their calls and the table of external values has
room for all of them, and come to calls in place of the instructions. No instruction is lost in between. -/
theorem replaceAll_calls (hb : c.body.Numbered) (hw : WellTyped c.body) (hnodup : (l.map Prod.fst).Nodup)
    (hmem : ∀ id ∈ l.map Prod.fst, id ∈ c.body.entries.map Entry.id) :
    (Admits c.body l ∧ ∃ c', l.foldlM (fun c s => replace c s.1 s.2) c = .ok c' ∧ c'.body.Numbered ∧
      c.body.Calls l c'.body) ∨
    (¬ Admits c.body l ∧ ∃ err, l.foldlM (fun c s => replace c s.1 s.2) c = .error err) := by
  induction l generalizing c with
  | nil => exact .inl ⟨⟨nofun, fun h => absurd rfl h⟩, c, rfl, hb, .refl hw.fits⟩
  | cons s l ih =>
    obtain ⟨id, x⟩ := s
    obtain ⟨e, he, rfl⟩ := List.mem_map.1 (hmem id List.mem_cons_self)
    obtain ⟨hnot, hrest⟩ := List.nodup_cons.1 hnodup
    rw [List.foldlM_cons]
    rcases replace_spec hb hw he x with ⟨hdiffers, herr⟩ | ⟨hfull, herr⟩ | ⟨p, hp, heffect, hroom, hok⟩
    · refine .inr ⟨fun hadmits => ?_, _, by rw [herr]; rfl⟩
      obtain ⟨e', he', hid, heffect⟩ := hadmits.suits _ List.mem_cons_self
      obtain rfl := hb.ext he' he hid
      exact hdiffers heffect
    · refine .inr ⟨fun hadmits => ?_, _, by rw [herr]; rfl⟩
      have hroom := hadmits.room (List.cons_ne_nil _ _)
      rw [List.length_cons] at hroom
      omega
    · have hold (s : InstrId × Binding) (hs : s ∈ l) : s.1 ∈ c.body.entries.map Entry.id ∧ s.1 ≠ e.id := by
        refine ⟨hmem s.1 (List.mem_cons_of_mem _ (List.mem_map_of_mem hs)), ?_⟩
        intro heq
        exact hnot (List.mem_map.2 ⟨s, hs, heq⟩)
      have hmem' : ∀ id ∈ l.map Prod.fst, id ∈ (c.body.withCall p e.id x).entries.map Entry.id := by
        intro id hid
        obtain ⟨s, hs, rfl⟩ := List.mem_map.1 hid
        exact Body.mem_ids_substitute hp (hold s hs).1 (hold s hs).2
      rw [admits_cons hb hw.fits hp heffect hroom hold, hok]
      rcases ih (c := { body := c.body.withCall p e.id x, place := .on p }) (hb.withCall ..)
        (hw.withCall hb hp heffect hroom) hrest hmem' with ⟨hrest', c', hdone, hnumbered, hcalls⟩ | ⟨hrest', err, herr⟩
      · refine .inl ⟨hrest', c', hdone, hnumbered, ?_⟩
        exact .cons hb hw.fits hp hroom hnot (fun id hid => hmem id (List.mem_cons_of_mem _ hid)) hcalls
      · exact .inr ⟨hrest', err, herr⟩

end BoundRule

end Graft
