import Graft.Proofs.Alike.Basic
import Graft.Proofs.Cursor.Replacement
import Graft.Proofs.Typing.Exactness
import Graft.Proofs.Typing.Substitution

/-!
# Branches follow a replacement

An instruction is removed at a cursor and another one is put in its place. The labels on the first one become labels on
the second. No other label changes, not even one on the instruction behind, to which the branches go in between.

* `Entry.Follows` says what becomes of the labels of one instruction.
* `Body.Bypasses` describes a body after the removal, and `Body.Exchanges` after the insertion as well.
* `Cursor.exchanges_of_remove` says that removals and insertions come to this, and that an instruction which is put back
  gives back the bytes of the body.
-/

namespace Graft

variable {b b' : Body} {p : Nat} {e e' : Entry} {i : Instruction} {source target : InstrId}

/-! ### Labels that are moved -/

/-- The operand `o'` is a label on `target` if `o` is one on `source`, and otherwise it is `o`. -/
inductive Operand.Follows (source target : InstrId) : Operand → Operand → Prop
  | moved : Follows source target (.label source) (.label target)
  | kept {o : Operand} (other : o ≠ .label source) : Follows source target o o

/-- The entry `e'` is `e` with the labels on `source` moved to `target`. -/
structure Entry.Follows (source target : InstrId) (e e' : Entry) : Prop where
  id : e'.id = e.id
  op : e'.instr.op = e.instr.op
  operands : List.Forall₂ (Operand.Follows source target) e.instr.operands e'.instr.operands

theorem Operand.follows_retarget (source target : InstrId) (o : Operand) :
    Operand.Follows source target o (o.retarget source target) := by
  cases o with
  | label t =>
    by_cases ht : t = source
    · rw [Operand.retarget, if_pos ht, ht]
      exact .moved
    · rw [Operand.retarget, if_neg ht]
      exact .kept fun h => ht (Operand.label.inj h)
  | _ => exact .kept fun h => by cases h

theorem Entry.forall₂_retarget (source target : InstrId) (es : List Entry) : List.Forall₂ (Entry.Follows source target)
    es (es.map fun e => { e with instr := e.instr.retarget source target }) := by
  rw [List.forall₂_map_right_iff, List.forall₂_same]
  refine fun e _ => ⟨rfl, rfl, ?_⟩
  show List.Forall₂ _ _ (e.instr.operands.map _)
  rw [List.forall₂_map_right_iff, List.forall₂_same]
  exact fun o _ => Operand.follows_retarget source target o

/-- No label is left on an instruction from which all labels are moved. -/
theorem Entry.Follows.not_mem (h : Entry.Follows source target e e') (hne : target ≠ source) :
    .label source ∉ e'.instr.operands := by
  intro hmem
  obtain ⟨o, -, ho⟩ := exists_of_mem_right h.operands hmem
  cases ho with
  | moved => exact hne rfl
  | kept other => exact other rfl

/-! ### Bodies after a removal, and after an exchange -/

namespace Body

/-- The body `b'` is `b` without the instruction `e` at position `p`. The labels on it are on the instruction that now
stands at `p`, or stay as they are if there is none. -/
structure Bypasses (b : Body) (p : Nat) (e : Entry) (b' : Body) : Prop where
  frame : b' = { b with entries := b'.entries }
  next : ∀ successor, b'.id? p = some successor →
    List.Forall₂ (Entry.Follows e.id successor) (b.entries.eraseIdx p) b'.entries
  last : b'.id? p = none → b'.entries = b.entries.eraseIdx p

/-- The body `b'` is `b` with the instruction `i`, under a fresh identity, in place of `e` at position `p`. The labels on
`e` are on the new instruction, and no label has changed the position that it names. -/
structure Exchanges (b : Body) (p : Nat) (e : Entry) (i : Instruction) (b' : Body) : Prop where
  frame : b' = { b with entries := b'.entries, nextId := b.nextId + 1 }
  length : b'.length = b.length
  fresh : b.freshId ∉ b.entries.map Entry.id
  new : b'.entries[p]? = some ⟨b.freshId, i⟩
  others : ∃ before after, b'.entries = before ++ ⟨b.freshId, i⟩ :: after ∧
    List.Forall₂ (Entry.Follows e.id b.freshId) (b.entries.take p) before ∧
    List.Forall₂ (Entry.Follows e.id b.freshId) (b.entries.drop (p + 1)) after
  gone : ∀ e' ∈ b'.entries, .label e.id ∉ e'.instr.operands
  targets : ∀ {q : Nat} {j : Instruction}, q ≠ p → b.instr? q = some j →
    ∃ j', b'.instr? q = some j' ∧ Instruction.Alike b b' j j'

theorem bypasses_retarget {rest : Body} (hrest : rest = { b with entries := b.entries.eraseIdx p }) :
    b.Bypasses p e (rest.retarget e.id ((rest.id? p).getD e.id)) := by
  have hentries : rest.entries = b.entries.eraseIdx p := by rw [hrest]
  constructor
  · rw [hrest]
    rfl
  · intro successor hnext
    rw [id?_retarget] at hnext
    rw [hnext, ← hentries]
    exact Entry.forall₂_retarget ..
  · intro hlast
    rw [id?_retarget] at hlast
    rw [hlast, Option.getD_none, retarget_self, hentries]

/-- An operand resolves to the same after a substitution. -/
private theorem resolve_substitute (hb : b.Numbered) (he : b.entries[p]? = some e) {o : Operand}
    (ho : o ≠ .label b.freshId) : (o.retarget e.id b.freshId).resolve (b.substitute p e.id i) = o.resolve b := by
  cases o with
  | label t =>
    have ht : t ≠ b.freshId := fun h => ho (h ▸ rfl)
    rw [Instruction.retarget_label, Operand.resolve, Operand.resolve, substitute_positionOf? hb he ht]
  | _ => rfl

private theorem alike_substitute (hb : b.Numbered) (hlinked : b.Linked) (he : b.entries[p]? = some e)
    (he' : e' ∈ b.entries) :
    Instruction.Alike b (b.substitute p e.id i) e'.instr (e'.instr.retarget e.id b.freshId) := by
  refine ⟨rfl, ?_⟩
  show List.Forall₂ _ _ (e'.instr.operands.map _)
  rw [List.forall₂_map_right_iff, List.forall₂_same]
  intro o ho
  have hfresh : o ≠ .label b.freshId := by
    rintro rfl
    exact hb.freshId_not_mem (hlinked e' he' _ ho)
  refine Operand.alike_of_resolve (resolve_substitute hb he hfresh).symm fun hnone => ?_
  cases o with
  | label t =>
    obtain ⟨q, hq⟩ := List.mem_iff_getElem?.1 (hlinked e' he' t ho)
    rw [List.getElem?_map] at hq
    rw [Operand.resolve, (positionOf?_eq_some_iff hb).2 hq] at hnone
    cases hnone
  | _ => cases hnone

/-- A substitution exchanges an instruction for one without a label on it. -/
theorem exchanges_substitute (hb : b.Numbered) (hlinked : b.Linked) (he : b.entries[p]? = some e)
    (hi : .label e.id ∉ i.operands) : b.Exchanges p e i (b.substitute p e.id i) := by
  have hp : p < b.entries.length := (List.getElem?_eq_some_iff.1 he).1
  have hold : b.freshId ≠ e.id := by
    intro h
    exact hb.freshId_not_mem (h ▸ List.mem_map_of_mem (List.mem_of_getElem? he))
  have hsplit : (b.substitute p e.id i).entries =
      (b.entries.take p).map (fun e' => { e' with instr := e'.instr.retarget e.id b.freshId }) ++ ⟨b.freshId, i⟩ ::
        (b.entries.drop (p + 1)).map (fun e' => { e' with instr := e'.instr.retarget e.id b.freshId }) := by
    rw [substitute, List.set_eq_take_append_cons_drop, if_pos (by rwa [List.length_map]), List.map_take, List.map_drop]
  have hbefore := Entry.forall₂_retarget e.id b.freshId (b.entries.take p)
  have hafter := Entry.forall₂_retarget e.id b.freshId (b.entries.drop (p + 1))
  constructor
  · rfl
  · exact length_substitute ..
  · exact hb.freshId_not_mem
  · rw [substitute, List.getElem?_set_self (by rwa [List.length_map])]
  · exact ⟨_, _, hsplit, hbefore, hafter⟩
  · intro e' he'
    rw [hsplit, List.mem_append, List.mem_cons] at he'
    rcases he' with he' | rfl | he'
    · obtain ⟨e₀, -, hfollows⟩ := exists_of_mem_right hbefore he'
      exact hfollows.not_mem hold
    · exact hi
    · obtain ⟨e₀, -, hfollows⟩ := exists_of_mem_right hafter he'
      exact hfollows.not_mem hold
  · intro q j hq hj
    obtain ⟨e', he', rfl⟩ := Option.map_eq_some_iff.1 hj
    refine ⟨_, ?_, alike_substitute hb hlinked he (List.mem_of_getElem? he')⟩
    rw [substitute_instr? he, if_neg hq, hj, Option.map_some]

/-- An instruction that is exchanged for itself leaves the content as it is. -/
theorem content_substitute_self (hb : b.Numbered) (hlinked : b.Linked) (he : b.entries[p]? = some e)
    (hself : .label e.id ∉ e.instr.operands) : (b.substitute p e.id e.instr).content = b.content := by
  have hp : p < b.entries.length := (List.getElem?_eq_some_iff.1 he).1
  have hlabel : e.instr.hasLabelOn e.id = false := by
    refine Bool.eq_false_iff.2 fun h => hself ?_
    obtain ⟨o, ho, hon⟩ := List.any_eq_true.1 h
    cases o with
    | label t =>
      rw [Operand.isLabelOn, beq_iff_eq] at hon
      exact hon ▸ ho
    | _ => cases hon
  -- the instruction is not changed when labels on it are moved, so it stands where it stood
  have hinstrs : (b.substitute p e.id e.instr).instrs = b.entries.map fun e' => e'.instr.retarget e.id b.freshId := by
    refine List.ext_getElem? fun q => ?_
    rw [instrs_getElem?, substitute_instr? he, List.getElem?_map, instr?]
    split
    · rename_i hq
      rw [hq, he, Option.map_some, Instruction.retarget_of_not_hasLabelOn hlabel]
    · rw [Option.map_map]
      rfl
  have hcode : (b.substitute p e.id e.instr).instrs.map (Instruction.resolve (b.substitute p e.id e.instr)) =
      b.instrs.map (Instruction.resolve b) := by
    rw [hinstrs, instrs, List.map_map, List.map_map]
    refine List.map_congr_left fun e' he' => ?_
    simp only [Function.comp_apply, Instruction.resolve, Instruction.retarget, List.map_map, Prod.mk.injEq, true_and]
    refine List.map_congr_left fun o ho => resolve_substitute hb he ?_
    rintro rfl
    exact hb.freshId_not_mem (hlinked e' he' _ ho)
  simp only [content, hcode]
  rfl

end Body

/-! ### Removals and insertions at a cursor -/

namespace Cursor

open Typing

/-- The instruction at a position can be removed, and then any other instruction without a label on it can be put in its
place. An instruction without a label on itself gives back the bytes when it is put back. -/
theorem exchanges_of_remove (c : Cursor) (hb : c.body.Numbered) (hsimple : c.body.Simple) (hlinked : c.body.Linked)
    (he : c.body.entries[p]? = some e) :
    ∃ c₀ c₁, c.seekTo? p = some c₀ ∧ c₀.remove = .ok (e.instr, c₁) ∧ c.body.Bypasses p e c₁.body ∧
      ∀ i : Instruction, .label e.id ∉ i.operands → ∃ c₂, c₁.insert i = .ok (c.body.freshId, c₂) ∧
        c.body.Exchanges p e i c₂.body ∧
        (i = e.instr → ∀ bytes, c₂.body.encode = .ok bytes ↔ c.body.encode = .ok bytes) := by
  have hseek : c.seekTo? p = some (c.moveTo (.on p)) := if_pos (List.getElem?_eq_some_iff.1 he).1
  obtain ⟨branches, hremove, -⟩ := remove_eq (c := c.moveTo (.on p)) rfl he rfl
  obtain ⟨c₁, hremove', -, -, hinsert⟩ := insert_of_remove (c := c.moveTo (.on p)) hb hsimple rfl he
  obtain rfl : _ = c₁ := (Prod.mk.inj (Except.ok.inj (hremove.symm.trans hremove'))).2
  refine ⟨_, _, hseek, hremove, Body.bypasses_retarget rfl, fun i hi => ?_⟩
  refine ⟨_, hinsert c.body.externals i, Body.exchanges_substitute hb hlinked he hi, ?_⟩
  rintro rfl bytes
  have hcontent := Body.content_substitute_self hb hlinked he hi
  exact ⟨Body.encode_of_content_eq hcontent, Body.encode_of_content_eq hcontent.symm⟩

/-- A body whose last instruction, like the one before it, is the target of a branch. -/
def crossing : Body where
  method := ⟨"Gate", "crossing"⟩
  signature := ⟨[.bool], [], none⟩
  entries := [⟨⟨0⟩, .ldarg, [.index 0]⟩, ⟨⟨1⟩, .brtrue, [.label ⟨4⟩]⟩, ⟨⟨2⟩, .ldarg, [.index 0]⟩,
    ⟨⟨3⟩, .brfalse, [.label ⟨5⟩]⟩, ⟨⟨4⟩, .nop, []⟩, ⟨⟨5⟩, .ret, []⟩]
  nextId := 6

theorem exchanges_crossing : ∃ c₀ c₁ c₂, seekTo? { body := crossing } 5 = some c₀ ∧
    c₀.remove = .ok (⟨.ret, []⟩, c₁) ∧ crossing.Bypasses 5 ⟨⟨5⟩, .ret, []⟩ c₁.body ∧
    c₁.insert ⟨.ret, []⟩ = .ok (⟨6⟩, c₂) ∧ crossing.Exchanges 5 ⟨⟨5⟩, .ret, []⟩ ⟨.ret, []⟩ c₂.body ∧
    ∀ bytes, c₂.body.encode = .ok bytes ↔ crossing.encode = .ok bytes := by
  have hw : WellTyped crossing := wellTyped_of_findings (by decide +kernel)
  obtain ⟨c₀, c₁, hseek, hremove, hbypasses, hexchange⟩ := exchanges_of_remove { body := crossing } (p := 5)
    (e := ⟨⟨5⟩, .ret, []⟩) ⟨by decide, by decide⟩ hw.simple hw.linked rfl
  obtain ⟨c₂, hinsert, hexchanges, hbytes⟩ := hexchange ⟨.ret, []⟩ (by decide)
  exact ⟨c₀, c₁, c₂, hseek, hremove, hbypasses, hinsert, hexchanges, hbytes rfl⟩

end Cursor

end Graft
