import Graft.Proofs.Body.Numbering
import Mathlib.Data.List.InsertIdx

/-!
# Substituting an instruction

In a substitution one instruction of a body gives way to another one: all other instructions stay where they are, and
each label on the old instruction becomes a label on the new one.

* `Body.substitute` is the substitution, and `Body.substitute_target?` says that no branch changes where it goes to.
* `Body.retargetOnly_insert` says that erasing the old instruction and inserting the new one comes to a substitution
  when the labels are moved in two steps, by way of any third instruction.
-/

namespace Graft

variable {b : Body}

/-! ### Labels of one instruction -/

namespace Instruction

variable {i : Instruction} {source middle target : InstrId}

private theorem retarget_operand_of_not (o : Operand) (h : o.isLabelOn source = false) :
    o.retarget source target = o := by
  cases o with
  | label t =>
    have ht : t ≠ source := by simpa [Operand.isLabelOn] using h
    rw [Operand.retarget, if_neg ht]
  | _ => rfl

/-- Labels are moved only where there are any. -/
theorem retarget_of_not_hasLabelOn (h : i.hasLabelOn source = false) : i.retarget source target = i := by
  have hoperands : i.operands.map (Operand.retarget source target) = i.operands := by
    refine (List.map_congr_left fun o ho => ?_).trans (List.map_id _)
    refine retarget_operand_of_not o ?_
    simpa using List.any_eq_false.1 h o ho
  rw [retarget, hoperands]

/-- The only operand is a label, if any operand is. -/
theorem operands_of_hasLabelOn (hone : i.operands.length ≤ 1) (h : i.hasLabelOn source = true) :
    i.operands = [.label source] := by
  obtain ⟨o, ho, hlabel⟩ := List.any_eq_true.1 h
  match hi : i.operands, hone with
  | [o'], _ =>
    rw [hi, List.mem_singleton] at ho
    subst ho
    cases o with
    | label t =>
      have ht : t = source := by simpa [Operand.isLabelOn] using hlabel
      rw [ht]
    | _ => cases hlabel
  | [], _ =>
    rw [hi] at ho
    cases ho

theorem hasLabelOn_iff_label? (hone : i.operands.length ≤ 1) : i.hasLabelOn source = (i.label? == some source) := by
  unfold hasLabelOn label?
  match i.operands, hone with
  | [], _ => rfl
  | [o], _ => cases o <;> simp [Operand.isLabelOn]

/-- Moving a label twice is moving it once. -/
theorem retarget_retarget (hone : i.operands.length ≤ 1) (h : i.hasLabelOn source = true) :
    (i.retarget source middle).retarget middle target = i.retarget source target := by
  have hi := operands_of_hasLabelOn hone h
  simp only [retarget, hi, List.map_cons, List.map_nil, Operand.retarget, if_true]

theorem retarget_self : i.retarget source source = i := by
  have hoperand : Operand.retarget source source = id := by
    funext o
    cases o with
    | label t =>
      by_cases ht : t = source
      · rw [Operand.retarget, if_pos ht, ht, id]
      · rw [Operand.retarget, if_neg ht, id]
    | _ => rfl
  rw [retarget, hoperand, List.map_id]

theorem retarget_label (t : InstrId) :
    (Operand.label t).retarget source target = .label (if t = source then target else t) := by
  rw [Operand.retarget]
  split <;> rfl

/-- Moving labels changes no other operand. -/
private theorem first_retarget : (i.retarget source target).immediate? = i.immediate? ∧
    (i.retarget source target).slot? = i.slot? ∧ (i.retarget source target).external? = i.external? ∧
    (i.retarget source target).label? = i.label?.map fun t => if t = source then target else t := by
  unfold immediate? slot? external? label? retarget
  cases i.operands with
  | nil => exact ⟨rfl, rfl, rfl, rfl⟩
  | cons o os =>
    cases o with
    | label t =>
      rw [List.map_cons, retarget_label]
      exact ⟨rfl, rfl, rfl, rfl⟩
    | _ => exact ⟨rfl, rfl, rfl, rfl⟩

theorem immediate?_retarget : (i.retarget source target).immediate? = i.immediate? := first_retarget.1

theorem slot?_retarget : (i.retarget source target).slot? = i.slot? := first_retarget.2.1

theorem external?_retarget : (i.retarget source target).external? = i.external? := first_retarget.2.2.1

theorem label?_retarget :
    (i.retarget source target).label? = i.label?.map fun t => if t = source then target else t :=
  first_retarget.2.2.2

end Instruction

/-! ### Substitution -/

namespace Body

/-- The body with another instruction at position `p`, under `b.freshId`, and all labels on the instruction `old` moved
to it. -/
def substitute (b : Body) (p : Nat) (old : InstrId) (i : Instruction) : Body :=
  { b with
    entries := (b.entries.map fun e => { e with instr := e.instr.retarget old b.freshId }).set p ⟨b.freshId, i⟩
    nextId := b.nextId + 1 }

/-- The body with a call of an external value, which is added to the table, at position `p`. -/
def withCall (b : Body) (p : Nat) (old : InstrId) (x : Binding) : Body :=
  { b.substitute p old ⟨.call, [.external (UInt16.ofNat b.externals.size)]⟩ with externals := b.externals.push x }

/-- Every instruction has one operand or none. -/
def Simple (b : Body) : Prop := ∀ e ∈ b.entries, e.instr.operands.length ≤ 1

/-- Every label names an instruction of the body. -/
def Linked (b : Body) : Prop := ∀ e ∈ b.entries, ∀ t, .label t ∈ e.instr.operands → t ∈ b.entries.map Entry.id

theorem retarget_self (b : Body) (t : InstrId) : b.retarget t t = b := by
  simp only [retarget, Instruction.retarget_self, List.map_id']

theorem referrers_eq_labelledOn (h : b.Simple) (t : InstrId) : b.referrers t = b.labelledOn t := by
  rw [referrers, labelledOn, List.filter_congr fun e he => (Instruction.hasLabelOn_iff_label? (h e he)).symm]

/-- Labels on `old` that are moved to `middle`, and from there to `new` in the instructions that had them, are all labels
on `old`, and no others, moved to `new`. -/
private theorem retargetOnly_retarget (hb : b.Numbered) (hsimple : b.Simple) (old middle new : InstrId) :
    ((b.retarget old middle).retargetOnly (b.labelledOn old) middle new).entries =
      b.entries.map fun e => { e with instr := e.instr.retarget old new } := by
  rw [retargetOnly, retarget, List.map_map]
  refine List.map_congr_left fun e he => ?_
  dsimp only [Function.comp_apply]
  by_cases hlabel : e.instr.hasLabelOn old = true
  · have hmem : e.id ∈ b.labelledOn old := List.mem_map_of_mem (List.mem_filter.2 ⟨he, hlabel⟩)
    rw [if_pos hmem, Instruction.retarget_retarget (hsimple e he) hlabel]
  · have hnot : e.id ∉ b.labelledOn old := by
      -- another instruction with the label would have to share its identity with `e`
      intro hmem
      obtain ⟨e', he', hid⟩ := List.mem_map.1 hmem
      rw [List.mem_filter] at he'
      obtain rfl := hb.ext he'.1 he hid
      exact hlabel he'.2
    rw [Bool.not_eq_true] at hlabel
    rw [if_neg hnot, Instruction.retarget_of_not_hasLabelOn hlabel, Instruction.retarget_of_not_hasLabelOn hlabel]

/-- Taking an instruction out and putting another one in, with the labels moved by way of `middle`, substitutes it. -/
theorem retargetOnly_insert (hb : b.Numbered) (hsimple : b.Simple) {p : Nat} {e : Entry}
    (he : b.entries[p]? = some e) {rest : Body} (hrest : rest = { b with entries := b.entries.eraseIdx p })
    (middle : InstrId) (xs : Array Binding) (i : Instruction) :
    ∃ b₁, { rest.retarget e.id middle with externals := xs }.insert p i = .ok b₁ ∧
      b₁.retargetOnly (rest.labelledOn e.id) middle b.freshId = { b.substitute p e.id i with externals := xs } := by
  have hp : p < b.entries.length := (List.getElem?_eq_some_iff.1 he).1
  have hentries : rest.entries = b.entries.eraseIdx p := by rw [hrest]
  have hsub : rest.entries.Sublist b.entries := hentries ▸ List.eraseIdx_sublist b.entries p
  have hmoved : ((rest.retarget e.id middle).retargetOnly (rest.labelledOn e.id) middle b.freshId).entries =
      rest.entries.map fun e' => { e' with instr := e'.instr.retarget e.id b.freshId } :=
    retargetOnly_retarget (hb.erase (erase_ok_iff.2 ⟨he, hrest⟩)) (fun e' he' => hsimple e' (hsub.subset he')) ..
  have hfresh : b.freshId ∉ rest.labelledOn e.id := by
    intro hmem
    obtain ⟨e', he', hid⟩ := List.mem_map.1 hmem
    exact hb.freshId_not_mem (hid ▸ List.mem_map_of_mem (hsub.subset (List.mem_filter.1 he').1))
  have hlength : p ≤ (rest.retarget e.id middle).entries.length := by
    rw [retarget, List.length_map, hentries, List.length_eraseIdx_of_lt hp]
    omega
  -- the new instruction is not among those whose labels are moved, so moving them commutes with the insertion
  have hset : ((rest.retarget e.id middle).entries.insertIdx p ⟨b.freshId, i⟩).map (fun e' =>
        if e'.id ∈ rest.labelledOn e.id then { e' with instr := e'.instr.retarget middle b.freshId } else e') =
      (b.entries.map fun e' => { e' with instr := e'.instr.retarget e.id b.freshId }).set p ⟨b.freshId, i⟩ := by
    rw [List.map_insertIdx, if_neg hfresh, ← List.insertIdx_eraseIdx_self (by rw [List.length_map]; omega),
      List.eraseIdx_map, ← hentries, ← hmoved]
    rfl
  refine ⟨_, if_pos hlength, ?_⟩
  subst hrest
  exact congrArg (fun es => { b with entries := es, externals := xs, nextId := b.nextId + 1 }) hset

/-! ### The substituted body -/

section Substitute

variable {p : Nat} {e : Entry} {i : Instruction}

theorem substitute_instr? (he : b.entries[p]? = some e) (q : Nat) : (b.substitute p e.id i).instr? q =
    if q = p then some i else (b.instr? q).map (Instruction.retarget e.id b.freshId) := by
  have hp : p < b.entries.length := (List.getElem?_eq_some_iff.1 he).1
  rw [instr?, instr?, substitute, List.getElem?_set, List.length_map, List.getElem?_map]
  by_cases hq : p = q
  · rw [if_pos hq, if_pos hp, if_pos hq.symm]
    rfl
  · rw [if_neg hq, if_neg (Ne.symm hq), Option.map_map, Option.map_map]
    rfl

theorem substitute_id? (he : b.entries[p]? = some e) (q : Nat) : (b.substitute p e.id i).id? q =
    if q = p then some b.freshId else b.id? q := by
  have hp : p < b.entries.length := (List.getElem?_eq_some_iff.1 he).1
  rw [id?, id?, substitute, List.getElem?_set, List.length_map, List.getElem?_map]
  by_cases hq : p = q
  · rw [if_pos hq, if_pos hp, if_pos hq.symm]
    rfl
  · rw [if_neg hq, if_neg (Ne.symm hq), Option.map_map]
    rfl

theorem freshId_mem_substitute (he : b.entries[p]? = some e) :
    b.freshId ∈ (b.substitute p e.id i).entries.map Entry.id :=
  mem_ids_of_id? ((substitute_id? he p).trans (if_pos rfl))

/-- The identities of the other instructions stay. -/
theorem mem_ids_substitute (he : b.entries[p]? = some e) {t : InstrId} (ht : t ∈ b.entries.map Entry.id)
    (hne : t ≠ e.id) : t ∈ (b.substitute p e.id i).entries.map Entry.id := by
  obtain ⟨q, hq⟩ := List.mem_iff_getElem?.1 ht
  have hid : b.id? q = some t := by rw [id?, ← List.getElem?_map, hq]
  have hqp : q ≠ p := by
    rintro rfl
    rw [id?, he, Option.map_some, Option.some.injEq] at hid
    exact hne hid.symm
  exact mem_ids_of_id? ((substitute_id? he q).trans ((if_neg hqp).trans hid))

/-- Every instruction of the new body but the new one comes from one of the old body. -/
theorem mem_entries_substitute {old : InstrId} {e' : Entry} (he' : e' ∈ (b.substitute p old i).entries) :
    e'.id = b.freshId ∨ ∃ e₀ ∈ b.entries, e' = ⟨e₀.id, e₀.instr.retarget old b.freshId⟩ := by
  rcases List.mem_or_eq_of_mem_set he' with he' | rfl
  · obtain ⟨e₀, he₀, rfl⟩ := List.mem_map.1 he'
    exact .inr ⟨e₀, he₀, rfl⟩
  · exact .inl rfl

theorem length_substitute (b : Body) (p : Nat) (old : InstrId) (i : Instruction) :
    (b.substitute p old i).length = b.length := by
  rw [length, substitute, List.length_set, List.length_map, length]

theorem Numbered.substitute (hb : b.Numbered) (p : Nat) (old : InstrId) (i : Instruction) :
    (b.substitute p old i).Numbered := by
  have hids : (b.substitute p old i).entries.map Entry.id = (b.entries.map Entry.id).set p b.freshId := by
    rw [Body.substitute, List.map_set, List.map_map]
    rfl
  constructor
  · rw [hids]
    exact hb.nodup.set hb.freshId_not_mem
  · intro e he
    rcases List.mem_or_eq_of_mem_set he with he | rfl
    · obtain ⟨e', he', rfl⟩ := List.mem_map.1 he
      exact Nat.lt_succ_of_lt (hb.fresh e' he')
    · exact Nat.lt_succ_self _

theorem Numbered.withCall (hb : b.Numbered) (p : Nat) (old : InstrId) (x : Binding) : (b.withCall p old x).Numbered :=
  have h := hb.substitute p old ⟨.call, [.external (UInt16.ofNat b.externals.size)]⟩
  ⟨h.nodup, h.fresh⟩

/-- A label names the same position as before, one on the old instruction as well. -/
theorem substitute_positionOf? (hb : b.Numbered) (he : b.entries[p]? = some e) {t : InstrId} (ht : t ≠ b.freshId) :
    (b.substitute p e.id i).positionOf? (if t = e.id then b.freshId else t) = b.positionOf? t := by
  refine Option.ext fun q => ?_
  rw [positionOf?_eq_some_iff (hb.substitute ..), positionOf?_eq_some_iff hb, substitute_id? he]
  have hid := id?_of_getElem? he
  by_cases hold : t = e.id
  · subst hold
    rw [if_pos rfl]
    by_cases hq : q = p
    · rw [if_pos hq, hq, hid]
      exact iff_of_true rfl rfl
    · rw [if_neg hq]
      -- the old identity stands at `p` only, and the fresh one nowhere in the old body
      refine iff_of_false (fun hfresh => ?_) (fun hhere => hq ?_)
      · exact hb.freshId_not_mem (mem_ids_of_id? hfresh)
      · exact hb.eq_of_id? hhere hid
  · rw [if_neg hold]
    by_cases hq : q = p
    · rw [if_pos hq, hq, hid]
      exact iff_of_false (fun h => ht (Option.some.inj h).symm) (fun h => hold (Option.some.inj h).symm)
    · rw [if_neg hq]

/-- A branch goes to the same position as before. -/
theorem substitute_target? (hb : b.Numbered) (he : b.entries[p]? = some e) {j : Instruction}
    (hj : ∀ t, j.label? = some t → t ≠ b.freshId) :
    (b.substitute p e.id i).target? (j.retarget e.id b.freshId) = b.target? j := by
  rw [target?, target?, Instruction.label?_retarget]
  cases hlabel : j.label? with
  | none => rfl
  | some t => exact substitute_positionOf? hb he (hj t hlabel)

end Substitute

end Body

end Graft
