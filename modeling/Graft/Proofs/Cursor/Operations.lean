import Graft.Proofs.Cursor.Branches
import Graft.Proofs.Cursor.Stability
import Graft.Proofs.Plan.Selection

/-!
# What all operations at a cursor keep

A cursor stands inside its body, and remembers a removal exactly as long as it stands in the gap that this has left. Labels
name instructions of the body, or instructions that were the last ones when they were removed.

* `Cursor.Operation` is an operation at a cursor, and `Cursor.Reached` says where operations lead.
* `Cursor.Intact` is the invariant, `Intact.run` says that every operation keeps it, and `Reached.stays_intact` that it holds
  throughout, with all that can go wrong on the way.
-/

namespace Graft

/-! ### Labels that name nothing -/

namespace Body

variable {b rest : Body} {p : Nat} {e : Entry} {lost : List InstrId}

/-- Every label names an instruction of the body, or one of the instructions in a list. -/
def LinkedBut (lost : List InstrId) (b : Body) : Prop :=
  ∀ e ∈ b.entries, ∀ t, .label t ∈ e.instr.operands → t ∈ b.entries.map Entry.id ∨ t ∈ lost

/-- A label of an instruction after all its labels on `source` have been moved to `target`. -/
private theorem mem_operands_retarget {i : Instruction} {source target t : InstrId}
    (h : .label t ∈ (i.retarget source target).operands) : t = target ∨ t ≠ source ∧ .label t ∈ i.operands := by
  obtain ⟨o, ho, hmoved⟩ := List.mem_map.1 h
  have hfollows := Operand.follows_retarget source target o
  rw [hmoved] at hfollows
  cases hfollows with
  | moved => exact .inl rfl
  | kept other => exact .inr ⟨fun heq => other (heq ▸ rfl), ho⟩

/-- A label on an instruction that is taken out goes on to the next one. If there is none, it was the last. -/
theorem LinkedBut.remove (h : b.LinkedBut lost) (he : b.entries[p]? = some e)
    (hrest : rest = { b with entries := b.entries.eraseIdx p }) :
    (rest.retarget e.id ((rest.id? p).getD e.id)).LinkedBut
      ((if p + 1 = b.length then [e.id] else []) ++ lost) := by
  have hp : p < b.entries.length := (List.getElem?_eq_some_iff.1 he).1
  have hentries : rest.entries = b.entries.eraseIdx p := by rw [hrest]
  intro e' he' t ht
  rw [ids_retarget, List.mem_append]
  obtain ⟨e₀, he₀, rfl⟩ := List.mem_map.1 he'
  rcases mem_operands_retarget ht with rfl | ⟨hne, ht⟩
  · cases hnext : rest.id? p with
    | some successor => exact .inl (mem_ids_of_id? hnext)
    | none =>
      have hend : rest.entries.length ≤ p := by
        rw [id?, Option.map_eq_none_iff] at hnext
        exact List.getElem?_eq_none_iff.1 hnext
      rw [hentries, List.length_eraseIdx_of_lt hp] at hend
      have hlast : p + 1 = b.length := by
        rw [length]
        omega
      rw [if_pos hlast]
      exact .inr (.inl List.mem_cons_self)
  · rw [hentries] at he₀
    rcases h e₀ ((List.eraseIdx_sublist _ _).subset he₀) t ht with hin | hlost
    · obtain ⟨e₁, he₁, rfl⟩ := List.mem_map.1 hin
      have hother : e₁ ∈ rest.entries := by
        rw [hentries]
        refine (List.mem_eraseIdx_iff_getElem?).2 ?_
        obtain ⟨q, hq⟩ := List.mem_iff_getElem?.1 he₁
        refine ⟨q, fun hqp => hne ?_, hq⟩
        rw [hqp, he] at hq
        rw [Option.some.inj hq]
      exact .inl (List.mem_map_of_mem hother)
    · exact .inr (.inr hlost)

theorem LinkedBut.insert {b' : Body} {i : Instruction} (h : b.LinkedBut lost)
    (hi : ∀ t, .label t ∈ i.operands → t ∈ b.entries.map Entry.id ∨ t = b.freshId) (hb' : b.insert p i = .ok b') :
    b'.LinkedBut lost := by
  obtain ⟨hp, rfl⟩ := insert_ok_iff.1 hb'
  have hperm : (b.entries.insertIdx p ⟨b.freshId, i⟩).Perm (⟨b.freshId, i⟩ :: b.entries) := List.perm_insertIdx _ _ hp
  have hids (t : InstrId) : t ∈ (b.entries.insertIdx p ⟨b.freshId, i⟩).map Entry.id ↔
      t = b.freshId ∨ t ∈ b.entries.map Entry.id := by
    rw [(hperm.map Entry.id).mem_iff, List.map_cons, List.mem_cons]
  intro e he t ht
  dsimp only at he ⊢
  rw [hids]
  rcases List.mem_cons.1 (hperm.mem_iff.1 he) with rfl | he
  · exact .inl (hi t ht).symm
  · exact (h e he t ht).imp_left .inr

theorem LinkedBut.retargetOnly {target : InstrId} (h : b.LinkedBut lost) (htarget : target ∈ b.entries.map Entry.id)
    (ids : List InstrId) (source : InstrId) : (b.retargetOnly ids source target).LinkedBut lost := by
  intro e he t ht
  rw [ids_retargetOnly]
  obtain ⟨e₀, he₀, rfl⟩ := List.mem_map.1 he
  split at ht
  · rcases mem_operands_retarget ht with rfl | ⟨-, ht⟩
    · exact .inl htarget
    · exact h e₀ he₀ t ht
  · exact h e₀ he₀ t ht

end Body

namespace Cursor

/-! ### Operations -/

/-- `insertCall`, with the cursor that is left behind also when it fails. If the insertion failed, the external value
would stay in the table. -/
def insertCallStepwise (c : Cursor) (x : Binding) : Except PatchError UInt16 × Cursor :=
  match c.removal with
  | some r => if standsIn r.effect x.type then bound else (.error (.effectMismatch r.effect x.type), c)
  | none => bound
where
  /-- The call, once it is known to stand in for what was removed. -/
  bound : Except PatchError UInt16 × Cursor :=
    match c.body.bind x with
    | .error e => (.error (.body e), c)
    | .ok (row, b) =>
      match { c with body := b }.insert ⟨.call, [.external row]⟩ with
      | .error e => (.error e, { c with body := b })
      | .ok (_, c) => (.ok row, c)

/-- An operation at a cursor. -/
inductive Operation where
  | seekFirst
  | seekTo (pos : Nat)
  | moveBy (delta : Int)
  | findNext (test : Instruction → Bool)
  | findSequence (tests : List (Instruction → Bool))
  | remove
  | insert (i : Instruction)
  | insertCall (x : Binding)
  | replaceCurrent (x : Binding)
  | replaceNth (test : Instruction → Bool) (n : Nat) (x : Binding)

namespace Operation

/-- Carries out an operation. A move that is not possible leaves the cursor where it is. -/
def run (c : Cursor) : Operation → Except PatchError Unit × Cursor
  | seekFirst => (.ok (), c.seekFirst)
  | seekTo pos => (.ok (), (c.seekTo? pos).getD c)
  | moveBy delta => (.ok (), (c.moveBy? delta).getD c)
  | findNext test => (.ok (), (c.findNext test).2)
  | findSequence tests => (.ok (), (c.findSequence tests).2)
  | remove =>
    match c.remove with
    | .ok (_, c) => (.ok (), c)
    | .error e => (.error e, c)
  | insert i =>
    match c.insert i with
    | .ok (_, c) => (.ok (), c)
    | .error e => (.error e, c)
  | insertCall x => ((c.insertCallStepwise x).1.map fun _ => (), (c.insertCallStepwise x).2)
  | replaceCurrent x => ((c.replaceCurrent x).1.map fun _ => (), (c.replaceCurrent x).2)
  | replaceNth test n x => ((c.replaceNth test n x).1.map fun _ => (), (c.replaceNth test n x).2)

/-- The labels of an instruction that is inserted name instructions of the body, itself included. -/
def Linked (c : Cursor) : Operation → Prop
  | insert i => ∀ t, .label t ∈ i.operands → t ∈ c.body.entries.map Entry.id ∨ t = c.body.freshId
  | _ => True

end Operation

/-- The current instruction, if it is the last one. -/
def last (c : Cursor) : List InstrId :=
  match c.place with
  | .on pos => if pos + 1 = c.body.length then (c.body.id? pos).toList else []
  | _ => []

/-- The instruction that an operation removes, if it is the last one. -/
def Operation.lost (c : Cursor) : Operation → List InstrId
  | remove | replaceCurrent _ => c.last
  | replaceNth test n _ => (c.findNth test n).last
  | _ => []

/-- The cursors that operations lead to from the start of a body, and the instructions that were removed on the way while
they were the last ones. -/
inductive Reached (b : Body) : Cursor → List InstrId → Prop
  | start : Reached b { body := b } []
  | step {c : Cursor} {lost : List InstrId} (before : Reached b c lost) (op : Operation) (linked : op.Linked c) :
      Reached b (op.run c).2 (op.lost c ++ lost)

/-- A cursor stands inside its body, knows of a removal exactly if it stands in a gap, and all labels that name nothing
name instructions in a list. -/
structure Intact (c : Cursor) (lost : List InstrId) : Prop where
  numbered : c.body.Numbered
  on : ∀ {p : Nat}, c.place = .on p → p < c.body.length
  gap : ∀ {p : Nat}, c.place = .gap p → p ≤ c.body.length
  removal : c.removal.isSome = true ↔ ∃ p, c.place = .gap p
  labels : c.body.LinkedBut lost

/-- Why a call cannot be put in. -/
inductive CallFailure (c : Cursor) (x : Binding) : PatchError → Prop
  | mismatch {r : Removal} (removal : c.removal = some r) (differs : r.effect ≠ some ⟨0, 1, some x.type⟩) :
      CallFailure c x (.effectMismatch r.effect x.type)
  | full (size : Body.maxExternals ≤ c.body.externals.size) : CallFailure c x (.body .tooManyExternals)

variable {b : Body} {c c₁ : Cursor} {lost : List InstrId} {x : Binding} {i : Instruction}

/-! ### Moves and searches -/

/-- A cursor stays intact when it goes to an instruction, to the start or behind the end. -/
private theorem Intact.moveTo (h : Intact c lost) {place : Place} (hon : ∀ p, place = .on p → p < c.body.length)
    (hgap : ∀ p, place ≠ .gap p) : Intact (c.moveTo place) lost where
  numbered := h.numbered
  on := fun {p} => hon p
  gap := fun {p} hp => absurd hp (hgap p)
  removal := iff_of_false (by simp [Cursor.moveTo]) fun ⟨p, hp⟩ => hgap p hp
  labels := h.labels

private theorem Intact.seekTo (h : Intact c lost) (p : Nat) : Intact ((c.seekTo? p).getD c) lost := by
  unfold seekTo?
  split
  · rename_i hp
    exact h.moveTo (fun q hq => Place.on.inj hq ▸ hp) nofun
  · exact h

private theorem Intact.moveBy (h : Intact c lost) (delta : Int) : Intact ((c.moveBy? delta).getD c) lost := by
  unfold moveBy?
  cases c.target? delta with
  | none => exact h
  | some q =>
    dsimp only [Option.bind_some]
    split
    · exact h
    · exact h.seekTo _

private theorem Intact.findNext (h : Intact c lost) (test : Instruction → Bool) : Intact (c.findNext test).2 lost := by
  cases hstart : c.scanStart? with
  | none =>
    rw [Cursor.findNext, hstart]
    exact h
  | some start =>
    rcases c.findNext_spec test hstart with ⟨p, i, hfound, hi, -⟩ | ⟨hfound, -⟩
    · rw [hfound]
      exact h.moveTo (fun q hq => Place.on.inj hq ▸ Typing.lt_length_of_instr? hi) nofun
    · rw [hfound]
      exact h.moveTo nofun nofun

private theorem lt_of_windowFrom? {tests : List (Instruction → Bool)} {is : List Instruction} {start p : Nat}
    (h : windowFrom? tests start is = some p) : p < start + is.length := by
  induction is generalizing start with
  | nil => cases h
  | cons i is ih =>
    rw [List.length_cons]
    unfold windowFrom? at h
    split at h
    · obtain rfl := Option.some.inj h
      omega
    · have := ih h
      omega

private theorem Intact.findSequence (h : Intact c lost) (tests : List (Instruction → Bool)) :
    Intact (c.findSequence tests).2 lost := by
  unfold Cursor.findSequence
  split
  · exact h
  · split
    · exact h
    · rename_i start hstart
      split
      · rename_i p hp
        refine h.moveTo (fun q hq => Place.on.inj hq ▸ ?_) nofun
        have hlt := lt_of_windowFrom? hp
        have hnonempty : c.body.instrs.drop start ≠ [] := by
          intro hnil
          rw [hnil] at hp
          cases hp
        rw [List.length_drop, Body.length_instrs] at hlt
        rw [ne_eq, List.drop_eq_nil_iff, Body.length_instrs] at hnonempty
        omega
      · exact h.moveTo nofun nofun

private theorem Intact.findNth (h : Intact c lost) (test : Instruction → Bool) (n : Nat) :
    Intact (c.findNth test n) lost := by
  induction n generalizing c with
  | zero => exact h
  | succ n ih =>
    have hnext := h.findNext test
    unfold Cursor.findNth
    split
    all_goals
      rename_i c₁ hfound
      rw [hfound] at hnext
    · exact ih hnext
    · exact hnext

/-! ### Edits -/

/-- Only where there is no current instruction, none is removed. -/
private theorem Intact.remove_cases (h : Intact c lost) :
    (∃ i c₁, c.remove = .ok (i, c₁) ∧ Intact c₁ (c.last ++ lost)) ∨
      (c.remove = .error .noCurrentInstruction ∧ ∀ p, c.place ≠ .on p) := by
  cases hplace : c.place with
  | on p =>
    have hp : p < c.body.entries.length := h.on hplace
    have he : c.body.entries[p]? = some c.body.entries[p] := List.getElem?_eq_getElem hp
    obtain ⟨branches, hremove, -⟩ := remove_eq hplace he rfl
    refine .inl ⟨_, _, hremove, ?_⟩
    have hlost : c.last = if p + 1 = c.body.length then [c.body.entries[p].id] else [] := by
      simp only [last, hplace, Body.id?, he]
      rfl
    constructor
    · exact Body.stable_numbered.remove h.numbered hremove
    · intro q hq
      cases hq
    · intro q hq
      obtain rfl := Place.gap.inj hq
      rw [Body.length, Body.retarget, List.length_map, List.length_eraseIdx_of_lt hp]
      omega
    · exact iff_of_true rfl ⟨p, rfl⟩
    · rw [hlost]
      exact h.labels.remove he rfl
  | _ =>
    refine .inr ⟨by rw [Cursor.remove, hplace], fun p hp => ?_⟩
    cases hp

private theorem Intact.insertionPoint_le (h : Intact c lost) : c.insertionPoint ≤ c.body.length := by
  unfold insertionPoint
  split
  · exact Nat.zero_le _
  · exact Nat.le_of_lt (h.on ‹_›)
  · exact h.gap ‹_›
  · exact Nat.le_refl _

private theorem Intact.exists_insert (h : Intact c lost) (i : Instruction) : ∃ t c₁, c.insert i = .ok (t, c₁) := by
  have hinsert : c.body.insert c.insertionPoint i = .ok _ := Body.insert_ok_iff.2 ⟨h.insertionPoint_le, rfl⟩
  unfold Cursor.insert
  simp only [hinsert]
  exact ⟨_, _, rfl⟩

private theorem Intact.insert (h : Intact c lost) (hi : (Operation.insert i).Linked c) {t : InstrId}
    (hinsert : c.insert i = .ok (t, c₁)) : Intact c₁ lost := by
  have hnumbered := Body.stable_numbered.insertAt h.numbered hinsert
  unfold Cursor.insert at hinsert
  dsimp only at hinsert
  split at hinsert
  · cases hinsert
  · rename_i b hb
    have hlabels := h.labels.insert hi hb
    obtain ⟨-, rfl⟩ := Prod.mk.inj (Except.ok.inj hinsert)
    have hlength : c.insertionPoint < b.length := by
      obtain ⟨hp, rfl⟩ := Body.insert_ok_iff.1 hb
      show _ < (c.body.entries.insertIdx _ _).length
      rw [List.length_insertIdx_of_le_length hp]
      exact Nat.lt_succ_of_le hp
    have hnew : c.body.freshId ∈ b.entries.map Entry.id := by
      obtain ⟨hp, rfl⟩ := Body.insert_ok_iff.1 hb
      exact List.mem_map.2 ⟨_, (List.mem_insertIdx hp).2 (.inl rfl), rfl⟩
    refine ⟨hnumbered, fun {q} hq => ?_, nofun, iff_of_false Bool.false_ne_true nofun, ?_⟩
    · obtain rfl := Place.on.inj hq
      dsimp only
      split
      · show _ < (b.entries.map _).length
        rw [List.length_map]
        exact hlength
      · exact hlength
    · dsimp only
      split
      · exact hlabels.retargetOnly hnew _ _
      · exact hlabels

/-- What `insertCall` gives is what the steps give. -/
theorem insertCall_eq (c : Cursor) (x : Binding) :
    c.insertCall x = (c.insertCallStepwise x).1.map fun n => (n, (c.insertCallStepwise x).2) := by
  have hbound : insertCall.bound c x =
      (insertCallStepwise.bound c x).1.map fun n => (n, (insertCallStepwise.bound c x).2) := by
    unfold insertCall.bound insertCallStepwise.bound
    cases c.body.bind x with
    | error e => rfl
    | ok r =>
      dsimp only
      cases { c with body := r.2 }.insert ⟨.call, [.external r.1]⟩ with
      | error e => rfl
      | ok r => rfl
  unfold insertCall insertCallStepwise
  cases c.removal with
  | none => exact hbound
  | some r =>
    dsimp only
    split
    · exact hbound
    · rfl

private theorem size_of_bind {b : Body} {e : Error} (h : b.bind x = .error e) :
    e = .tooManyExternals ∧ Body.maxExternals ≤ b.externals.size := by
  unfold Body.bind at h
  dsimp only at h
  split at h
  · cases h
  · exact ⟨(Except.error.inj h).symm, Nat.le_of_not_lt ‹_›⟩

/-- A call is put in, or the cursor stays as it was. -/
private theorem Intact.insertCall_cases (h : Intact c lost) (x : Binding) :
    (∃ n c₁, c.insertCallStepwise x = (.ok n, c₁) ∧ Intact c₁ lost) ∨
      ∃ e, c.insertCallStepwise x = (.error e, c) ∧ CallFailure c x e := by
  have hbound : (∃ n c₁, insertCallStepwise.bound c x = (.ok n, c₁) ∧ Intact c₁ lost) ∨
      ∃ e, insertCallStepwise.bound c x = (.error e, c) ∧ CallFailure c x e := by
    unfold insertCallStepwise.bound
    cases hbind : c.body.bind x with
    | error e =>
      obtain ⟨rfl, hsize⟩ := size_of_bind hbind
      exact .inr ⟨_, rfl, .full hsize⟩
    | ok r =>
      obtain ⟨row, b⟩ := r
      obtain ⟨-, -, rfl⟩ := Body.bind_ok_iff.1 hbind
      -- one more external value changes nothing that an insertion asks for, so this cannot fail
      have hb : Intact { c with body := { c.body with externals := c.body.externals.push x } } lost :=
        ⟨h.numbered.bind hbind, h.on, h.gap, h.removal, h.labels⟩
      obtain ⟨t, c₁, hinsert⟩ := hb.exists_insert ⟨.call, [.external row]⟩
      refine .inl ⟨row, c₁, ?_, hb.insert (fun t ht => ?_) hinsert⟩
      · simp only [hinsert]
      · simp at ht
  unfold insertCallStepwise
  cases hr : c.removal with
  | none => exact hbound
  | some r =>
    dsimp only
    split
    · exact hbound
    · rename_i hdiffers
      refine .inr ⟨_, rfl, .mismatch hr fun heq => hdiffers ?_⟩
      rw [heq, standsIn, beq_self_eq_true]

private theorem Intact.replaceCurrent (h : Intact c lost) (x : Binding) :
    Intact (c.replaceCurrent x).2 (c.last ++ lost) := by
  unfold Cursor.replaceCurrent
  rcases h.remove_cases with ⟨i, c₁, hremove, h₁⟩ | ⟨hremove, hplace⟩
  · rw [hremove]
    dsimp only
    rw [insertCall_eq]
    rcases h₁.insertCall_cases x with ⟨n, c₂, hcall, h₂⟩ | ⟨e, hcall, -⟩
    · rw [hcall]
      exact h₂
    · rw [hcall]
      exact h₁
  · have hlast : c.last = [] := by
      unfold last
      split
      · exact absurd ‹_› (hplace _)
      · rfl
    rw [hremove, hlast]
    exact h

/-! ### All operations -/

/-- Every operation keeps a cursor intact. -/
theorem Intact.run (h : Intact c lost) {op : Operation} (hop : op.Linked c) :
    Intact (op.run c).2 (op.lost c ++ lost) := by
  cases op with
  | seekFirst => exact h.moveTo nofun nofun
  | seekTo p => exact h.seekTo p
  | moveBy delta => exact h.moveBy delta
  | findNext test => exact h.findNext test
  | findSequence tests => exact h.findSequence tests
  | remove =>
    unfold Operation.run
    rcases h.remove_cases with ⟨i, c₁, hremove, h₁⟩ | ⟨hremove, hplace⟩
    · simp only [hremove]
      exact h₁
    · simp only [hremove]
      exact ⟨h.numbered, h.on, h.gap, h.removal, fun e he t ht =>
        (h.labels e he t ht).imp_right (List.mem_append_right _)⟩
  | insert i =>
    obtain ⟨t, c₁, hinsert⟩ := h.exists_insert i
    unfold Operation.run
    simp only [hinsert]
    exact h.insert hop hinsert
  | insertCall x =>
    rcases h.insertCall_cases x with ⟨n, c₁, hcall, h₁⟩ | ⟨e, hcall, -⟩
    · unfold Operation.run
      simp only [hcall]
      exact h₁
    · unfold Operation.run
      simp only [hcall]
      exact h
  | replaceCurrent x => exact h.replaceCurrent x
  | replaceNth test n x => exact (h.findNth test n).replaceCurrent x

/-- All cursors that operations lead to from the start of a numbered body whose labels all name something are intact. At
each of them an insertion succeeds, and a call that cannot be put in and a removal without a current instruction change
nothing: neither the body with its external values, nor the place, nor what is known of a removal. -/
theorem Reached.stays_intact (hb : b.Numbered) (hlinked : b.Linked) (h : Reached b c lost) :
    Intact c lost ∧ (∀ i, ∃ t c₁, c.insert i = .ok (t, c₁)) ∧
      (∀ x e, ((Operation.insertCall x).run c).1 = .error e →
        CallFailure c x e ∧ ((Operation.insertCall x).run c).2 = c) ∧
      ∀ e, (Operation.remove.run c).1 = .error e → e = .noCurrentInstruction ∧ (Operation.remove.run c).2 = c := by
  have hintact : Intact c lost := by
    induction h with
    | start => exact ⟨hb, nofun, nofun, iff_of_false Bool.false_ne_true nofun, fun e he t ht => .inl (hlinked e he t ht)⟩
    | step _ op linked ih => exact ih.run linked
  refine ⟨hintact, hintact.exists_insert, fun x e he => ?_, fun e he => ?_⟩
  · rcases hintact.insertCall_cases x with ⟨n, c₁, hcall, -⟩ | ⟨e', hcall, hfailure⟩
    · rw [Operation.run, hcall] at he
      cases he
    · rw [Operation.run, hcall] at he ⊢
      obtain rfl := Except.error.inj he
      exact ⟨hfailure, rfl⟩
  · rcases hintact.remove_cases with ⟨i, c₁, hremove, -⟩ | ⟨hremove, -⟩
    · simp only [Operation.run, hremove] at he
      cases he
    · have hrun : Operation.remove.run c = (.error .noCurrentInstruction, c) := by
        simp only [Operation.run, hremove]
      rw [hrun] at he ⊢
      exact ⟨(Except.error.inj he).symm, rfl⟩

/-- The last instruction is removed while there is a branch to it, and then a call is to take the place of another one. -/
theorem stays_intact_crossing : ∃ c, Reached crossing c [⟨5⟩] ∧ Intact c [⟨5⟩] ∧ ¬ c.body.Linked ∧
    ∀ x e, ((Operation.insertCall x).run c).1 = .error e →
      CallFailure c x e ∧ ((Operation.insertCall x).run c).2 = c := by
  have hw : Typing.WellTyped crossing := Typing.wellTyped_of_findings (by decide +kernel)
  have hremoved : Reached crossing _ [⟨5⟩] := (Reached.start.step (.seekTo 5) trivial).step .remove trivial
  have h : Reached crossing _ [⟨5⟩] := (hremoved.step (.findNext fun i => i.op = .ldarg) trivial).step .remove trivial
  obtain ⟨hintact, -, hcall, -⟩ := h.stays_intact ⟨by decide, by decide⟩ hw.linked
  refine ⟨_, h, hintact, fun hlinked => ?_, hcall⟩
  exact absurd (hlinked ⟨⟨3⟩, .brfalse, [.label ⟨5⟩]⟩ (by decide) ⟨5⟩ (by decide)) (by decide)

end Cursor

end Graft
