import Graft.Proofs.Body.Numbering
import Mathlib.Data.List.Forall2
import Mathlib.Data.List.Perm.Basic

/-!
# Identities through operations

What any sequence of operations leaves of a body: an identity names one instruction for ever
(`Body.identities_kept`).

* `Body.Operation` is an operation, step by step as it changes the body, so that one that fails could leave something
  behind. `run_insert` and the like say that this is what the functions on bodies do.
* `Operation.Step` says all that an operation can do, and `Kept` what a sequence of operations keeps of a body;
  `kept_run` says so of one operation, and `kept_runAll` of all.
-/

namespace Graft.Body

/-! ### Operations -/

/-- The identities of the instructions in their order. -/
def ids (b : Body) : List InstrId := b.entries.map Entry.id

/-- The next identity, and the body in which it has been given out. -/
def allocate (b : Body) : InstrId × Body := (b.freshId, { b with nextId := b.nextId + 1 })

/-- An operation on a body. -/
inductive Operation where
  | push (i : Instruction)
  | insert (pos : Nat) (i : Instruction)
  | remove (pos : Nat)
  | retarget (source target : InstrId)
  | retargetOnly (only : List InstrId) (source target : InstrId)
  | bind (x : Binding)
  /-- The body is noted as a copy of a live one. -/
  | revise (revision : Nat)

/-- What an operation answers. -/
inductive Answer where
  | done
  /-- The identity of a new instruction. -/
  | added (id : InstrId)
  | removed (e : Entry)
  | bound (row : UInt16)
deriving DecidableEq

/-- The identity that is given out with an answer. -/
def Answer.added? : Answer → Option InstrId
  | added id => some id
  | _ => none

/-- The identity that is taken away with an answer. -/
def Answer.removed? : Answer → Option InstrId
  | removed e => some e.id
  | _ => none

namespace Operation

/-- An operation, step by step: its answer, and what is there after it, also when it fails. -/
def run (b : Body) : Operation → Except Error Answer × Body
  | push i =>
    let (id, b) := b.allocate
    (.ok (.added id), { b with entries := b.entries ++ [⟨id, i⟩] })
  | insert pos i =>
    if b.length < pos then (.error (.outOfBounds pos b.length), b)
    else
      let (id, b) := b.allocate
      (.ok (.added id), { b with entries := b.entries.insertIdx pos ⟨id, i⟩ })
  | remove pos =>
    match b.entries[pos]? with
    | none => (.error (.outOfBounds pos b.length), b)
    | some e => (.ok (.removed e), { b with entries := b.entries.eraseIdx pos })
  | retarget source target => (.ok .done, b.retarget source target)
  | retargetOnly only source target => (.ok .done, b.retargetOnly only source target)
  | bind x =>
    if maxExternals ≤ b.externals.size then (.error .tooManyExternals, b)
    else (.ok (.bound (UInt16.ofNat b.externals.size)), { b with externals := b.externals.push x })
  | revise revision => (.ok .done, { b with revision := some revision })

/-- What an operation makes of an operand of the instruction `id`. -/
def rewrite (id : InstrId) (o : Operand) : Operation → Operand
  | retarget source target => o.retarget source target
  | retargetOnly only source target => if id ∈ only then o.retarget source target else o
  | _ => o

/-- What an operation that does not remove the instruction `id` makes of it. -/
def relabel (id : InstrId) (i : Instruction) (op : Operation) : Instruction :=
  { i with operands := i.operands.map fun o => op.rewrite id o }

/-- The operation moves the labels on `t` of the instruction `id`. -/
def Names (id t : InstrId) : Operation → Prop
  | retarget source _ => source = t
  | retargetOnly only source _ => id ∈ only ∧ source = t
  | _ => False

/-- Why an operation fails. -/
inductive Failure (b : Body) : Operation → Error → Prop
  | insert {pos : Nat} {i : Instruction} (outside : b.length < pos) :
      Failure b (.insert pos i) (.outOfBounds pos b.length)
  | remove {pos : Nat} (outside : b.length ≤ pos) : Failure b (.remove pos) (.outOfBounds pos b.length)
  | bind {x : Binding} (full : maxExternals ≤ b.externals.size) : Failure b (.bind x) .tooManyExternals

end Operation

/-- The body after operations. -/
def runAll (b : Body) (ops : List Operation) : Body := ops.foldl (fun b op => (op.run b).2) b

/-- What operations answer one after the other. -/
def answers (b : Body) : List Operation → List (Except Error Answer)
  | [] => []
  | op :: ops => (op.run b).1 :: answers (op.run b).2 ops

/-- The identities that operations give out. -/
def given (b : Body) (ops : List Operation) : List InstrId :=
  (b.answers ops).filterMap fun a => a.toOption.bind Answer.added?

/-- The identities of the instructions that operations take away. -/
def removed (b : Body) (ops : List Operation) : List InstrId :=
  (b.answers ops).filterMap fun a => a.toOption.bind Answer.removed?

variable {b b' b'' : Body} {op : Operation} {ops : List Operation} {e : Entry} {t : InstrId}

theorem given_cons (b : Body) (op : Operation) (ops : List Operation) :
    b.given (op :: ops) = b.given [op] ++ (op.run b).2.given ops :=
  List.filterMap_append (l := [(op.run b).1])

theorem removed_cons (b : Body) (op : Operation) (ops : List Operation) :
    b.removed (op :: ops) = b.removed [op] ++ (op.run b).2.removed ops :=
  List.filterMap_append (l := [(op.run b).1])

namespace Operation

theorem run_push (b : Body) (i : Instruction) : (push i).run b = (.ok (.added b.freshId), b.push i) := rfl

theorem run_insert (b : Body) (pos : Nat) (i : Instruction) : (insert pos i).run b =
    match b.insert pos i with
    | .ok b' => (.ok (.added b.freshId), b')
    | .error e => (.error e, b) := by
  simp only [run, Body.insert]
  by_cases hpos : pos ≤ b.length
  · rw [if_pos hpos, if_neg (Nat.not_lt.2 hpos)]
    rfl
  · rw [if_neg hpos, if_pos (Nat.lt_of_not_le hpos)]

theorem run_remove (b : Body) (pos : Nat) : (remove pos).run b =
    match b.erase pos with
    | .ok (e, b') => (.ok (.removed e), b')
    | .error e => (.error e, b) := by
  simp only [run, erase]
  cases b.entries[pos]? with
  | none => rfl
  | some e => rfl

theorem run_bind (b : Body) (x : Binding) : (bind x).run b =
    match b.bind x with
    | .ok (row, b') => (.ok (.bound row), b')
    | .error e => (.error e, b) := by
  simp only [run, Body.bind]
  by_cases hfull : maxExternals ≤ b.externals.size
  · rw [if_pos hfull, if_neg (Nat.not_lt.2 hfull)]
  · rw [if_neg hfull, if_pos (Nat.lt_of_not_le hfull)]

/-- An operation fails for one of three reasons, and has done nothing then. -/
theorem run_eq_error {err : Error} (h : (op.run b).1 = .error err) : Failure b op err ∧ (op.run b).2 = b := by
  cases op with
  | insert pos i =>
    simp only [run] at h ⊢
    split at h
    · rename_i hpos
      obtain rfl := Except.error.inj h
      rw [if_pos hpos]
      exact ⟨.insert hpos, rfl⟩
    · cases h
  | remove pos =>
    simp only [run] at h ⊢
    cases he : b.entries[pos]? with
    | none =>
      rw [he] at h
      obtain rfl := Except.error.inj h
      exact ⟨.remove (List.getElem?_eq_none_iff.1 he), rfl⟩
    | some e =>
      rw [he] at h
      cases h
  | bind x =>
    simp only [run] at h ⊢
    split at h
    · rename_i hfull
      obtain rfl := Except.error.inj h
      rw [if_pos hfull]
      exact ⟨.bind hfull, rfl⟩
    · cases h
  | _ => cases h

/-- All that an operation can do, with its answer: an instruction comes in under a new identity, one is taken away, or
all stay at their places with the labels that the operation gives them. -/
inductive Step (b : Body) (op : Operation) : Except Error Answer → Body → Prop
  | add {pos : Nat} {i : Instruction} {b' : Body} (inserted : b.insert pos i = .ok b')
      (same : ∀ id j, op.relabel id j = j) : Step b op (.ok (.added b.freshId)) b'
  | take {pos : Nat} {e : Entry} {b' : Body} (erased : b.erase pos = .ok (e, b'))
      (same : ∀ id j, op.relabel id j = j) : Step b op (.ok (.removed e)) b'
  | label {a : Except Error Answer} {b' : Body}
      (entries : b'.entries = b.entries.map fun e => { e with instr := op.relabel e.id e.instr })
      (nextId : b'.nextId = b.nextId) (added : a.toOption.bind Answer.added? = none)
      (removed : a.toOption.bind Answer.removed? = none) : Step b op a b'

private theorem relabel_eq_self (h : ∀ id o, op.rewrite id o = o) (id : InstrId) (i : Instruction) :
    op.relabel id i = i := by
  simp only [relabel, h, List.map_id']

/-- An operation that relabels nothing and leaves the instructions as they are. -/
private theorem Step.still {a : Except Error Answer} (hentries : b'.entries = b.entries) (hnext : b'.nextId = b.nextId)
    (hsame : ∀ id o, op.rewrite id o = o) (hadded : a.toOption.bind Answer.added? = none)
    (hremoved : a.toOption.bind Answer.removed? = none) : Step b op a b' := by
  refine .label ?_ hnext hadded hremoved
  simp only [relabel_eq_self hsame, List.map_id', hentries]

theorem step_run (b : Body) (op : Operation) : Step b op (op.run b).1 (op.run b).2 := by
  cases op with
  | push i =>
    rw [run_push]
    exact .add (insert_length b i) (relabel_eq_self fun _ _ => rfl)
  | insert pos i =>
    rw [run_insert]
    cases h : b.insert pos i with
    | ok b' => exact .add h (relabel_eq_self fun _ _ => rfl)
    | error err => exact .still rfl rfl (fun _ _ => rfl) rfl rfl
  | remove pos =>
    rw [run_remove]
    cases h : b.erase pos with
    | ok x => exact .take h (relabel_eq_self fun _ _ => rfl)
    | error err => exact .still rfl rfl (fun _ _ => rfl) rfl rfl
  | retarget source target => exact .label rfl rfl rfl rfl
  | retargetOnly only source target =>
    refine .label (List.map_congr_left fun e _ => ?_) rfl rfl rfl
    by_cases hid : e.id ∈ only
    · simp only [relabel, rewrite, if_pos hid]
      rfl
    · simp only [relabel, rewrite, if_neg hid, List.map_id']
  | bind x =>
    rw [run_bind]
    cases h : b.bind x with
    | ok r =>
      obtain ⟨-, -, hbody⟩ := bind_ok_iff.1 (h : b.bind x = .ok (r.1, r.2))
      exact .still (by rw [hbody]) (by rw [hbody]) (fun _ _ => rfl) rfl rfl
    | error err => exact .still rfl rfl (fun _ _ => rfl) rfl rfl
  | revise revision => exact .still rfl rfl (fun _ _ => rfl) rfl rfl

end Operation

/-! ### Identities that are given out and taken away -/

/-- What is collected from the answer of one operation. -/
private theorem filterMap_answers (b : Body) (op : Operation) (f : Answer → Option InstrId) :
    ((b.answers [op]).filterMap fun a => a.toOption.bind f) = ((op.run b).1.toOption.bind f).toList := by
  rw [answers, answers, List.filterMap_cons, List.filterMap_nil]
  cases (op.run b).1.toOption.bind f with
  | none => rfl
  | some id => rfl

private theorem given_eq_toList (b : Body) (op : Operation) :
    b.given [op] = ((op.run b).1.toOption.bind Answer.added?).toList :=
  filterMap_answers b op Answer.added?

private theorem removed_eq_toList (b : Body) (op : Operation) :
    b.removed [op] = ((op.run b).1.toOption.bind Answer.removed?).toList :=
  filterMap_answers b op Answer.removed?

/-- An operation gives out the next identity, or none. -/
private theorem given_step (b : Body) (op : Operation) :
    b.given [op] = [b.freshId] ∧ (op.run b).2.nextId = b.nextId + 1 ∨
      b.given [op] = [] ∧ (op.run b).2.nextId = b.nextId := by
  have hstep := op.step_run b
  rw [given_eq_toList]
  generalize op.run b = r at hstep ⊢
  obtain ⟨a, b'⟩ := r
  cases hstep with
  | add inserted same =>
    obtain ⟨-, rfl⟩ := insert_ok_iff.1 inserted
    exact .inl ⟨rfl, rfl⟩
  | take erased same =>
    obtain ⟨-, rfl⟩ := erase_ok_iff.1 erased
    exact .inr ⟨rfl, rfl⟩
  | label entries nextId added removed =>
    right
    rw [added]
    exact ⟨rfl, nextId⟩

/-- Identities are given out one after the other, and the counter stands behind the last. -/
theorem given_eq (b : Body) (ops : List Operation) :
    b.given ops = (List.range' b.nextId (b.given ops).length).map InstrId.mk ∧
      (b.runAll ops).nextId = b.nextId + (b.given ops).length := by
  induction ops generalizing b with
  | nil => exact ⟨rfl, rfl⟩
  | cons op ops ih =>
    obtain ⟨hgiven, hnext⟩ := ih (op.run b).2
    have hafter : b.runAll (op :: ops) = (op.run b).2.runAll ops := rfl
    rw [given_cons, hafter]
    rcases given_step b op with ⟨hone, hstep⟩ | ⟨hnone, hstep⟩
    · rw [hstep] at hgiven hnext
      rw [hone, List.singleton_append, List.length_cons, List.range'_succ, List.map_cons, ← hgiven]
      exact ⟨rfl, by omega⟩
    · rw [hstep] at hgiven hnext
      rw [hnone, List.nil_append]
      exact ⟨hgiven, hnext⟩

theorem nextId_le_of_mem_given (h : t ∈ b.given ops) : b.nextId ≤ t.number := by
  rw [(given_eq b ops).1] at h
  obtain ⟨n, hn, rfl⟩ := List.mem_map.1 h
  exact (List.mem_range'_1.1 hn).1

theorem Numbered.lt_nextId (hb : b.Numbered) (ht : t ∈ b.ids) : t.number < b.nextId := by
  obtain ⟨e, he, rfl⟩ := List.mem_map.1 ht
  exact hb.fresh e he

theorem Numbered.not_mem_given (hb : b.Numbered) (ht : t ∈ b.ids) : t ∉ b.given ops := by
  intro hgiven
  have hold := hb.lt_nextId ht
  have hnew := nextId_le_of_mem_given hgiven
  omega

/-- An identity that an operation takes away is that of an instruction. -/
private theorem mem_ids_of_mem_removed (h : t ∈ b.removed [op]) : t ∈ b.ids := by
  have hstep := op.step_run b
  rw [removed_eq_toList] at h
  generalize op.run b = r at hstep h
  obtain ⟨a, b'⟩ := r
  cases hstep with
  | add inserted same => cases h
  | take erased same =>
    obtain ⟨he, -⟩ := erase_ok_iff.1 erased
    obtain rfl := List.mem_singleton.1 h
    exact List.mem_map_of_mem (List.mem_of_getElem? he)
  | label entries nextId added removed =>
    rw [removed] at h
    cases h

/-! ### Order -/

/-- What stands in both lists stands in the same order in them. -/
def SameOrder {α : Type} [DecidableEq α] (l l' : List α) : Prop := l'.filter (· ∈ l) = l.filter (· ∈ l')

section SameOrder

variable {α : Type} [DecidableEq α] {l l' l'' : List α}

theorem SameOrder.refl (l : List α) : SameOrder l l := Eq.refl _

theorem SameOrder.symm (h : SameOrder l l') : SameOrder l' l := Eq.symm h

theorem SameOrder.of_sublist (h : l.Sublist l') (hnodup : l'.Nodup) : SameOrder l l' := by
  have hleft : l.filter (· ∈ l') = l := List.filter_eq_self.2 fun a ha => decide_eq_true (h.subset ha)
  rw [SameOrder, hleft]
  clear hleft
  induction h with
  | slnil => rfl
  | @cons l l' a hsub ih =>
    obtain ⟨hnot, hnodup⟩ := List.nodup_cons.1 hnodup
    have hout : a ∉ l := fun hin => hnot (hsub.subset hin)
    rw [List.filter_cons_of_neg (by simpa using hout), ih hnodup]
  | @cons_cons l l' a hsub ih =>
    obtain ⟨hnot, hnodup⟩ := List.nodup_cons.1 hnodup
    rw [List.filter_cons_of_pos (by simp)]
    congr 1
    refine Eq.trans (List.filter_congr fun c hc => ?_) (ih hnodup)
    have hne : c ≠ a := fun heq => hnot (heq ▸ hc)
    simp [hne]

/-- Order is kept in two steps, if the second one does not bring back what the first one takes away. -/
theorem SameOrder.trans (h : SameOrder l l') (h' : SameOrder l' l'') (hback : ∀ a ∈ l, a ∈ l'' → a ∈ l') :
    SameOrder l l'' := by
  have hsame (m : List α) (p q : α → Bool) : (m.filter p).filter q = (m.filter q).filter p := by
    simp only [List.filter_filter, Bool.and_comm]
  calc l''.filter (· ∈ l)
      = (l''.filter (· ∈ l')).filter (· ∈ l) := by
        rw [List.filter_filter]
        refine List.filter_congr fun a ha => ?_
        by_cases hin : a ∈ l
        · simp [hin, hback a hin ha]
        · simp [hin]
    _ = (l'.filter (· ∈ l)).filter (· ∈ l'') := by rw [h', hsame]
    _ = (l.filter (· ∈ l'')).filter (· ∈ l') := by rw [h, hsame]
    _ = l.filter (· ∈ l'') := by
        refine List.filter_eq_self.2 fun a ha => ?_
        obtain ⟨hin, hin''⟩ := List.mem_filter.1 ha
        exact decide_eq_true (hback a hin (of_decide_eq_true hin''))

end SameOrder

/-! ### What operations keep -/

/-- What operations that lead from `b` to `b'` keep. -/
structure Kept (b : Body) (ops : List Operation) (b' : Body) : Prop where
  numbered : b'.Numbered
  /-- Identities come in by being given out, and go by being taken away. -/
  mem_ids : ∀ {t : InstrId}, t ∈ b'.ids ↔ (t ∈ b.ids ∨ t ∈ b.given ops) ∧ t ∉ b.removed ops
  order : SameOrder b.ids b'.ids
  /-- An instruction that stays has been relabelled by one operation after the other. -/
  instr : ∀ {e e' : Entry}, e ∈ b.entries → e' ∈ b'.entries → e'.id = e.id →
    e'.instr = ops.foldl (Operation.relabel e.id) e.instr

theorem Kept.refl (hb : b.Numbered) : b.Kept [] b where
  numbered := hb
  mem_ids := by simp [given, removed, answers]
  order := .refl _
  instr he he' hid := by rw [hb.ext he' he hid, List.foldl_nil]

/-- A new instruction comes in. -/
private theorem Kept.add (hb : b.Numbered) {pos : Nat} {i : Instruction} (h : b.insert pos i = .ok b')
    (hgiven : b.given [op] = [b.freshId]) (hremoved : b.removed [op] = []) (hsame : ∀ id j, op.relabel id j = j) :
    b.Kept [op] b' := by
  have hb' := hb.insert h
  obtain ⟨hpos, rfl⟩ := insert_ok_iff.1 h
  have hperm := List.perm_insertIdx (⟨b.freshId, i⟩ : Entry) b.entries hpos
  constructor
  · exact hb'
  · intro t
    rw [hgiven, hremoved, ids, ((hperm.map Entry.id).mem_iff), List.map_cons, List.mem_cons, ids]
    simp [or_comm]
  · exact .of_sublist ((List.sublist_insertIdx b.entries pos _).map Entry.id) hb'.nodup
  · intro e e' he he' hid
    rw [List.foldl_cons, List.foldl_nil, hsame]
    rcases List.mem_cons.1 (hperm.mem_iff.1 he') with rfl | he'
    · have hold : e.id ∈ b.entries.map Entry.id := List.mem_map_of_mem he
      rw [← hid] at hold
      exact absurd hold hb.freshId_not_mem
    · rw [hb.ext he' he hid]

/-- An instruction is taken away. -/
private theorem Kept.take (hb : b.Numbered) {pos : Nat} (h : b.erase pos = .ok (e, b'))
    (hgiven : b.given [op] = []) (hremoved : b.removed [op] = [e.id]) (hsame : ∀ id j, op.relabel id j = j) :
    b.Kept [op] b' := by
  have hb' := hb.erase h
  obtain ⟨he, rfl⟩ := erase_ok_iff.1 h
  obtain ⟨hpos, rfl⟩ := List.getElem?_eq_some_iff.1 he
  have hsub := List.eraseIdx_sublist b.entries pos
  have hperm := (List.getElem_cons_eraseIdx_perm hpos).map Entry.id
  have hnodup := hperm.nodup_iff.2 hb.nodup
  rw [List.map_cons] at hperm hnodup
  constructor
  · exact hb'
  · intro t
    have hout : t ∈ (b.entries.eraseIdx pos).map Entry.id → t ≠ b.entries[pos].id := by
      rintro hin rfl
      exact (List.nodup_cons.1 hnodup).1 hin
    rw [hgiven, hremoved, ids, ids, ← hperm.mem_iff, List.mem_cons, List.mem_singleton]
    simp only [List.not_mem_nil, or_false]
    tauto
  · exact (SameOrder.of_sublist (hsub.map Entry.id) hb.nodup).symm
  · intro e₀ e' he₀ he' hid
    rw [List.foldl_cons, List.foldl_nil, hsame, hb.ext (hsub.subset he') he₀ hid]

/-- All instructions stay, with the labels that the operation gives them. -/
private theorem Kept.label (hb : b.Numbered)
    (hentries : b'.entries = b.entries.map fun e => { e with instr := op.relabel e.id e.instr })
    (hnext : b'.nextId = b.nextId) (hgiven : b.given [op] = []) (hremoved : b.removed [op] = []) : b.Kept [op] b' := by
  have hids : b'.ids = b.ids := by
    rw [ids, hentries, List.map_map]
    rfl
  constructor
  · refine ⟨?_, fun e he => ?_⟩
    · show b'.ids.Nodup
      rw [hids]
      exact hb.nodup
    have hmem : e.id ∈ b'.ids := List.mem_map_of_mem he
    rw [hids] at hmem
    obtain ⟨e₀, he₀, hid⟩ := List.mem_map.1 hmem
    rw [hnext, ← hid]
    exact hb.fresh e₀ he₀
  · simp [hids, hgiven, hremoved]
  · rw [hids]
    exact .refl _
  · intro e e' he he' hid
    rw [hentries] at he'
    obtain ⟨e₀, he₀, rfl⟩ := List.mem_map.1 he'
    obtain rfl := hb.ext he₀ he hid
    rfl

/-- One operation. -/
theorem kept_run (hb : b.Numbered) (op : Operation) : b.Kept [op] (op.run b).2 := by
  have hstep := op.step_run b
  have hgiven := given_eq_toList b op
  have hremoved := removed_eq_toList b op
  generalize op.run b = r at hstep hgiven hremoved
  obtain ⟨a, b'⟩ := r
  cases hstep with
  | add inserted same => exact .add hb inserted hgiven hremoved same
  | take erased same => exact .take hb erased hgiven hremoved same
  | label entries nextId added removed =>
    rw [added] at hgiven
    rw [removed] at hremoved
    exact .label hb entries nextId hgiven hremoved

/-- One operation, and others after it. -/
theorem Kept.cons (hb : b.Numbered) (h : b.Kept [op] (op.run b).2) (h' : (op.run b).2.Kept ops b'') :
    b.Kept (op :: ops) b'' := by
  have hback {t : InstrId} (hold : t ∈ b.ids) (hgiven : t ∈ (op.run b).2.given ops) : False := by
    have hnot : t ∉ b.given (op :: ops) := hb.not_mem_given hold
    rw [given_cons, List.mem_append] at hnot
    exact hnot (.inr hgiven)
  constructor
  · exact h'.numbered
  · intro t
    have hgone (ht : t ∈ b.removed [op]) : t ∉ (op.run b).2.given ops := hback (mem_ids_of_mem_removed ht)
    rw [given_cons, removed_cons, h'.mem_ids, h.mem_ids, List.mem_append, List.mem_append]
    tauto
  · refine h.order.trans h'.order fun t hold hlast => ?_
    rcases (h'.mem_ids.1 hlast).1 with hmid | hgiven
    · exact hmid
    · exact absurd hgiven (hback hold)
  · intro e e'' he he'' hid
    have hmid : e''.id ∈ (op.run b).2.ids := by
      rcases (h'.mem_ids.1 (List.mem_map_of_mem he'')).1 with hmid | hgiven
      · exact hmid
      · exact (hback (hid ▸ List.mem_map_of_mem he) hgiven).elim
    obtain ⟨e', he', hid'⟩ := List.mem_map.1 hmid
    have hfirst := h.instr he he' (hid'.trans hid)
    have hrest := h'.instr he' he'' hid'.symm
    rw [hrest, hfirst, hid'.trans hid]
    rfl

/-- Any sequence of operations. -/
theorem kept_runAll (hb : b.Numbered) (ops : List Operation) : b.Kept ops (b.runAll ops) := by
  induction ops generalizing b with
  | nil => exact .refl hb
  | cons op ops ih =>
    have hstep := kept_run hb op
    exact .cons hb hstep (ih hstep.numbered)

/-! ### Operands -/

namespace Operation

/-- What operations make of an operand of the instruction `id`: it stays as it is, or is a label that one of them
names. -/
inductive Rewritten (ops : List Operation) (id : InstrId) : Operand → Operand → Prop
  | same (o : Operand) : Rewritten ops id o o
  | moved {t t' : InstrId} {op : Operation} (hop : op ∈ ops) (names : op.Names id t) :
      Rewritten ops id (.label t) (.label t')

private theorem rewritten_retarget {id source target : InstrId} (hop : op ∈ ops)
    (hnames : op.Names id source) (o : Operand) : Rewritten ops id o (o.retarget source target) := by
  cases o with
  | label t =>
    by_cases ht : t = source
    · subst ht
      rw [Operand.retarget, if_pos rfl]
      exact .moved hop hnames
    · rw [Operand.retarget, if_neg ht]
      exact .same _
  | _ => exact .same _

private theorem rewritten_rewrite (hop : op ∈ ops) (id : InstrId) (o : Operand) :
    Rewritten ops id o (op.rewrite id o) := by
  cases op with
  | retarget source target => exact rewritten_retarget hop rfl o
  | retargetOnly only source target =>
    by_cases hid : id ∈ only
    · rw [rewrite, if_pos hid]
      exact rewritten_retarget hop ⟨hid, rfl⟩ o
    · rw [rewrite, if_neg hid]
      exact .same o
  | _ => exact .same o

/-- Operations one after the other change nothing of an operand but labels that they name. -/
theorem rewritten_foldl (ops : List Operation) (id : InstrId) (o : Operand) :
    Rewritten ops id o (ops.foldl (rewrite id) o) := by
  induction ops generalizing o with
  | nil => exact .same o
  | cons op ops ih =>
    rw [List.foldl_cons]
    have hrest := ih (op.rewrite id o)
    generalize ops.foldl (rewrite id) (op.rewrite id o) = o'' at hrest
    have hfirst : Rewritten (op :: ops) id o (op.rewrite id o) := rewritten_rewrite List.mem_cons_self id o
    generalize op.rewrite id o = o' at hfirst hrest
    cases hfirst with
    | same =>
      cases hrest with
      | same => exact .same o
      | moved hop names => exact .moved (List.mem_cons_of_mem _ hop) names
    | moved hop names =>
      -- the label has been named by the first operation already
      cases hrest with
      | same => exact .moved hop names
      | moved => exact .moved hop names

theorem foldl_relabel (ops : List Operation) (id : InstrId) (i : Instruction) :
    ops.foldl (relabel id) i = { i with operands := i.operands.map fun o => ops.foldl (rewrite id) o } := by
  induction ops generalizing i with
  | nil => simp
  | cons op ops ih =>
    rw [List.foldl_cons, ih, relabel, List.map_map]
    rfl

theorem rewritten_foldl_relabel (ops : List Operation) (id : InstrId) (i : Instruction) :
    (ops.foldl (relabel id) i).op = i.op ∧
      List.Forall₂ (Rewritten ops id) i.operands (ops.foldl (relabel id) i).operands := by
  rw [foldl_relabel]
  refine ⟨rfl, List.forall₂_map_right_iff.2 (List.forall₂_same.2 fun o _ => ?_)⟩
  exact rewritten_foldl ops id o

end Operation

/-! ### Identities name instructions -/

/-- How a body comes to be: without instructions, or from a text. -/
inductive Original : Body → Prop
  | empty (method : MethodId) (signature : Signature) : Original { method, signature }
  | read {src : List Char} {bs : List Body} {b : Body} (h : Assembly.bodies src = .ok bs) (hb : b ∈ bs) : Original b

theorem Original.numbered (hb : b.Original) : b.Numbered := by
  cases hb with
  | empty method signature => exact ⟨List.nodup_nil, nofun⟩
  | read h hb => exact Assembly.numbered_of_bodies h hb

theorem mem_positions_iff {p : Nat} : (t, p) ∈ b.positions ↔ b.id? p = some t := by
  rw [positions, List.mem_map, id?, Option.map_eq_some_iff]
  constructor
  · rintro ⟨⟨e, q⟩, hmem, heq⟩
    obtain ⟨rfl, rfl⟩ := Prod.mk.inj heq
    exact ⟨e, List.mem_zipIdx_iff_getElem?.1 hmem, rfl⟩
  · rintro ⟨e, he, rfl⟩
    exact ⟨(e, p), List.mem_zipIdx_iff_getElem?.2 he, rfl⟩

/-- What has been taken away stands below the counter. -/
theorem Numbered.lt_of_mem_removed (hb : b.Numbered) (h : t ∈ b.removed ops) : t.number < (b.runAll ops).nextId := by
  induction ops generalizing b with
  | nil => cases h
  | cons op ops ih =>
    have hafter : b.runAll (op :: ops) = (op.run b).2.runAll ops := rfl
    rw [removed_cons, List.mem_append] at h
    rw [hafter]
    rcases h with hnow | hlater
    · have hold := hb.lt_nextId (mem_ids_of_mem_removed hnow)
      have hone := (given_eq b [op]).2
      have hrest := (given_eq (op.run b).2 ops).2
      rw [show b.runAll [op] = (op.run b).2 from rfl] at hone
      omega
    · exact ih (kept_run hb op).numbered hlater

/-- What has been taken away is not given out later, and does not come back. -/
theorem Numbered.not_mem_of_removed (hb : b.Numbered) (later : List Operation) (h : t ∈ b.removed ops) :
    t ∉ (b.runAll ops).given later ∧ t ∉ ((b.runAll ops).runAll later).ids := by
  have hops := kept_runAll hb ops
  have hlater := kept_runAll hops.numbered later
  have hnew : t ∉ (b.runAll ops).given later := by
    intro hgiven
    have hlow := hb.lt_of_mem_removed h
    have hhigh := nextId_le_of_mem_given hgiven
    omega
  refine ⟨hnew, fun hback => ?_⟩
  rcases (hlater.mem_ids.1 hback).1 with hstill | hgiven
  · exact (hops.mem_ids.1 hstill).2 h
  · exact hnew hgiven

/-- In every history of a body, an identity names one instruction for ever. Take the body after any operations, after
further ones, and after still further ones.

Identities are different, are given out one after the other, and lead to positions and back. They come in by being given
out, go when their instructions are removed, and do not come back. The instructions that stay do so in their order, and
change in labels only that an operation names. What fails does nothing. -/
theorem identities_kept (hb : b.Original) (before edits later : List Operation) :
    let b₁ := b.runAll before
    let b₂ := b₁.runAll edits
    let b₃ := b₂.runAll later
    (b₁.ids.Nodup ∧ (∀ t ∈ b₁.ids, t.number < b₁.nextId) ∧ b₁.nextId = b.nextId + (b.given before).length ∧
      b.given before = (List.range' b.nextId (b.given before).length).map InstrId.mk) ∧
    (∀ t p, (b₁.positionOf? t = some p ↔ b₁.id? p = some t) ∧ ((t, p) ∈ b₁.positions ↔ b₁.id? p = some t)) ∧
    (∀ t, (t ∈ b₂.ids ↔ (t ∈ b₁.ids ∨ t ∈ b₁.given edits) ∧ t ∉ b₁.removed edits) ∧
      (t ∈ b₁.ids → t ∉ b₁.given edits) ∧ (t ∈ b₁.removed edits → t ∉ b₂.given later ∧ t ∉ b₃.ids)) ∧
    SameOrder b₁.ids b₂.ids ∧
    (∀ e ∈ b₁.entries, ∀ e' ∈ b₂.entries, e'.id = e.id →
      e'.instr.op = e.instr.op ∧ List.Forall₂ (Operation.Rewritten edits e.id) e.instr.operands e'.instr.operands ∧
        e'.instr = edits.foldl (Operation.relabel e.id) e.instr) ∧
    ∀ op err, (op.run b₁).1 = .error err → Operation.Failure b₁ op err ∧ (op.run b₁).2 = b₁ := by
  intro b₁ b₂ b₃
  have h₁ : b₁.Numbered := (kept_runAll hb.numbered before).numbered
  have hedits : b₁.Kept edits b₂ := kept_runAll h₁ edits
  obtain ⟨hgiven, hnext⟩ := given_eq b before
  refine ⟨⟨h₁.nodup, fun t ht => h₁.lt_nextId ht, hnext, hgiven⟩, ?_, ?_, hedits.order, ?_, ?_⟩
  · intro t p
    exact ⟨positionOf?_eq_some_iff h₁, mem_positions_iff⟩
  · intro t
    exact ⟨hedits.mem_ids, h₁.not_mem_given, h₁.not_mem_of_removed later⟩
  · intro e he e' he' hid
    have hinstr := hedits.instr he he' hid
    obtain ⟨hop, hoperands⟩ := Operation.rewritten_foldl_relabel edits e.id e.instr
    rw [hinstr]
    exact ⟨hop, hoperands, rfl⟩
  · intro op err h
    exact Operation.run_eq_error h

/-- A jump to an instruction that gives way to another: the label is moved, and the identity of what is removed is not
that of the instruction added after it. -/
theorem identities_kept_moving : ∃ b : Body, b.Original ∧ ∃ before edits later : List Operation,
    (b.runAll before).ids = [⟨0⟩, ⟨1⟩] ∧ ((b.runAll before).runAll edits).ids = [⟨2⟩, ⟨1⟩] ∧
    ((b.runAll before).runAll edits).instr? 1 = some ⟨.br, [.label ⟨2⟩]⟩ ∧
    (((b.runAll before).runAll edits).runAll later).ids = [⟨2⟩, ⟨1⟩, ⟨3⟩] ∧
    ⟨0⟩ ∉ (((b.runAll before).runAll edits).runAll later).ids := by
  have horiginal := Original.empty ⟨"Counter", "loop"⟩ ⟨[], [], none⟩
  let before : List Operation := [.push ⟨.nop, []⟩, .push ⟨.br, [.label ⟨0⟩]⟩]
  let edits : List Operation := [.insert 1 ⟨.nop, []⟩, .insert 9 ⟨.nop, []⟩, .retarget ⟨0⟩ ⟨2⟩, .remove 0]
  let later : List Operation := [.push ⟨.ret, []⟩]
  obtain ⟨-, -, hids, -⟩ := identities_kept horiginal before edits later
  refine ⟨_, horiginal, before, edits, later, by decide +kernel, by decide +kernel, by decide +kernel,
    by decide +kernel, ?_⟩
  exact ((hids ⟨0⟩).2.2 (by decide +kernel)).2

end Graft.Body
