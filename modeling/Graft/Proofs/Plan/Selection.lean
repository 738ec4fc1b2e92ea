import Graft.Plan.Apply
import Graft.Proofs.Cursor.Stability
import Graft.Proofs.Typing.Blocks

/-!
# Selections

What the rules of a patch select.

* `select?_spec` says that a rule with occurrence `n` selects the `n`-th instruction that its pattern accepts, and that it
  selects none only if there are fewer.
* `selectAll_eq_ok_iff` and `selectAll_error` say what the selections of several rules come to.
-/

namespace Graft

/-! ### Searches -/

namespace Cursor

variable {test : Instruction → Bool} {is : List Instruction} {p start : Nat}

theorem positionFrom?_eq_some (h : positionFrom? test start is = some p) :
    ∃ q i, p = start + q ∧ is[q]? = some i ∧ test i = true ∧ (is.take q).countP test = 0 := by
  induction is generalizing start with
  | nil => simp [positionFrom?] at h
  | cons i is ih =>
    unfold positionFrom? at h
    split at h
    · rename_i hi
      obtain rfl := Option.some.inj h
      exact ⟨0, i, rfl, rfl, hi, rfl⟩
    · rename_i hi
      obtain ⟨q, j, hp, hj, htest, hcount⟩ := ih h
      refine ⟨q + 1, j, by omega, hj, htest, ?_⟩
      rw [List.take_succ_cons, List.countP_cons_of_neg hi, hcount]

theorem positionFrom?_eq_none (h : positionFrom? test start is = none) : is.countP test = 0 := by
  induction is generalizing start with
  | nil => rfl
  | cons i is ih =>
    unfold positionFrom? at h
    split at h
    · cases h
    · rename_i hi
      rw [List.countP_cons_of_neg hi, ih h]

/-- A search finds the first instruction from its start on that passes the test, if there is one. -/
theorem findNext_spec (c : Cursor) (test : Instruction → Bool) (hstart : c.scanStart? = some start) :
    (∃ p i, c.findNext test = (true, c.moveTo (.on p)) ∧ c.body.instr? p = some i ∧ test i = true ∧
      (c.body.instrs.take p).countP test = (c.body.instrs.take start).countP test) ∨
    (c.findNext test = (false, c.moveTo .exhausted) ∧
      c.body.instrs.countP test = (c.body.instrs.take start).countP test) := by
  unfold findNext
  rw [hstart]
  dsimp only
  cases hfound : positionFrom? test start (c.body.instrs.drop start) with
  | some p =>
    obtain ⟨q, i, rfl, hi, htest, hcount⟩ := positionFrom?_eq_some hfound
    rw [List.getElem?_drop, Body.instrs_getElem?] at hi
    refine .inl ⟨start + q, i, rfl, hi, htest, ?_⟩
    rw [List.take_add, List.countP_append, hcount, Nat.add_zero]
  | none =>
    have hcount := positionFrom?_eq_none hfound
    refine .inr ⟨rfl, ?_⟩
    have hsplit := congrArg (List.countP test) (List.take_append_drop start c.body.instrs)
    rw [List.countP_append, hcount, Nat.add_zero] at hsplit
    exact hsplit.symm

/-- Several searches, one after the other, find an instruction with as many before it that pass the test as there were
searches before the last one. -/
theorem findNth_spec (c : Cursor) (test : Instruction → Bool) (hstart : c.scanStart? = some start) (n : Nat) :
    (∃ p i, (c.findNth test (n + 1)).pos? = some p ∧ c.body.instr? p = some i ∧ test i = true ∧
      (c.body.instrs.take p).countP test = (c.body.instrs.take start).countP test + n) ∨
    ((c.findNth test (n + 1)).pos? = none ∧
      c.body.instrs.countP test ≤ (c.body.instrs.take start).countP test + n) := by
  induction n generalizing c start with
  | zero =>
    unfold findNth
    rcases c.findNext_spec test hstart with ⟨p, i, hfound, hi, htest, hcount⟩ | ⟨hfound, hcount⟩
    · rw [hfound]
      exact .inl ⟨p, i, rfl, hi, htest, hcount⟩
    · rw [hfound]
      exact .inr ⟨rfl, Nat.le_of_eq hcount⟩
  | succ n ih =>
    unfold findNth
    rcases c.findNext_spec test hstart with ⟨p, i, hfound, hi, htest, hcount⟩ | ⟨hfound, hcount⟩
    · -- the next search starts behind the instruction that was found
      have hbehind : (c.body.instrs.take (p + 1)).countP test = (c.body.instrs.take start).countP test + 1 := by
        rw [← Body.instrs_getElem?] at hi
        rw [List.take_add_one, List.countP_append, hcount, hi, Option.toList_some, List.countP_singleton, if_pos htest]
      rw [hfound]
      have hnext := ih (c.moveTo (.on p)) rfl
      rw [show (c.moveTo (.on p)).body = c.body from rfl, hbehind, Nat.add_assoc, Nat.add_comm 1 n] at hnext
      exact hnext
    · rw [hfound]
      exact .inr ⟨rfl, by omega⟩

end Cursor

namespace BoundRule

variable {b : Body} {r : BoundRule} {rs : List BoundRule} {claimed : List InstrId} {l : List (InstrId × Binding)}

/-! ### One rule -/

/-- The number of instructions of a body that the pattern of a rule accepts. -/
def matching (b : Body) (r : BoundRule) : Nat := b.instrs.countP fun i => r.rule.pattern.accepts i

/-- The occurrence that a rule asks for is missing: it counts from 1, and there are fewer matching instructions. -/
def Missing (b : Body) (r : BoundRule) : Prop := r.rule.occurrence = 0 ∨ matching b r < r.rule.occurrence

/-- A rule selects the instruction with one matching instruction less before it than the occurrence says, and none only if
the occurrence is missing. -/
theorem select?_spec (b : Body) (r : BoundRule) :
    (∃ p e, r.select? b = some e.id ∧ b.entries[p]? = some e ∧ r.rule.pattern.accepts e.instr = true ∧
      (b.instrs.take p).countP (fun i => r.rule.pattern.accepts i) + 1 = r.rule.occurrence) ∨
    (r.select? b = none ∧ r.Missing b) := by
  unfold select? Missing matching
  cases hn : r.rule.occurrence with
  | zero => exact .inr ⟨rfl, .inl rfl⟩
  | succ n =>
    have hspec := Cursor.findNth_spec { body := b } (fun i => r.rule.pattern.accepts i) rfl n
    rw [List.take_zero, List.countP_nil, Nat.zero_add] at hspec
    rcases hspec with ⟨p, i, hp, hi, htest, hcount⟩ | ⟨hp, hcount⟩
    · obtain ⟨e, he, rfl⟩ := Option.map_eq_some_iff.1 hi
      refine .inl ⟨p, e, ?_, he, htest, by rw [hcount]⟩
      rw [hp, Option.bind_some, Body.id?, he, Option.map_some]
    · refine .inr ⟨?_, .inr (Nat.lt_succ_of_le hcount)⟩
      rw [hp, Option.bind_none]

theorem missing_of_select? (h : r.select? b = none) : r.Missing b := by
  rcases select?_spec b r with ⟨p, e, hselect, -⟩ | ⟨-, hmissing⟩
  · rw [h] at hselect
    cases hselect
  · exact hmissing

theorem mem_of_select? {id : InstrId} (h : r.select? b = some id) : id ∈ b.entries.map Entry.id := by
  rcases select?_spec b r with ⟨p, e, hselect, he, -⟩ | ⟨hselect, -⟩
  · rw [h] at hselect
    obtain rfl := Option.some.inj hselect
    exact List.mem_map_of_mem (List.mem_of_getElem? he)
  · rw [h] at hselect
    cases hselect

/-! ### All rules -/

/-- Two rules select the same instruction: one with the setting `key`, and one before it. -/
def Clash (b : Body) (rs : List BoundRule) (key : String) : Prop :=
  ∃ before r after r', rs = before ++ r :: after ∧ r' ∈ before ∧ r.rule.setting = key ∧
    (r.select? b).isSome = true ∧ r'.select? b = r.select? b

/-- Selections are those of the rules, in their order; they are different, and not claimed before. -/
theorem selectAll_eq_ok_iff : selectAll b claimed rs = .ok l ↔
    List.Forall₂ (fun r s => r.select? b = some s.1 ∧ r.binding = s.2) rs l ∧ (l.map Prod.fst).Nodup ∧
      ∀ id ∈ l.map Prod.fst, id ∉ claimed := by
  induction rs generalizing claimed l with
  | nil =>
    rw [selectAll]
    constructor
    · intro h
      obtain rfl := Except.ok.inj h
      exact ⟨.nil, List.nodup_nil, nofun⟩
    · rintro ⟨h, -, -⟩
      cases h
      rfl
  | cons r rs ih =>
    constructor
    · intro h
      unfold selectAll at h
      split at h
      · cases h
      · rename_i id hid
        split at h
        · cases h
        · rename_i hclaimed
          obtain ⟨l', hl', h⟩ := bind_eq_ok.1 h
          obtain rfl := Except.ok.inj h
          obtain ⟨hrules, hnodup, hnew⟩ := ih.1 hl'
          refine ⟨.cons ⟨hid, rfl⟩ hrules, ?_, ?_⟩
          · exact List.nodup_cons.2 ⟨fun hmem => hnew id hmem List.mem_cons_self, hnodup⟩
          · intro id' hid'
            rcases List.mem_cons.1 hid' with rfl | hid'
            · exact hclaimed
            · exact fun hmem => hnew id' hid' (List.mem_cons_of_mem id hmem)
    · rintro ⟨hrules, hnodup, hnew⟩
      cases hrules with
      | @cons _ s _ l hrule hrules =>
        obtain ⟨hid, hbinding⟩ := hrule
        obtain ⟨hnot, hnodup⟩ := List.nodup_cons.1 hnodup
        have hrest : selectAll b (s.1 :: claimed) rs = .ok l := by
          refine ih.2 ⟨hrules, hnodup, fun id hmem hclaimed => ?_⟩
          rcases List.mem_cons.1 hclaimed with rfl | hclaimed
          · exact hnot hmem
          · exact hnew id (List.mem_cons_of_mem _ hmem) hclaimed
        unfold selectAll
        rw [hid]
        dsimp only
        rw [if_neg (hnew s.1 List.mem_cons_self), hrest, hbinding]
        rfl

/-- Selections that succeed are those of the rules, and they are different. -/
theorem selectAll_ok (h : selectAll b claimed rs = .ok l) :
    (l.map Prod.fst).Nodup ∧ ∀ s ∈ l, ∃ r ∈ rs, r.select? b = some s.1 ∧ r.binding = s.2 := by
  obtain ⟨hrules, hnodup, -⟩ := selectAll_eq_ok_iff.1 h
  exact ⟨hnodup, fun s hs => exists_of_mem_right hrules hs⟩

theorem length_of_selectAll (h : selectAll b claimed rs = .ok l) : l.length = rs.length :=
  (selectAll_eq_ok_iff.1 h).1.length_eq.symm

/-- Selections fail if an occurrence is missing or if two rules clash. -/
private theorem selectAll_error_from {before : List BoundRule} {err : PatchError}
    (hclaimed : ∀ id ∈ claimed, ∃ r ∈ before, r.select? b = some id) (h : selectAll b claimed rs = .error err) :
    (err = .noCurrentInstruction ∧ ∃ r ∈ rs, r.Missing b) ∨
      ∃ key, err = .plan (.claimedTwice key) ∧ Clash b (before ++ rs) key := by
  induction rs generalizing claimed before with
  | nil => cases h
  | cons r rs ih =>
    unfold selectAll at h
    split at h
    · rename_i hnone
      obtain rfl := Except.error.inj h
      exact .inl ⟨rfl, r, List.mem_cons_self, missing_of_select? hnone⟩
    · rename_i id hid
      split at h
      · rename_i hmem
        obtain rfl := Except.error.inj h
        obtain ⟨r', hr', hsel⟩ := hclaimed id hmem
        exact .inr ⟨_, rfl, before, r, rs, r', rfl, hr', rfl, by rw [hid]; rfl, by rw [hid, hsel]⟩
      · cases hrest : selectAll b (id :: claimed) rs with
        | ok l =>
          rw [hrest] at h
          cases h
        | error err' =>
          rw [hrest] at h
          obtain rfl := Except.error.inj h
          -- `r` is now one of the rules before
          have hclaimed' : ∀ id' ∈ id :: claimed, ∃ r' ∈ before ++ [r], r'.select? b = some id' := by
            intro id' hid'
            rcases List.mem_cons.1 hid' with rfl | hid'
            · exact ⟨r, by simp, hid⟩
            · obtain ⟨r', hr', hsel⟩ := hclaimed id' hid'
              exact ⟨r', List.mem_append_left _ hr', hsel⟩
          have hih := ih hclaimed' hrest
          rw [List.append_assoc, List.singleton_append] at hih
          rcases hih with ⟨herr, r', hr', hmissing⟩ | hclash
          · exact .inl ⟨herr, r', List.mem_cons_of_mem r hr', hmissing⟩
          · exact .inr hclash

theorem selectAll_error {err : PatchError} (h : selectAll b [] rs = .error err) :
    (err = .noCurrentInstruction ∧ ∃ r ∈ rs, r.Missing b) ∨
      ∃ key, err = .plan (.claimedTwice key) ∧ Clash b rs key :=
  have hclaimed (id : InstrId) (hid : id ∈ []) : ∃ r ∈ ([] : List BoundRule), r.select? b = some id :=
    absurd hid List.not_mem_nil
  selectAll_error_from hclaimed h

end BoundRule

end Graft
