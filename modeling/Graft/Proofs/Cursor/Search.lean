import Graft.Cursor.Basic
import Graft.Proofs.Typing.Blocks
import Mathlib.Order.Bounds.Defs

/-!
# Searches find everything

A search goes on behind what the one before it has found. So searches for the same thing, one after the other, find all
places where it is, in their order, and then nothing any more.

* `Search.Hits` says where the thing that is searched for is.
* `Search.run_spec` says what one search finds, and `Search.repeated_eq` what searches one after the other find.
* `Search.enumerates` puts the two together.
-/

namespace Graft.Cursor

variable {b : Body} {c : Cursor} {p start : Nat} {test : Instruction → Bool} {tests : List (Instruction → Bool)}
  {is : List Instruction}

/-! ### Windows -/

/-- The instructions from a position on pass the tests, one each. -/
def Fits (b : Body) (tests : List (Instruction → Bool)) (p : Nat) : Prop :=
  p + tests.length ≤ b.length ∧
    ∀ (j : Nat) (t : Instruction → Bool) (i : Instruction), tests[j]? = some t → b.instr? (p + j) = some i → t i = true

private theorem windowFits_iff : windowFits tests is = true ↔ tests.length ≤ is.length ∧
    ∀ (j : Nat) (t : Instruction → Bool) (i : Instruction), tests[j]? = some t → is[j]? = some i → t i = true := by
  induction tests generalizing is with
  | nil => simp [windowFits]
  | cons t ts ih =>
    cases is with
    | nil => simp [windowFits]
    | cons i is =>
      rw [windowFits, Bool.and_eq_true, ih, List.length_cons, List.length_cons, Nat.add_le_add_iff_right]
      constructor
      · rintro ⟨hhead, hlength, htail⟩
        refine ⟨hlength, fun j u k hu hk => ?_⟩
        cases j with
        | zero =>
          obtain rfl := Option.some.inj hu
          obtain rfl := Option.some.inj hk
          exact hhead
        | succ j => exact htail j u k hu hk
      · rintro ⟨hlength, hall⟩
        exact ⟨hall 0 t i rfl rfl, hlength, fun j u k hu hk => hall (j + 1) u k hu hk⟩

/-- A window that is not empty fits at a position as it fits at the head of what begins there. -/
private theorem windowFits_drop (hne : tests ≠ []) :
    windowFits tests (b.instrs.drop p) = true ↔ Fits b tests p := by
  have hpos : 0 < tests.length := List.length_pos_iff.2 hne
  have hlength : tests.length ≤ (b.instrs.drop p).length ↔ p + tests.length ≤ b.length := by
    rw [List.length_drop, b.length_instrs]
    omega
  rw [windowFits_iff, hlength, Fits]
  simp only [List.getElem?_drop, b.instrs_getElem?]

private theorem Fits.lt_length (hne : tests ≠ []) (h : Fits b tests p) : p < b.length := by
  have hpos : 0 < tests.length := List.length_pos_iff.2 hne
  have hfits := h.1
  omega

/-- The window is found where it fits first. -/
private theorem windowFrom?_eq_some (h : windowFrom? tests start is = some p) :
    ∃ q, p = start + q ∧ windowFits tests (is.drop q) = true ∧ ∀ r < q, windowFits tests (is.drop r) = false := by
  induction is generalizing start with
  | nil => cases h
  | cons i is ih =>
    rw [windowFrom?] at h
    split at h
    · rename_i hfits
      obtain rfl := Option.some.inj h
      exact ⟨0, rfl, hfits, fun r hr => absurd hr (Nat.not_lt_zero r)⟩
    · rename_i hfits
      obtain ⟨q, hp, hq, hbefore⟩ := ih h
      refine ⟨q + 1, by omega, hq, fun r hr => ?_⟩
      cases r with
      | zero => exact eq_false_of_ne_true hfits
      | succ r => exact hbefore r (by omega)

private theorem windowFrom?_eq_none (h : windowFrom? tests start is = none) :
    ∀ q < is.length, windowFits tests (is.drop q) = false := by
  induction is generalizing start with
  | nil => exact fun q hq => absurd hq (Nat.not_lt_zero q)
  | cons i is ih =>
    rw [windowFrom?] at h
    split at h
    · cases h
    · rename_i hfits
      intro q hq
      cases q with
      | zero => exact eq_false_of_ne_true hfits
      | succ q => exact ih h q (Nat.lt_of_succ_lt_succ hq)

/-! ### One search -/

/-- A search for a window that is not empty goes to the first place from its start on where the window fits. -/
private theorem findSequence_spec (hne : tests ≠ []) (hstart : c.scanStart? = some start) :
    (∃ p, IsLeast {q | start ≤ q ∧ Fits c.body tests q} p ∧ c.findSequence tests = (true, c.moveTo (.on p))) ∨
    ((∀ q, start ≤ q → ¬ Fits c.body tests q) ∧ c.findSequence tests = (false, c.moveTo .exhausted)) := by
  have hdrop (q : Nat) : (c.body.instrs.drop start).drop q = c.body.instrs.drop (start + q) := List.drop_drop ..
  unfold findSequence
  rw [if_neg (fun hempty => hne (List.isEmpty_iff.1 hempty)), hstart]
  dsimp only
  cases hfound : windowFrom? tests start (c.body.instrs.drop start) with
  | some p =>
    obtain ⟨q, rfl, hq, hbefore⟩ := windowFrom?_eq_some hfound
    rw [hdrop, windowFits_drop hne] at hq
    refine .inl ⟨start + q, ⟨⟨Nat.le_add_right start q, hq⟩, ?_⟩, rfl⟩
    rintro r ⟨hr, hfits⟩
    refine Nat.le_of_not_lt fun hlt => ?_
    have hnot := hbefore (r - start) (by omega)
    rw [hdrop, Nat.add_sub_cancel' hr, (windowFits_drop hne).2 hfits] at hnot
    cases hnot
  | none =>
    refine .inr ⟨fun r hr hfits => ?_, rfl⟩
    have hlt := hfits.lt_length hne
    have hnot := windowFrom?_eq_none hfound (r - start) (by rw [List.length_drop, c.body.length_instrs]; omega)
    rw [hdrop, Nat.add_sub_cancel' hr, (windowFits_drop hne).2 hfits] at hnot
    cases hnot

private theorem windowFrom?_singleton (test : Instruction → Bool) (start : Nat) (is : List Instruction) :
    windowFrom? [test] start is = positionFrom? test start is := by
  induction is generalizing start with
  | nil => rfl
  | cons i is ih =>
    rw [windowFrom?, positionFrom?, windowFits, windowFits, Bool.and_true, ih]

/-- A search for one instruction is a search for a window of one instruction, from every place. -/
theorem findSequence_singleton (c : Cursor) (test : Instruction → Bool) : c.findSequence [test] = c.findNext test := by
  unfold findSequence findNext
  simp only [windowFrom?_singleton]
  rfl

/-- A search: for an instruction that passes a test, or for instructions that pass tests, one each, of which there is at
least one. -/
inductive Search where
  | next (test : Instruction → Bool)
  | sequence (test : Instruction → Bool) (tests : List (Instruction → Bool))

namespace Search

variable {s : Search} {ps : List Nat}

/-- What a search finds from the place of a cursor on. -/
def run (c : Cursor) : Search → Bool × Cursor
  | next test => c.findNext test
  | sequence test tests => c.findSequence (test :: tests)

/-- The thing that is searched for is at a position. -/
def Hits (b : Body) (p : Nat) : Search → Prop
  | next test => ∃ i, b.instr? p = some i ∧ test i = true
  | sequence test tests => Fits b (test :: tests) p

private theorem hits_next : (next test).Hits b p ↔ (sequence test []).Hits b p := by
  constructor
  · rintro ⟨i, hi, htest⟩
    refine ⟨Typing.lt_length_of_instr? hi, fun j t k ht hk => ?_⟩
    cases j with
    | zero =>
      obtain rfl := Option.some.inj ht
      rw [Nat.add_zero, hi] at hk
      exact Option.some.inj hk ▸ htest
    | succ j => cases ht
  · rintro ⟨hlength, hall⟩
    obtain ⟨i, hi⟩ := Typing.exists_instr hlength
    exact ⟨i, hi, hall 0 test i rfl hi⟩

/-- A search goes to the first place from its start on where the thing is, and becomes exhausted if there is none. -/
theorem run_spec (s : Search) (hstart : c.scanStart? = some start) :
    (∃ p, IsLeast {q | start ≤ q ∧ s.Hits c.body q} p ∧ s.run c = (true, c.moveTo (.on p))) ∨
    ((∀ q, start ≤ q → ¬ s.Hits c.body q) ∧ s.run c = (false, c.moveTo .exhausted)) := by
  cases s with
  | next test =>
    simp only [hits_next, run, ← findSequence_singleton]
    exact findSequence_spec (List.cons_ne_nil test []) hstart
  | sequence test tests => exact findSequence_spec (List.cons_ne_nil test tests) hstart

/-- An exhausted cursor does not search. -/
theorem run_exhausted (s : Search) (h : c.place = .exhausted) : s.run c = (false, c) := by
  have hstart : c.scanStart? = none := by rw [scanStart?, h]
  cases s with
  | next test => rw [run, findNext, hstart]
  | sequence test tests =>
    rw [run, findSequence, hstart]
    rfl

theorem body_run (s : Search) (c : Cursor) : (s.run c).2.body = c.body := by
  cases hstart : c.scanStart? with
  | none =>
    have hplace : c.place = .exhausted := by
      unfold scanStart? at hstart
      cases hplace : c.place <;> rw [hplace] at hstart <;> first | rfl | cases hstart
    rw [s.run_exhausted hplace]
  | some start =>
    rcases s.run_spec hstart with ⟨p, -, hrun⟩ | ⟨-, hrun⟩
    all_goals
      rw [hrun]
      rfl

/-! ### Searches one after the other -/

/-- The answers of `n` searches, one after the other, each with the cursor that it leaves. -/
def repeated (s : Search) : (n : Nat) → Cursor → List (Bool × Cursor)
  | 0, _ => []
  | n + 1, c => s.run c :: s.repeated n (s.run c).2

private theorem repeated_exhausted (s : Search) (h : c.place = .exhausted) (n : Nat) :
    s.repeated n c = List.replicate n (false, c) := by
  induction n with
  | zero => rfl
  | succ n ih => rw [repeated, s.run_exhausted h, ih, List.replicate_succ]

/-- Searches go to the places where the thing is from their start on, one after the other, and find nothing after the
last of them. -/
theorem repeated_eq (hstart : c.scanStart? = some start) (hsorted : ps.Pairwise (· < ·))
    (hmem : ∀ p, p ∈ ps ↔ start ≤ p ∧ s.Hits c.body p) (n : Nat) :
    s.repeated n c = (ps.map fun p => (true, c.moveTo (.on p))).take n ++
      List.replicate (n - ps.length) (false, c.moveTo .exhausted) := by
  induction ps generalizing c start n with
  | nil =>
    cases n with
    | zero => rfl
    | succ n =>
      rcases s.run_spec hstart with ⟨p, ⟨hp, -⟩, -⟩ | ⟨-, hrun⟩
      · exact absurd ((hmem p).2 hp) List.not_mem_nil
      · rw [repeated, hrun, s.repeated_exhausted rfl, List.length_nil, Nat.sub_zero, List.replicate_succ]
        rfl
  | cons p ps ih =>
    cases n with
    | zero => rw [repeated, List.take_zero, Nat.zero_sub, List.replicate_zero, List.append_nil]
    | succ n =>
      obtain ⟨hbehind, hsorted'⟩ := List.pairwise_cons.1 hsorted
      obtain ⟨hle, hhit⟩ := (hmem p).1 List.mem_cons_self
      rcases s.run_spec hstart with ⟨q, ⟨⟨hq, hqhit⟩, hleast⟩, hrun⟩ | ⟨hnone, -⟩
      · -- the first place of all is the head of the list
        have hqp : q = p := by
          have hqle : q ≤ p := hleast ⟨hle, hhit⟩
          rcases List.mem_cons.1 ((hmem q).2 ⟨hq, hqhit⟩) with heq | hin
          · exact heq
          · have := hbehind q hin
            omega
        subst hqp
        have hrest : ∀ r, r ∈ ps ↔ q + 1 ≤ r ∧ s.Hits (c.moveTo (.on q)).body r := by
          intro r
          constructor
          · intro hr
            exact ⟨hbehind r hr, ((hmem r).1 (List.mem_cons_of_mem q hr)).2⟩
          · rintro ⟨hr, hrhit⟩
            rcases List.mem_cons.1 ((hmem r).2 ⟨by omega, hrhit⟩) with rfl | hin
            · omega
            · exact hin
        have hnext := ih (c := c.moveTo (.on q)) rfl hsorted' hrest n
        rw [repeated, hrun, hnext, List.length_cons, Nat.succ_sub_succ]
        rfl
      · exact absurd hhit (hnone p hle)

/-- The places where the thing is are finitely many. -/
private theorem exists_hits (s : Search) (b : Body) :
    ∃ ps : List Nat, ps.Pairwise (· < ·) ∧ ∀ p, p ∈ ps ↔ s.Hits b p := by
  classical
  have hlt {p : Nat} (h : s.Hits b p) : p < b.length := by
    cases s with
    | next test => exact (hits_next.1 h).lt_length (List.cons_ne_nil test [])
    | sequence test tests => exact h.lt_length (List.cons_ne_nil test tests)
  refine ⟨(List.range b.length).filter fun p => decide (s.Hits b p), List.pairwise_lt_range.filter _, fun p => ?_⟩
  rw [List.mem_filter, List.mem_range, decide_eq_true_iff]
  exact and_iff_right_of_imp hlt

/-- Searches from the first instruction on go to the places where the thing is that they search for, all of them, each
once and in increasing order, and find nothing after the last of them. From any other place than behind a search without
result, a search goes to the first place from the start of its scan on, and becomes exhausted if there is none: the scan
starts at position 0 before the first instruction, behind an instruction that the cursor is on, and at the instruction
behind a gap. After a search without result, no search finds anything or moves the cursor. No search changes the body, a
window of one instruction is found as the instruction is, and an empty window is never found. -/
theorem enumerates (s : Search) (c : Cursor) :
    (∃ ps : List Nat, ps.Pairwise (· < ·) ∧ (∀ p, p ∈ ps ↔ s.Hits c.body p) ∧
      ∀ n, s.repeated n c.seekFirst = (ps.map fun p => (true, c.moveTo (.on p))).take n ++
        List.replicate (n - ps.length) (false, c.moveTo .exhausted)) ∧
    (∀ start, (c.place = .start ∧ start = 0) ∨ (∃ p, c.place = .on p ∧ start = p + 1) ∨ c.place = .gap start →
      (∃ p, IsLeast {q | start ≤ q ∧ s.Hits c.body q} p ∧ s.run c = (true, c.moveTo (.on p))) ∨
      ((∀ q, start ≤ q → ¬ s.Hits c.body q) ∧ s.run c = (false, c.moveTo .exhausted))) ∧
    (c.place = .exhausted → s.run c = (false, c)) ∧ (s.run c).2.body = c.body ∧
    (∀ test, c.findSequence [test] = c.findNext test) ∧ c.findSequence [] = (false, c) := by
  refine ⟨?_, fun start hplace => s.run_spec ?_, s.run_exhausted, s.body_run c, c.findSequence_singleton, rfl⟩
  · obtain ⟨ps, hsorted, hmem⟩ := s.exists_hits c.body
    refine ⟨ps, hsorted, hmem, repeated_eq (c := c.seekFirst) rfl hsorted fun p => ?_⟩
    exact (hmem p).trans (iff_and_self.2 fun _ => Nat.zero_le p)
  · rcases hplace with ⟨hplace, rfl⟩ | ⟨p, hplace, rfl⟩ | hplace
    all_goals rw [scanStart?, hplace]

/-- A body with three instructions that do nothing. -/
def idle : Body where
  method := ⟨"Feed", "idle"⟩
  signature := ⟨[], [], none⟩
  entries := [⟨⟨0⟩, .nop, []⟩, ⟨⟨1⟩, .nop, []⟩, ⟨⟨2⟩, .nop, []⟩, ⟨⟨3⟩, .ret, []⟩]
  nextId := 4

/-- Two of them in a row are found twice, and from a gap on once. -/
theorem enumerates_idle :
    (∃ ps : List Nat, ps.Pairwise (· < ·) ∧
      (∀ p, p ∈ ps ↔ (sequence (·.op == .nop) [(·.op == .nop)]).Hits idle p) ∧ ps.length = 2) ∧
    IsLeast {q | 1 ≤ q ∧ (sequence (·.op == .nop) [(·.op == .nop)]).Hits idle q} 1 := by
  obtain ⟨⟨ps, hsorted, hmem, hruns⟩, hfirst, -⟩ :=
    enumerates (sequence (·.op == .nop) [(·.op == .nop)]) { body := idle, place := .gap 1 }
  constructor
  · refine ⟨ps, hsorted, hmem, ?_⟩
    have hanswers : 2 = ((ps.map fun p => (true, ({ body := idle } : Cursor).moveTo (.on p))).take 3 ++
        List.replicate (3 - ps.length) (false, ({ body := idle } : Cursor).moveTo .exhausted)).countP Prod.fst :=
      congrArg (List.countP Prod.fst) (hruns 3)
    rw [List.countP_append, List.countP_replicate, if_neg Bool.false_ne_true, Nat.add_zero, ← List.map_take,
      List.countP_map] at hanswers
    have hlength : 2 = (ps.take 3).length := hanswers.trans (List.countP_eq_length.2 fun _ _ => rfl)
    rw [List.length_take] at hlength
    omega
  · rcases hfirst 1 (.inr (.inr rfl)) with ⟨p, hleast, hrun⟩ | ⟨-, hrun⟩
    · obtain rfl : 1 = p := Place.on.inj (congrArg (fun r => r.2.place) hrun)
      exact hleast
    · cases congrArg Prod.fst hrun

end Search

end Graft.Cursor
