import Graft.Matcher
import Graft.Pattern
import Graft.Proofs.Plan.Calls

/-!
# Replacing all that a search finds

A search finds an instruction, a call takes its place, and the next search goes on behind the call. This replaces each
instruction that passes the test of the searches once, and ends, also if the calls pass it as well.

* `Blind` says that a test does not look at the identities in labels.
* `Body.passing` lists the positions of the instructions that are to be found.
* `Cursor.sweep` is the loop, and `Cursor.sweep_calls` says what it comes to.
-/

namespace Graft

open Typing

variable {b : Body} {p q start : Nat} {e : Entry} {x : Binding} {i : Instruction} {test : Instruction → Bool}

/-! ### Tests that do not look at identities -/

/-- The answer of a test does not depend on the identities in labels. -/
def Blind (test : Instruction → Bool) : Prop :=
  ∀ (f : InstrId → InstrId) (i : Instruction), test { i with operands := i.operands.map (Operand.relabel f) } = test i

/-- Another identity in a label changes no other operand. -/
private theorem first_relabel (f : InstrId → InstrId) (op : Opcode) (os : List Operand) :
    (⟨op, os.map (Operand.relabel f)⟩ : Instruction).immediate? = (⟨op, os⟩ : Instruction).immediate? ∧
      (⟨op, os.map (Operand.relabel f)⟩ : Instruction).slot? = (⟨op, os⟩ : Instruction).slot? := by
  cases os with
  | nil => exact ⟨rfl, rfl⟩
  | cons o os => cases o <;> exact ⟨rfl, rfl⟩

theorem Matcher.blind_accepts (m : Matcher) : Blind fun i => m.accepts i := by
  intro f i
  obtain ⟨himmediate, hslot⟩ := first_relabel f i.op i.operands
  induction m with
  | any | opcode | branch => rfl
  | constant v => simp only [accepts, himmediate]
  | ldarg n => simp only [accepts, hslot]
  | and l r ihl ihr => exact congrArg₂ (· && ·) ihl ihr
  | or l r ihl ihr => exact congrArg₂ (· || ·) ihl ihr
  | not m ih => exact congrArg (! ·) ih

mutual

theorem Pattern.blind_accepts : (p : Pattern) → Blind fun i => p.accepts i
  | .any => fun _ _ => rfl
  | .opcode op => fun _ _ => rfl
  | .ldcI4 n => fun f i => by simp only [accepts, (first_relabel f i.op i.operands).1]
  | .constant v => fun f i => by simp only [accepts, (first_relabel f i.op i.operands).1]
  | .ldarg n => fun f i => by simp only [accepts, (first_relabel f i.op i.operands).2]
  | .and ps => fun f i => by simpa only [accepts] using Pattern.blind_acceptsAll ps f i
  | .or ps => fun f i => by simpa only [accepts] using Pattern.blind_acceptsSome ps f i
  | .not p => fun f i => by simpa only [accepts] using congrArg _ (Pattern.blind_accepts p f i)

private theorem Pattern.blind_acceptsAll : (ps : List Pattern) → Blind fun i => acceptsAll i ps
  | [] => fun _ _ => rfl
  | p :: ps => fun f i => congrArg₂ (· && ·) (Pattern.blind_accepts p f i) (Pattern.blind_acceptsAll ps f i)

private theorem Pattern.blind_acceptsSome : (ps : List Pattern) → Blind fun i => acceptsSome i ps
  | [] => fun _ _ => rfl
  | p :: ps => fun f i => congrArg₂ (· || ·) (Pattern.blind_accepts p f i) (Pattern.blind_acceptsSome ps f i)

end

private theorem Blind.retarget (h : Blind test) (source target : InstrId) (i : Instruction) :
    test (i.retarget source target) = test i := by
  have hrelabel : Operand.retarget source target = Operand.relabel fun t => if t = source then target else t := by
    funext o
    cases o with
    | label t =>
      rw [Operand.retarget, Operand.relabel]
      split <;> rfl
    | _ => rfl
  rw [Instruction.retarget, hrelabel]
  exact h _ i

/-! ### Positions of the instructions that pass a test -/

/-- The positions from `start` on of the instructions that pass a test, in increasing order. -/
def Body.passing (b : Body) (test : Instruction → Bool) (start : Nat) : List Nat :=
  (b.instrs.drop start).findIdxs test start

private theorem exists_of_findIdxs_eq_cons {is : List Instruction} {ps : List Nat}
    (h : is.findIdxs test start = p :: ps) :
    ∃ q i, p = start + q ∧ is[q]? = some i ∧ test i = true ∧ ps = (is.drop (q + 1)).findIdxs test (p + 1) := by
  induction is generalizing start with
  | nil => cases h
  | cons i is ih =>
    rw [List.findIdxs_cons] at h
    split at h
    · rename_i hi
      obtain ⟨rfl, rfl⟩ := List.cons.inj h
      exact ⟨0, i, rfl, rfl, hi, rfl⟩
    · obtain ⟨q, j, hp, hj, htest, hps⟩ := ih h
      exact ⟨q + 1, j, by omega, hj, htest, hps⟩

namespace Body

variable {ps : List Nat}

theorem mem_passing : q ∈ b.passing test start ↔ start ≤ q ∧ ∃ i, b.instr? q = some i ∧ test i = true := by
  rw [passing, List.mem_findIdxs_iff_getElem_sub_pos]
  refine and_congr_right fun hq => ?_
  have hinstr : (b.instrs.drop start)[q - start]? = b.instr? q := by
    rw [List.getElem?_drop, Nat.add_sub_cancel' hq, instrs_getElem?]
  rw [← hinstr]
  constructor
  · rintro ⟨hlt, htest⟩
    exact ⟨_, List.getElem?_eq_getElem hlt, htest⟩
  · rintro ⟨i, hi, htest⟩
    obtain ⟨hlt, rfl⟩ := List.getElem?_eq_some_iff.1 hi
    exact ⟨hlt, htest⟩

/-- Behind the first instruction that passes the test are the others. -/
theorem passing_eq_cons (h : b.passing test start = p :: ps) : b.passing test (p + 1) = ps := by
  obtain ⟨q, i, rfl, -, -, hps⟩ := exists_of_findIdxs_eq_cons h
  rw [hps, passing, List.drop_drop]
  rfl

/-- Another instruction at position `p` does not matter for the positions behind it. -/
theorem passing_withCall (hblind : Blind test) (he : b.entries[p]? = some e) :
    (b.withCall p e.id x).passing test (p + 1) = b.passing test (p + 1) := by
  have hdrop : (b.withCall p e.id x).instrs.drop (p + 1) =
      (b.instrs.drop (p + 1)).map (Instruction.retarget e.id b.freshId) := by
    refine List.ext_getElem? fun n => ?_
    rw [List.getElem?_map, List.getElem?_drop, List.getElem?_drop, instrs_getElem?, instrs_getElem?,
      withCall_instr? he (by omega)]
  have htest : test ∘ Instruction.retarget e.id b.freshId = test := funext fun i => hblind.retarget ..
  rw [passing, passing, hdrop, List.findIdxs_map, htest]

end Body

namespace Cursor

variable {c c₁ c₂ : Cursor} {ps : List Nat}

private theorem positionFrom?_eq_head? (is : List Instruction) :
    positionFrom? test start is = (is.findIdxs test start).head? := by
  induction is generalizing start with
  | nil => rfl
  | cons i is ih =>
    rw [positionFrom?, List.findIdxs_cons]
    split
    · rfl
    · exact ih

/-- A search goes to the first instruction from its start on that passes the test. -/
private theorem findNext_eq (c : Cursor) (hstart : c.scanStart? = some start) :
    c.findNext test =
      match c.body.passing test start with
      | [] => (false, c.moveTo .exhausted)
      | p :: _ => (true, c.moveTo (.on p)) := by
  unfold findNext
  simp only [hstart, positionFrom?_eq_head?]
  rw [← Body.passing]
  cases c.body.passing test start <;> rfl

/-! ### The loop -/

/-- Replaces what a search finds by a call, again and again until a search finds nothing. Gives the positions of the
instructions that were found, in the order in which they were, and the cursor at the end; nothing if there are more than
`n`. -/
def sweep (test : Instruction → Bool) (x : Binding) :
    (n : Nat) → (c : Cursor) → Except PatchError (Option (List Nat × Cursor))
  | 0, c =>
    match c.findNext test with
    | (true, _) => .ok none
    | (false, c) => .ok (some ([], c))
  | n + 1, c =>
    match c.findNext test with
    | (true, c) =>
      match c.remove with
      | .error e => .error e
      | .ok (_, gap) =>
        match gap.insertCall x with
        | .error e => .error e
        | .ok (_, next) => (sweep test x n next).map (Option.map fun r => (c.pos?.toList ++ r.1, r.2))
    | (false, c) => .ok (some ([], c))

/-- A search from the place of the cursor on would find the instructions at the given positions, each of which can give way
to a call. -/
private structure Ready (test : Instruction → Bool) (x : Binding) (c : Cursor) (ps : List Nat) : Prop where
  numbered : c.body.Numbered
  wellTyped : WellTyped c.body
  ahead : ∃ start, c.scanStart? = some start ∧ c.body.passing test start = ps
  suits : ∀ q ∈ ps, ∃ i, c.body.instr? q = some i ∧ c.body.effect? i = some ⟨0, 1, some x.type⟩
  room : c.body.externals.size + ps.length ≤ Body.maxExternals

/-- Nothing is found any more. -/
private theorem Ready.stop (h : Ready test x c []) : c.findNext test = (false, c.moveTo .exhausted) := by
  obtain ⟨start, hstart, hps⟩ := h.ahead
  rw [findNext_eq c hstart, hps]

/-- The first of the instructions is found, gives way to a call, and the others are ahead. -/
private theorem Ready.step (hblind : Blind test) (h : Ready test x c (p :: ps)) :
    c.findNext test = (true, c.moveTo (.on p)) ∧ ∃ e r, c.body.entries[p]? = some e ∧ (∀ q ∈ ps, q ≠ p) ∧
      (c.moveTo (.on p)).replaceCurrent x = (.ok r, { body := c.body.withCall p e.id x, place := .on p }) ∧
      Ready test x { body := c.body.withCall p e.id x, place := .on p } ps := by
  obtain ⟨start, hstart, hps⟩ := h.ahead
  refine ⟨by rw [findNext_eq c hstart, hps], ?_⟩
  obtain ⟨i, hi, heffect⟩ := h.suits p List.mem_cons_self
  obtain ⟨e, he, rfl⟩ := Option.map_eq_some_iff.1 hi
  have hroom := h.room
  rw [List.length_cons] at hroom
  have hfull : c.body.externals.size < Body.maxExternals := by omega
  have hrest := Body.passing_eq_cons hps
  have hbehind (q : Nat) (hq : q ∈ ps) : q ≠ p := by
    rw [← hrest, Body.mem_passing] at hq
    omega
  refine ⟨e, _, he, hbehind,
    replaceCurrent_eq (c := c.moveTo (.on p)) h.numbered h.wellTyped.simple rfl he heffect hfull, ?_⟩
  constructor
  · exact h.numbered.withCall ..
  · exact h.wellTyped.withCall h.numbered he heffect hfull
  · exact ⟨p + 1, rfl, (Body.passing_withCall hblind he).trans hrest⟩
  · intro q hq
    obtain ⟨j, hj, hsuit⟩ := h.suits q (List.mem_cons_of_mem _ hq)
    refine ⟨_, by rw [withCall_instr? he (hbehind q hq), hj, Option.map_some], ?_⟩
    rw [effect?_withCall h.numbered he (h.wellTyped.fits j (mem_instrs_of_instr? hj)), hsuit]
  · show (c.body.externals.push x).size + _ ≤ _
    rw [Array.size_push]
    omega

private theorem sweep_of_found {n : Nat} {r : Injection} (hfound : c.findNext test = (true, c₁))
    (hpos : c₁.pos? = some p) (hreplace : c₁.replaceCurrent x = (.ok r, c₂)) :
    sweep test x (n + 1) c = (sweep test x n c₂).map (Option.map fun r => (p :: r.1, r.2)) := by
  cases hremove : c₁.remove with
  | error e =>
    rw [replaceCurrent, hremove] at hreplace
    cases hreplace
  | ok removed =>
    obtain ⟨i, gap⟩ := removed
    cases hcall : gap.insertCall x with
    | error e =>
      simp only [replaceCurrent, hremove, hcall] at hreplace
      cases hreplace
    | ok inserted =>
      obtain ⟨row, next⟩ := inserted
      simp only [replaceCurrent, hremove, hcall] at hreplace
      obtain ⟨-, rfl⟩ := Prod.mk.inj hreplace
      simp only [sweep, hfound, hremove, hcall, hpos]
      rfl

/-- The instructions at some positions, each with the external value of the call that takes its place. -/
private def called (b : Body) (x : Binding) (ps : List Nat) : List (InstrId × Binding) :=
  ps.map fun p => ((b.id? p).getD b.freshId, x)

private theorem mem_called (hids : ∀ q ∈ ps, ∃ t, b.id? q = some t) {t : InstrId}
    (ht : t ∈ (called b x ps).map Prod.fst) : ∃ q ∈ ps, b.id? q = some t := by
  rw [called, List.map_map] at ht
  obtain ⟨q, hq, rfl⟩ := List.mem_map.1 ht
  obtain ⟨t, ht⟩ := hids q hq
  exact ⟨q, hq, by rw [Function.comp_apply, ht, Option.getD_some]⟩

private theorem Ready.id? (h : Ready test x c ps) : ∀ q ∈ ps, ∃ t, c.body.id? q = some t := by
  intro q hq
  obtain ⟨i, hi, -⟩ := h.suits q hq
  obtain ⟨e, he, -⟩ := Option.map_eq_some_iff.1 hi
  exact ⟨e.id, Body.id?_of_getElem? he⟩

/-- One more call comes before the others. -/
private theorem Ready.calls {b' : Body} (h : Ready test x c (p :: ps)) (he : c.body.entries[p]? = some e)
    (hbehind : ∀ q ∈ ps, q ≠ p)
    (hcalls : (c.body.withCall p e.id x).Calls (called (c.body.withCall p e.id x) x ps) b') :
    c.body.Calls (called c.body x (p :: ps)) b' := by
  have hid := Body.id?_of_getElem? he
  have hids (q : Nat) (hq : q ∈ ps) := h.id? q (List.mem_cons_of_mem _ hq)
  have hrest : called (c.body.withCall p e.id x) x ps = called c.body x ps := by
    refine List.map_congr_left fun q hq => ?_
    obtain ⟨t, ht⟩ := hids q hq
    have ht' : (c.body.withCall p e.id x).id? q = some t :=
      (Body.substitute_id? he q).trans ((if_neg (hbehind q hq)).trans ht)
    rw [ht, ht', Option.getD_some, Option.getD_some]
  have hroom := h.room
  rw [List.length_cons] at hroom
  rw [hrest] at hcalls
  rw [called, List.map_cons, hid, Option.getD_some]
  refine hcalls.cons h.numbered h.wellTyped.fits he (by omega) (fun hin => ?_) fun t ht => ?_
  · obtain ⟨q, hq, ht⟩ := mem_called hids hin
    exact hbehind q hq (h.numbered.eq_of_id? ht hid)
  · obtain ⟨q, -, ht⟩ := mem_called hids ht
    exact Body.mem_ids_of_id? ht

/-- The loop replaces all instructions that are ahead, and ends. -/
private theorem Ready.sweep_eq (hblind : Blind test) (h : Ready test x c ps) :
    ∃ c' : Cursor, (∀ n, c.sweep test x n = .ok (if n < ps.length then none else some (ps, c'))) ∧
      WellTyped c'.body ∧ c.body.Calls (called c.body x ps) c'.body := by
  induction ps generalizing c with
  | nil =>
    refine ⟨c.moveTo .exhausted, fun n => ?_, h.wellTyped, .refl h.wellTyped.fits⟩
    cases n <;> rw [sweep, h.stop] <;> rfl
  | cons p ps ih =>
    obtain ⟨hfound, e, r, he, hbehind, hreplace, hnext⟩ := h.step hblind
    obtain ⟨c', hsweep, hw, hcalls⟩ := ih hnext
    refine ⟨c', fun n => ?_, hw, h.calls he hbehind hcalls⟩
    cases n with
    | zero =>
      rw [sweep, hfound]
      rfl
    | succ n =>
      rw [sweep_of_found hfound rfl hreplace, hsweep, List.length_cons]
      by_cases hn : n < ps.length
      · rw [if_pos hn, if_pos (Nat.succ_lt_succ hn)]
        rfl
      · rw [if_neg hn, if_neg fun h => hn (Nat.lt_of_succ_lt_succ h)]
        rfl

/-- Tests of patterns and of matchers are blind. With a blind test, the loop on a body with which nothing is wrong ends
after as many replacements as instructions pass the test, if each of these only puts a value of the type of the calls on
the stack and the table of external values has room. The calls stand at the positions of these instructions, with the
external values behind those that were there, and nothing is wrong with the body afterwards. -/
theorem sweep_calls : (∀ p : Pattern, Blind fun i => p.accepts i) ∧ (∀ m : Matcher, Blind fun i => m.accepts i) ∧
    ∀ (b : Body) (test : Instruction → Bool) (x : Binding), b.Numbered → b.verify = .ok () → Blind test →
      (∀ i ∈ b.instrs, test i = true → b.effect? i = some ⟨0, 1, some x.type⟩) →
      b.externals.size + b.instrs.countP test ≤ Body.maxExternals →
      ∃ c' : Cursor,
        (∀ n, sweep test x n { body := b } =
          .ok (if n < b.instrs.countP test then none else some (b.instrs.findIdxs test, c'))) ∧
        c'.body.verify = .ok () ∧ c'.body.length = b.length ∧
        c'.body.externals = b.externals ++ Array.replicate (b.instrs.countP test) x ∧
        (∀ j p : Nat, (b.instrs.findIdxs test)[j]? = some p →
          ∃ n : UInt16, n.toNat = b.externals.size + j ∧ c'.body.instr? p = some ⟨.call, [.external n]⟩) ∧
        ∀ (q : Nat) (i : Instruction), b.instr? q = some i → test i = false →
          ∃ i', c'.body.instr? q = some i' ∧ Instruction.Alike b c'.body i i' := by
  refine ⟨Pattern.blind_accepts, Matcher.blind_accepts, fun b test x hb hv hblind hsuits hroom => ?_⟩
  have hw := wellTyped_of_findings (verify_eq_ok.1 hv)
  have hpassing (q : Nat) : q ∈ b.instrs.findIdxs test ↔ ∃ i, b.instr? q = some i ∧ test i = true := by
    have hmem : q ∈ b.passing test 0 ↔ _ := Body.mem_passing
    rwa [Body.passing, List.drop_zero, and_iff_right (Nat.zero_le q)] at hmem
  have hready : Ready test x { body := b } (b.instrs.findIdxs test) := by
    refine ⟨hb, hw, ⟨0, rfl, rfl⟩, fun q hq => ?_, ?_⟩
    · obtain ⟨i, hi, htest⟩ := (hpassing q).1 hq
      exact ⟨i, hi, hsuits i (mem_instrs_of_instr? hi) htest⟩
    · rwa [List.length_findIdxs]
  obtain ⟨c', hsweep, hw', hcalls⟩ := hready.sweep_eq hblind
  rw [List.length_findIdxs] at hsweep
  refine ⟨c', hsweep, verify_eq_ok.2 hw'.findings, hcalls.length, ?_, fun j p hj => ?_, fun q i hi htest => ?_⟩
  · have hbindings : (called b x (b.instrs.findIdxs test)).map Prod.snd = List.replicate (b.instrs.countP test) x := by
      rw [called, List.map_map, ← List.length_findIdxs (s := 0)]
      exact List.map_const ..
    rw [hcalls.externals, hbindings, List.toArray_replicate]
  · obtain ⟨t, ht⟩ := hready.id? p (List.mem_of_getElem? hj)
    have hcalled : (called b x (b.instrs.findIdxs test))[j]? = some (t, x) := by
      rw [called, List.getElem?_map, hj, Option.map_some, ht, Option.getD_some]
    exact hcalls.call hcalled ht
  · obtain ⟨e, he, rfl⟩ := Option.map_eq_some_iff.1 hi
    have hid := Body.id?_of_getElem? he
    have hnot : e.id ∉ (called b x (b.instrs.findIdxs test)).map Prod.fst := by
      intro hin
      obtain ⟨r, hr, ht⟩ := mem_called hready.id? hin
      obtain ⟨j, hj, hpass⟩ := (hpassing r).1 hr
      rw [hb.eq_of_id? ht hid, hi] at hj
      rw [← Option.some.inj hj, htest] at hpass
      cases hpass
    obtain ⟨i', hi', halike⟩ := hcalls.other he hnot
    exact ⟨i', by rw [Body.instr?, hi', Option.map_some], halike⟩

/-- A body that adds a setting to one until the sum is zero. -/
def summing : Body where
  method := ⟨"Feed", "summing"⟩
  signature := ⟨[], [], some .i32⟩
  entries := [⟨⟨0⟩, .ldcI4, [.immediate (.i32 1)]⟩, ⟨⟨1⟩, .call, [.external 0]⟩, ⟨⟨2⟩, .add, []⟩,
    ⟨⟨3⟩, .brtrue, [.label ⟨0⟩]⟩, ⟨⟨4⟩, .ldcI4, [.immediate (.i32 1)]⟩, ⟨⟨5⟩, .ret, []⟩]
  externals := #[⟨"offset", .i32, .setting "offset"⟩]
  nextId := 6

/-- The calls that are put in pass the test as well. -/
theorem sweep_calls_summing : ∃ c' : Cursor,
    sweep (fun i => Matcher.accepts i (.or (.ldcI4 1) (.opcode .call))) ⟨"numbers", .i32, .feed 0⟩ 3
      { body := summing } = .ok (some ([0, 1, 4], c')) ∧ c'.body.verify = .ok () ∧ c'.body.externals.size = 4 ∧
    ∃ n : UInt16, n.toNat = 3 ∧ c'.body.instr? 4 = some ⟨.call, [.external n]⟩ := by
  obtain ⟨-, hblind, h⟩ := sweep_calls
  obtain ⟨c', hsweep, hverify, -, hexternals, hcall, -⟩ := h summing
    (fun i => Matcher.accepts i (.or (.ldcI4 1) (.opcode .call))) ⟨"numbers", .i32, .feed 0⟩ ⟨by decide, by decide⟩
    (by decide +kernel) (hblind _) (by decide) (by decide)
  refine ⟨c', hsweep 3, hverify, ?_, hcall 2 4 rfl⟩
  rw [hexternals, Array.size_append, Array.size_replicate]
  rfl

end Cursor

end Graft
