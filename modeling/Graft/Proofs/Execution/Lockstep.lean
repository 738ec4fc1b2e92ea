import Graft.Proofs.Cursor.Replacement
import Graft.Proofs.Execution.Steps
import Graft.Proofs.Typing.Exactness
import Graft.Proofs.Typing.Substitution
import Graft.Providers

/-!
# Injected calls run in lockstep

An instruction that only puts a value on the stack is replaced by a call of a source with values of the same type. The
new body then runs as the old one does, if that takes the answers of the source in place of its own values.

* `feeding` gives a source its answers, one by one, and `overridden` is the step of the old body with these answers.
* `stepOf_withCall` says that this is the step of the new body.
* `replaceCurrent_lockstep` says so of whole runs, and when the source is asked.
-/

namespace Graft.Execution

open Typing

variable {σ : Type} {b : Body} {p : Nat} {e : Entry} {x : Binding}

/-- Sources of which `src` gives `w n` as its `n`-th answer. The number of its answers so far is kept next to the state
of the other sources. -/
def feeding (src : Source) (w : Nat → Value) (read : Source → σ → Value × σ) (y : Source) (s : Nat × σ) :
    Value × (Nat × σ) :=
  if y = src then (w s.1, (s.1 + 1, s.2)) else ((read y s.2).1, (s.1, (read y s.2).2))

/-- The step of a body in which the instruction at position `p`, whatever it is, puts the next answer of `src` on the
stack. -/
def overridden (b : Body) (p : Nat) (src : Source) (w : Nat → Value) (read : Source → σ → Value × σ) (f : Frame)
    (s : Nat × σ) : Outcome × (Nat × σ) :=
  if f.pos = p then (f.goOn (w s.1 :: f.stack), (s.1 + 1, s.2)) else stepOf (feeding src w read) b f s

/-- Whether the instruction at a position is a call that asks `src`. -/
def asks (b : Body) (src : Source) (q : Nat) : Bool :=
  (b.instr? q).any fun i => i.op == .call && (b.binding? i).any fun y => y.source == src

/-! ### Steps -/

/-- The new body makes the steps of the old one, with the answers of the source at position `p`. -/
theorem stepOf_withCall (hb : b.Numbered) (hfits : ∀ i ∈ b.instrs, Fits b i) (he : b.entries[p]? = some e)
    (hroom : b.externals.size < Body.maxExternals) {w : Nat → Value} (hw : ∀ n, (w n).type = x.type)
    (read : Source → σ → Value × σ) :
    stepOf (feeding x.source w read) (b.withCall p e.id x) = overridden b p x.source w read := by
  funext f s
  rw [overridden, stepOf, advance, cells_getElem?]
  by_cases hp : f.pos = p
  · -- the call takes the next answer, which passes the check of its type
    rw [if_pos hp, hp, withCall_instr?_self he, Option.map_some]
    simp only [Cell.step, withCall_binding? hroom, feeding, if_true, if_pos (hw s.1)]
  · rw [if_neg hp, withCall_instr? he hp, stepOf, advance, cells_getElem?]
    cases hi : b.instr? f.pos with
    | none =>
      simp only [Option.map_none, size_cells, length_withCall]
    | some j =>
      have hfit := hfits j (mem_instrs_of_instr? hi)
      obtain ⟨htarget, hbinding⟩ := withCall_operands (x := x) hb he hfit
      -- an instruction that fits has no label that names nothing, so errors cannot tell of different labels
      have hlabel (hnone : b.target? j = none) : j.label? = none := by
        refine hfit.label?_eq_none (Bool.eq_false_iff.2 fun hbranch => ?_)
        obtain ⟨t, q, -, -, hq⟩ := hfit.target hbranch
        rw [hq] at hnone
        cases hnone
      simp only [Option.map_some]
      apply step_congr
      · rfl
      · exact Instruction.immediate?_retarget
      · exact Instruction.slot?_retarget
      · exact htarget
      · intro hnone
        have hj := hlabel (htarget.symm.trans hnone)
        dsimp only
        rw [Instruction.label?_retarget, hj, Option.map_none]
      · exact hbinding

/-! ### Runs -/

/-- The body `b'` runs in lockstep with `b`, in which the instruction at position `p` takes the answers of the source of
`x`. -/
structure Lockstep (b b' : Body) (p : Nat) (x : Binding) (w : Nat → Value) (read : Source → σ → Value × σ)
    (args : List Value) (s : Nat × σ) : Prop where
  /-- Frames and sources are the same after any number of steps. -/
  steps : ∀ n, after (stepOf (feeding x.source w read) b') n (entryFrame b' args) s =
    after (overridden b p x.source w read) n (entryFrame b args) s
  /-- Results and errors are the same. -/
  run : ∀ limit, b'.run (feeding x.source w read) args limit s = b.runBy (overridden b p x.source w read) args limit s
  /-- In any number of steps, the source is asked once in each step at position `p`, once in each step that asks it in
  `b`, and not otherwise. -/
  reads : ∀ n, (after (stepOf (feeding x.source w read) b') n (entryFrame b' args) s).2.1 =
    s.1 + (visited (stepOf (feeding x.source w read) b') n (entryFrame b' args) s).countP
      fun q => q == p || asks b x.source q
  /-- A source that `b` takes no values from is asked once in each step at position `p`, and not otherwise. -/
  readsOnce : (∀ y ∈ b.externals, y.source ≠ x.source) → ∀ n,
    (after (stepOf (feeding x.source w read) b') n (entryFrame b' args) s).2.1 =
      s.1 + (visited (stepOf (feeding x.source w read) b') n (entryFrame b' args) s).count p

/-- Only a call changes the sources, and it asks one. -/
private theorem step_sources (read : Source → σ → Value × σ) (returns : Bool) (c : Cell) (f : Frame) (s : σ) :
    (c.step read returns f s).2 =
      if c.instr.op = .call then (c.binding.map fun y => (read y.source s).2).getD s else s := by
  unfold Cell.step
  split
  · rename_i y hop hy
    rw [if_pos hop, hy]
    dsimp only
    split <;> rfl
  · rename_i hnot
    by_cases hop : c.instr.op = .call
    · cases hy : c.binding with
      | none => rw [if_pos hop]; rfl
      | some y => exact (hnot y hop hy).elim
    · rw [if_neg hop]

private theorem stepOf_count (src : Source) (w : Nat → Value) (read : Source → σ → Value × σ) (f : Frame)
    (s : Nat × σ) : (stepOf (feeding src w read) b f s).2.1 = s.1 + (asks b src f.pos).toNat := by
  rw [stepOf, advance, cells_getElem?, asks]
  cases b.instr? f.pos with
  | none => rfl
  | some j =>
    simp only [Option.map_some, Option.any_some, step_sources]
    by_cases hop : j.op = .call
    · rw [if_pos hop]
      cases b.binding? j with
      | none => simp
      | some y =>
        by_cases hsrc : y.source = src <;> simp [hop, feeding, hsrc]
    · simp [hop]

private theorem overridden_count (src : Source) (w : Nat → Value) (read : Source → σ → Value × σ) (f : Frame)
    (s : Nat × σ) : (overridden b p src w read f s).2.1 = s.1 + (f.pos == p || asks b src f.pos).toNat := by
  rw [overridden]
  by_cases hp : f.pos = p
  · rw [if_pos hp, beq_iff_eq.2 hp, Bool.true_or, Bool.toNat_true]
  · rw [if_neg hp, beq_eq_false_iff_ne.2 hp, Bool.false_or]
    exact stepOf_count ..

private theorem asks_eq_false {src : Source} (h : ∀ y ∈ b.externals, y.source ≠ src) (q : Nat) :
    asks b src q = false := by
  rw [Bool.eq_false_iff]
  intro hasks
  obtain ⟨j, -, hj⟩ := (Option.any_eq_true ..).1 hasks
  rw [Bool.and_eq_true] at hj
  obtain ⟨y, hy, hsrc⟩ := (Option.any_eq_true ..).1 hj.2
  exact h y (mem_of_binding? hy) (beq_iff_eq.1 hsrc)

private theorem lockstep_withCall (hb : b.Numbered) (hfits : ∀ i ∈ b.instrs, Fits b i) (he : b.entries[p]? = some e)
    (hroom : b.externals.size < Body.maxExternals) {w : Nat → Value} (hw : ∀ n, (w n).type = x.type)
    (read : Source → σ → Value × σ) (args : List Value) (s : Nat × σ) :
    Lockstep b (b.withCall p e.id x) p x w read args s := by
  have hstep := stepOf_withCall hb hfits he hroom hw read
  have hconclude (limit : Nat) : conclude (cells (b.withCall p e.id x)) limit = conclude (cells b) limit :=
    conclude_congr (length_withCall ..) limit
  have hreads (n : Nat) := after_counter Prod.fst (fun q => q == p || asks b x.source q)
    (overridden_count x.source w read) n (entryFrame b args) s
  refine ⟨fun n => ?_, fun limit => ?_, fun n => ?_, fun hother n => ?_⟩
  · rw [hstep]
    rfl
  · rw [Body.run_eq, hstep, Body.runBy, Body.runBy, hconclude]
    rfl
  · rw [hstep]
    exact hreads n
  · rw [hstep]
    refine (hreads n).trans (congrArg (s.1 + ·) ?_)
    refine List.countP_congr fun q _ => ?_
    rw [asks_eq_false hother, Bool.or_false]

/-! ### Constants -/

/-- A source that always gives the constant of the replaced instruction changes no step. -/
private theorem overridden_constant (hfits : ∀ i ∈ b.instrs, Fits b i) {i : Instruction} (hi : b.instr? p = some i)
    {v : Value} (hv : i.immediate? = some v) (src : Source) (read : Source → σ → Value × σ) (f : Frame)
    (s t : Nat × σ) (hst : s.2 = t.2) :
    (overridden b p src (fun _ => v) read f s).1 = (stepOf (feeding src (fun _ => v) read) b f t).1 ∧
      (overridden b p src (fun _ => v) read f s).2.2 = (stepOf (feeding src (fun _ => v) read) b f t).2.2 := by
  rw [overridden]
  by_cases hp : f.pos = p
  · rw [if_pos hp, stepOf, advance, cells_getElem?, hp, hi, Option.map_some]
    rcases (hfits i (mem_instrs_of_instr? hi)).op_of_immediate? hv with op | op | op <;>
      simp only [Cell.step, Cell.act, op, hv, hst, and_self]
  · -- elsewhere the two runs differ in the number of answers only, and all answers are `v`
    rw [if_neg hp]
    refine stepOf_congr (R := fun (s t : Nat × σ) => s.2 = t.2) (fun y s t hst => ?_) b f hst
    rw [feeding, feeding]
    split
    · exact ⟨rfl, hst⟩
    · dsimp only
      rw [hst]
      exact ⟨rfl, rfl⟩

private theorem effect?_constant {i : Instruction} (hfit : Fits b i) {v : Value} (hv : i.immediate? = some v) :
    b.effect? i = some ⟨0, 1, some v.type⟩ := by
  rcases hfit.op_of_immediate? hv with op | op | op <;> simp only [Body.effect?, op, hv] <;> rfl

end Graft.Execution

namespace Graft.Cursor

open Execution Typing

/-- Replacing an instruction that only puts a value on the stack by a call of a source of the same type succeeds in a body
with which nothing is wrong, as long as the table of external values has room. The new body runs in lockstep with the old
one. If the instruction is a constant and the source always gives its value, the results are those of the old body. -/
theorem replaceCurrent_lockstep (c : Cursor) {p : Nat} {i : Instruction} {x : Binding} (hb : c.body.Numbered)
    (hv : c.body.violations = []) (hi : c.body.instr? p = some i)
    (heffect : c.body.effect? i = some ⟨0, 1, some x.type⟩) (hroom : c.body.externals.size < Body.maxExternals) :
    ∃ c₁ c₂ : Cursor, c.seekTo? p = some c₁ ∧
      c₁.replaceCurrent x = (.ok ⟨p, i, UInt16.ofNat c.body.externals.size, x.name, x.type⟩, c₂) ∧
      (∀ {σ : Type} (w : Nat → Value) (read : Source → σ → Value × σ) (args : List Value) (s : Nat × σ),
        (∀ n, (w n).type = x.type) → Lockstep c.body c₂.body p x w read args s) ∧
      ∀ {σ : Type} (v : Value) (read : Source → σ → Value × σ) (args : List Value) (limit : Nat) (s : Nat × σ),
        i.immediate? = some v →
          (c₂.body.run (feeding x.source (fun _ => v) read) args limit s).1 =
              (c.body.run (feeding x.source (fun _ => v) read) args limit s).1 ∧
            (c₂.body.run (feeding x.source (fun _ => v) read) args limit s).2.2 =
              (c.body.run (feeding x.source (fun _ => v) read) args limit s).2.2 := by
  obtain ⟨e, he, rfl⟩ := Option.map_eq_some_iff.1 hi
  have hfits := (wellTyped_of_findings (violations_eq_nil.1 hv)).fits
  have hsimple : c.body.Simple := fun e' he' => (hfits _ (List.mem_map_of_mem he')).length_operands
  refine ⟨c.moveTo (.on p), _, if_pos (lt_length_of_instr? hi),
    replaceCurrent_eq (c := c.moveTo (.on p)) hb hsimple rfl he heffect hroom, ?_, ?_⟩
  · intro σ w read args s hw
    exact lockstep_withCall hb hfits he hroom hw read args s
  · intro σ v read args limit s himmediate
    have hfit := hfits _ (mem_instrs_of_instr? hi)
    have htype : v.type = x.type := by
      rw [effect?_constant hfit himmediate] at heffect
      simpa using heffect
    have hlockstep := lockstep_withCall hb hfits he hroom (fun _ => htype) read args s
    have hrun := runBy_congr (overridden_constant hfits hi himmediate x.source read) c.body args limit (s := s) rfl
    rw [← Body.run_eq, ← hlockstep.run] at hrun
    exact hrun

/-- A body that comes back to its first instruction. -/
def retry : Body where
  method := ⟨"Feed", "retry"⟩
  signature := ⟨[.i32], [], some .i32⟩
  entries := [⟨⟨0⟩, .ldcI4, [.immediate (.i32 1)]⟩, ⟨⟨1⟩, .ldarg, [.index 0]⟩, ⟨⟨2⟩, .cgt, []⟩,
    ⟨⟨3⟩, .brtrue, [.label ⟨0⟩]⟩, ⟨⟨4⟩, .ldcI4, [.immediate (.i32 7)]⟩, ⟨⟨5⟩, .ret, []⟩]
  nextId := 6

theorem replaceCurrent_retry : ∃ c₁ c₂ : Cursor, seekTo? { body := retry } 0 = some c₁ ∧
    c₁.replaceCurrent ⟨"numbers", .i32, .feed 0⟩ =
      (.ok ⟨0, ⟨.ldcI4, [.immediate (.i32 1)]⟩, 0, "numbers", .i32⟩, c₂) ∧
    ∀ (args : List Value) (s : Nat × Providers), Lockstep retry c₂.body 0 ⟨"numbers", .i32, .feed 0⟩
      (fun n => .i32 (.ofNat n)) Providers.read args s := by
  obtain ⟨c₁, c₂, hseek, hreplace, hlockstep, -⟩ := replaceCurrent_lockstep { body := retry } (p := 0)
    (x := ⟨"numbers", .i32, .feed 0⟩) ⟨by decide, by decide⟩ (by decide +kernel) rfl (by decide) (by decide)
  exact ⟨c₁, c₂, hseek, hreplace, fun args s => hlockstep _ _ args s fun _ => rfl⟩

end Graft.Cursor
