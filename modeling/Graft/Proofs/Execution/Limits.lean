import Graft.Proofs.Execution.Steps
import Graft.Proofs.Failure
import Graft.Providers

/-!
# Step limits

A limit on the steps of a run cuts it short and does nothing else (`run_of_le_limit`).

* `Error.position?` is the position that an error of a run tells of. All errors of steps tell of the position of the step
  (`stepOf_error`), so that no step comes to what the limit comes to.
* `Body.executed` and `Body.reads` list what a run does: the instructions that it executes, and what it asks the sources.
* `run_cases` compares a run with one that may make more steps.
-/

namespace Graft

/-- The position that an error of a run tells of. -/
def Error.position? : Error → Option Nat
  | .badOperands _ pos | .unresolvedLabel _ pos | .outOfBounds pos _ | .typeMismatch pos _ _ | .stackUnderflow pos
  | .divisionByZero pos => some pos
  | _ => none

namespace Execution

variable {σ : Type} {b : Body} {f : Frame} {pos : Nat}

/-! ### Errors of steps -/

/-- If the outcome is an error, then one that tells of the position `pos`. -/
def Outcome.FailsAt (pos : Nat) (o : Outcome) : Prop := ∀ e, o = .failed e → e.position? = some pos

private theorem failsAt_running (g : Frame) : Outcome.FailsAt pos (.running g) := nofun

private theorem failsAt_returned (v : Option Value) : Outcome.FailsAt pos (.returned v) := nofun

private theorem failsAt_failed {e : Error} (h : e.position? = some pos) : Outcome.FailsAt pos (.failed e) := by
  rintro e' ⟨⟩
  exact h

private theorem failsAt_jump (c : Cell) (vs : List Value) : (f.jump c vs).FailsAt f.pos := by
  unfold Frame.jump
  split
  · exact failsAt_running _
  · exact failsAt_failed rfl

private theorem failsAt_load (c : Cell) (slots : List Value) : (f.load c slots).FailsAt f.pos := by
  unfold Frame.load
  split
  · exact failsAt_running _
  · exact failsAt_failed rfl

private theorem failsAt_binary {operation : Value → Value → Except Error Value}
    (h : ∀ v w, FailsOnly (fun e => e.position? = some f.pos) (operation v w)) : (f.binary operation).FailsAt f.pos := by
  unfold Frame.binary
  split
  · rename_i rhs lhs vs _
    split
    · exact failsAt_running _
    · rename_i e he
      exact failsAt_failed ((h lhs rhs).error e he)
  · exact failsAt_failed rfl

private theorem arithmetic_error (op : Opcode) (v w : Value) :
    FailsOnly (fun e => e.position? = some pos) (arithmetic pos op v w) := by
  have h32 (g : Int32 → Int32 → Int32) (x y : Int32) :
      FailsOnly (fun e => e.position? = some pos) (guarded32 pos g x y) := by
    unfold guarded32
    split
    · exact failsOnly_error rfl
    · exact failsOnly_ok _
  have h64 (g : Int64 → Int64 → Int64) (x y : Int64) :
      FailsOnly (fun e => e.position? = some pos) (guarded64 pos g x y) := by
    unfold guarded64
    split
    · exact failsOnly_error rfl
    · exact failsOnly_ok _
  unfold arithmetic
  split
  · split
    · exact failsOnly_ok _
    · exact failsOnly_ok _
    · exact failsOnly_ok _
    · exact h32 ..
    · exact h32 ..
  · split
    · exact failsOnly_ok _
    · exact failsOnly_ok _
    · exact failsOnly_ok _
    · exact h64 ..
    · exact h64 ..
  · exact failsOnly_error rfl

private theorem logical_error (op : Opcode) (v w : Value) :
    FailsOnly (fun e => e.position? = some pos) (logical pos op v w) := by
  unfold logical
  split
  · exact failsOnly_ok _
  · exact failsOnly_ok _
  · exact failsOnly_ok _
  · exact failsOnly_error rfl

private theorem equality_error (v w : Value) : FailsOnly (fun e => e.position? = some pos) (equality pos v w) := by
  unfold equality
  split
  · exact failsOnly_ok _
  · exact failsOnly_error rfl

private theorem ordering_error (op : Opcode) (v w : Value) :
    FailsOnly (fun e => e.position? = some pos) (ordering pos op v w) := by
  unfold ordering
  split
  · exact failsOnly_ok _
  · exact failsOnly_ok _
  · exact failsOnly_error rfl

private theorem failsAt_act (returns : Bool) (c : Cell) (f : Frame) : (c.act returns f).FailsAt f.pos := by
  unfold Cell.act
  cases c.instr.op with
  | nop => exact failsAt_running _
  | ldcI4 | ldcI8 | ldcBool | not | dup | pop =>
    dsimp only
    split
    · exact failsAt_running _
    · exact failsAt_failed rfl
  | ldarg | ldloc => exact failsAt_load _ _
  | starg | stloc =>
    dsimp only
    split
    · split
      · exact failsAt_running _
      · exact failsAt_failed rfl
    · exact failsAt_failed rfl
  | call => exact failsAt_failed rfl
  | add | sub | mul | div | rem => exact failsAt_binary (arithmetic_error _)
  | and | or => exact failsAt_binary (logical_error _)
  | ceq => exact failsAt_binary equality_error
  | clt | cgt => exact failsAt_binary (ordering_error _)
  | br => exact failsAt_jump _ _
  | brtrue =>
    dsimp only
    split
    · split
      · exact failsAt_jump _ _
      · exact failsAt_running _
    · exact failsAt_failed rfl
  | brfalse =>
    dsimp only
    split
    · split
      · exact failsAt_running _
      · exact failsAt_jump _ _
    · exact failsAt_failed rfl
  | ret =>
    dsimp only
    split
    · split
      · exact failsAt_returned _
      · exact failsAt_failed rfl
    · exact failsAt_returned _

/-- An error of a step tells of the position at which the step is made. -/
theorem stepOf_error (read : Source → σ → Value × σ) (b : Body) (f : Frame) (s : σ) :
    (stepOf read b f s).1.FailsAt f.pos := by
  unfold stepOf advance
  split
  · exact failsAt_failed rfl
  · rename_i c _
    unfold Cell.step
    split
    · dsimp only
      split
      · exact failsAt_running _
      · exact failsAt_failed rfl
    · exact failsAt_act _ c f

/-! ### What a run does -/

/-- Sources that keep a list of the questions to them, each with its answer. -/
def recording (read : Source → σ → Value × σ) (y : Source) (s : σ × List (Source × Value)) :
    Value × (σ × List (Source × Value)) :=
  ((read y s.1).1, ((read y s.1).2, s.2 ++ [(y, (read y s.1).1)]))

end Execution

namespace Body

variable {σ : Type}

open Execution

/-- The questions of a run to the sources, with the answers. -/
def reads (read : Source → σ → Value × σ) (b : Body) (args : List Value) (limit : Nat) (s : σ) : List (Source × Value) :=
  (b.run (recording read) args limit (s, [])).2.2

/-- The positions of the instructions that a run executes, one after the other. -/
def executed (read : Source → σ → Value × σ) (b : Body) (args : List Value) (limit : Nat) (s : σ) : List Nat :=
  if args.map Value.type = b.signature.params then
    (visited (stepOf read b) limit (entryFrame b args) s).filter fun p => p < b.length
  else []

end Body

namespace Execution

variable {σ : Type} {read : Source → σ → Value × σ} {b : Body} {args : List Value} {f g : Frame} {s t : σ} {n m : Nat}

/-- A list of the questions changes no run. -/
theorem run_recording (read : Source → σ → Value × σ) (b : Body) (args : List Value) (limit : Nat) (s : σ)
    (log : List (Source × Value)) : (b.run (recording read) args limit (s, log)).1 = (b.run read args limit s).1 ∧
      (b.run (recording read) args limit (s, log)).2.1 = (b.run read args limit s).2 := by
  rw [Body.run_eq, Body.run_eq]
  refine runBy_congr (R := fun (u : σ × List (Source × Value)) (t : σ) => u.1 = t) (fun f u t h => ?_) b args limit rfl
  refine stepOf_congr (R := fun (u : σ × List (Source × Value)) (t : σ) => u.1 = t) (fun y u t h => ?_) b f h
  subst h
  exact ⟨rfl, rfl⟩

/-- Steps add to the list of the questions. -/
private theorem prefix_recording (f : Frame) (u : σ × List (Source × Value)) (n : Nat) :
    u.2 <+: (after (stepOf (recording read) b) n f u).2.2 := by
  refine after_invariant (I := fun _ (v : σ × List (Source × Value)) => u.2 <+: v.2)
    (O := fun _ (v : σ × List (Source × Value)) => u.2 <+: v.2) (fun f v h => ?_) (fun _ _ h => h) n List.prefix_rfl
  have hstep : u.2 <+: (stepOf (recording read) b f v).2.2 := by
    unfold stepOf advance
    split
    · exact h
    · unfold Cell.step
      split
      · dsimp only
        split <;> exact h.trans (List.prefix_append _ _)
      · exact h
  cases ho : stepOf (recording read) b f v with
  | mk o w =>
    rw [ho] at hstep
    cases o <;> exact hstep

/-- A step that goes on is one of an instruction. -/
private theorem lt_length_of_stepOf (h : stepOf read b f s = (.running g, t)) : f.pos < b.length := by
  by_contra hout
  rw [stepOf_outside read hout] at h
  cases h

/-- Steps that go on have executed one instruction each. -/
private theorem filter_visited (h : after (stepOf read b) n f s = (.running g, t)) :
    (visited (stepOf read b) n f s).filter (fun p => p < b.length) = visited (stepOf read b) n f s := by
  induction n generalizing f s with
  | zero => rfl
  | succ n ih =>
    rw [after] at h
    rw [visited]
    cases hs : stepOf read b f s with
    | mk o u =>
      rw [hs] at h
      cases o with
      | running g' =>
        have hinside := lt_length_of_stepOf hs
        rw [List.filter_cons_of_pos (by simpa using hinside)]
        exact congrArg _ (ih h)
      | returned v => cases h
      | failed e => cases h

/-- The error of a run that has failed in one of its steps tells of a position. -/
private theorem position?_of_after {e : Error} (h : after (stepOf read b) n f s = (.failed e, t)) :
    e.position? ≠ none := by
  have hfailed : ∀ e', (after (stepOf read b) n f s).1 = .failed e' → e'.position? ≠ none := by
    refine after_invariant (I := fun _ _ => True) (O := fun o _ => ∀ e', o = .failed e' → e'.position? ≠ none)
      (fun f s _ => ?_) (fun _ _ _ => nofun) n trivial
    have herror := stepOf_error read b f s
    cases hs : stepOf read b f s with
    | mk o u =>
      rw [hs] at herror
      cases o with
      | running g => trivial
      | returned v => exact nofun
      | failed e =>
        intro e' he'
        rw [herror e' he']
        nofun
  exact hfailed e (congrArg Prod.fst h)

/-- Either a run comes to its end within its limit, and then it does the same under a higher limit, or it has executed as
many instructions as it may and stands in front of another one, and under a higher limit it goes on from there. -/
theorem run_cases (read : Source → σ → Value × σ) (b : Body) (args : List Value) (s : σ) (h : n ≤ m) :
    ((b.run read args n s).1 ≠ .error (.stepLimit n) ∧ b.run read args m s = b.run read args n s ∧
      b.executed read args m s = b.executed read args n s) ∨
    ((b.run read args n s).1 = .error (.stepLimit n) ∧ (b.executed read args n s).length = n ∧
      b.executed read args n s <+: b.executed read args m s ∧
      ∃ f, (b.run read args m s).2 = (after (stepOf read b) (m - n) f (b.run read args n s).2).2) := by
  obtain ⟨k, rfl⟩ : ∃ k, m = n + k := ⟨m - n, by omega⟩
  rw [Nat.add_sub_cancel_left, Body.run_eq, Body.run_eq, Body.runBy, Body.runBy, Body.executed, Body.executed]
  by_cases hargs : args.map Value.type = b.signature.params
  · simp only [if_pos hargs]
    rw [after_add, visited_add, List.filter_append]
    cases ho : after (stepOf read b) n (entryFrame b args) s with
    | mk o t =>
      cases o with
      | running f =>
        dsimp only
        by_cases hf : f.pos < b.length
        · have hconclude : conclude (cells b) n (.running f) = .error (.stepLimit n) := by
            rw [conclude, size_cells, if_pos hf]
          refine .inr ⟨hconclude, ?_, List.prefix_append _ _, f, rfl⟩
          rw [filter_visited ho, length_visited ho]
        · obtain ⟨hresult, hsources, hnothing⟩ := after_outside read hf t (n + k) k
          have hconclude : conclude (cells b) n (.running f) = .error (.outOfBounds f.pos b.length) := by
            rw [conclude, size_cells, if_neg hf]
          rw [hresult, hsources, hnothing, hconclude, List.append_nil]
          refine .inl ⟨fun hlimit => ?_, rfl, rfl⟩
          cases hlimit
      | returned v =>
        refine .inl ⟨fun hlimit => ?_, rfl, ?_⟩
        · cases hlimit
        · rw [List.filter_nil, List.append_nil]
      | failed e =>
        refine .inl ⟨?_, rfl, ?_⟩
        · rintro ⟨⟩
          exact position?_of_after ho rfl
        · rw [List.filter_nil, List.append_nil]
  · rw [if_neg hargs, if_neg hargs, if_neg hargs, if_neg hargs]
    refine .inl ⟨fun hlimit => ?_, rfl, rfl⟩
    cases hlimit

/-- A limit only cuts a run short. What a run comes to within its limit, it comes to under every higher limit, with the same
instructions and the same questions to the sources and answers. If it does not come to an end, it has executed as many
instructions as its limit tells, and under a higher limit it begins with the same instructions and the same questions. -/
theorem run_of_le_limit (read : Source → σ → Value × σ) (b : Body) (args : List Value) (s : σ) (h : n ≤ m) :
    ((b.run read args n s).1 ≠ .error (.stepLimit n) → b.run read args m s = b.run read args n s ∧
      b.reads read args m s = b.reads read args n s ∧ b.executed read args m s = b.executed read args n s) ∧
    ((b.run read args n s).1 = .error (.stepLimit n) → (b.executed read args n s).length = n ∧
      b.executed read args n s <+: b.executed read args m s ∧ b.reads read args n s <+: b.reads read args m s) := by
  have hrecorded := (run_recording read b args n s []).1
  constructor
  · intro hend
    rcases run_cases read b args s h with ⟨-, hrun, hexecuted⟩ | ⟨hlimit, -⟩
    · refine ⟨hrun, ?_, hexecuted⟩
      rcases run_cases (recording read) b args (s, []) h with ⟨-, hrun, -⟩ | ⟨hlimit, -⟩
      · exact congrArg (fun r => r.2.2) hrun
      · exact absurd (hrecorded.symm.trans hlimit) hend
    · exact absurd hlimit hend
  · intro hlimit
    rcases run_cases read b args s h with ⟨hend, -⟩ | ⟨-, hlength, hexecuted, -⟩
    · exact absurd hlimit hend
    · refine ⟨hlength, hexecuted, ?_⟩
      rcases run_cases (recording read) b args (s, []) h with ⟨hend, -⟩ | ⟨-, -, -, f, hsources⟩
      · exact absurd (hrecorded.trans hlimit) hend
      · rw [Body.reads, Body.reads, hsources]
        exact prefix_recording f _ (m - n)

/-- A body that asks a feed until it gets zero. -/
def draining : Body where
  method := ⟨"Feed", "drain"⟩
  signature := ⟨[], [], none⟩
  entries := [⟨⟨0⟩, .call, [.external 0]⟩, ⟨⟨1⟩, .brtrue, [.label ⟨0⟩]⟩, ⟨⟨2⟩, .ret, []⟩]
  externals := #[⟨"numbers", .i32, .feed 0⟩]
  nextId := 3

/-- A feed that gives zero as its third answer. -/
def numbers : Providers where
  feeds := #[⟨"numbers", .i32, [.i32 2, .i32 1, .i32 0]⟩]

/-- Three steps are too few for this body. Seven are enough, and eight make no difference. -/
theorem run_of_le_limit_draining : 3 ≤ 7 ∧ (draining.run Providers.read [] 3 numbers).1 = .error (.stepLimit 3) ∧
    (draining.executed Providers.read [] 3 numbers).length = 3 ∧
    draining.reads Providers.read [] 3 numbers <+: draining.reads Providers.read [] 7 numbers ∧
    7 ≤ 8 ∧ (draining.run Providers.read [] 7 numbers).1 = .ok none ∧
    draining.run Providers.read [] 8 numbers = draining.run Providers.read [] 7 numbers ∧
    draining.reads Providers.read [] 8 numbers = draining.reads Providers.read [] 7 numbers := by
  have hlimit : (draining.run Providers.read [] 3 numbers).1 = .error (.stepLimit 3) := rfl
  have hend : (draining.run Providers.read [] 7 numbers).1 = .ok none := rfl
  have hnot : (draining.run Providers.read [] 7 numbers).1 ≠ .error (.stepLimit 7) := by rw [hend]; nofun
  obtain ⟨-, hcut⟩ := run_of_le_limit Providers.read draining [] numbers (n := 3) (m := 7) (by decide)
  obtain ⟨hlength, -, hreads⟩ := hcut hlimit
  obtain ⟨hfinished, -⟩ := run_of_le_limit Providers.read draining [] numbers (n := 7) (m := 8) (by decide)
  obtain ⟨hrun, hreads', -⟩ := hfinished hnot
  exact ⟨by decide, hlimit, hlength, hreads, by decide, hend, hrun, hreads'⟩

end Execution

end Graft
