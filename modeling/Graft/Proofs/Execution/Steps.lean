import Graft.Execution.Run

/-!
# Runs as repeated steps

A run is a step, repeated until it stops or may make no further step.

* `stepOf` is the step of a run, `after` repeats a step, and `Body.runBy` is the run that consists of such steps;
  `Body.run_eq` says that a run is one.
* `after_invariant` follows an invariant along the steps, `after_congr` compares two ways of making steps, and
  `after_counter` counts the steps made at some positions.
* `after_add` puts steps together, and `after_outside` says what they come to outside the body.
-/

namespace Graft

namespace Execution

variable {σ τ : Type}

/-- One step of a run. It fails where there is no instruction. -/
def advance (read : Source → σ → Value × σ) (code : Array Cell) (returns : Bool) (f : Frame) (s : σ) : Outcome × σ :=
  match code[f.pos]? with
  | none => (.failed (.outOfBounds f.pos code.size), s)
  | some c => c.step read returns f s

/-- One step of a run of a body. -/
def stepOf (read : Source → σ → Value × σ) (b : Body) : Frame → σ → Outcome × σ :=
  advance read (cells b) b.signature.returns.isSome

/-- The outcome of `n` steps, or of fewer if they stop before. -/
def after (step : Frame → σ → Outcome × σ) : (n : Nat) → Frame → σ → Outcome × σ
  | 0, f, s => (.running f, s)
  | n + 1, f, s =>
    match step f s with
    | (.running f, s) => after step n f s
    | (.returned v, s) => (.returned v, s)
    | (.failed e, s) => (.failed e, s)

/-- The result of a run that has made all its steps. -/
def conclude (code : Array Cell) (limit : Nat) : Outcome → Except Error (Option Value)
  | .running f => if f.pos < code.size then .error (.stepLimit limit) else .error (.outOfBounds f.pos code.size)
  | .returned v => .ok v
  | .failed e => .error e

/-- The frame in which a body is entered. -/
def entryFrame (b : Body) (args : List Value) : Frame :=
  { pos := 0, stack := [], args := args, locals := b.signature.locals.map ValueType.default }

/-- What a run sees of the instruction at a position. -/
theorem cells_getElem? (b : Body) (p : Nat) :
    (cells b)[p]? = (b.instr? p).map fun i => ⟨i, b.target? i, b.binding? i⟩ := by
  simp [cells, Body.instr?, Body.instrs]

theorem size_cells (b : Body) : (cells b).size = b.length := by
  simp [cells, Body.instrs, Body.length]

theorem mem_of_binding? {b : Body} {i : Instruction} {x : Binding} (h : b.binding? i = some x) : x ∈ b.externals := by
  obtain ⟨n, -, hn⟩ := Option.bind_eq_some_iff.1 h
  exact Array.mem_of_getElem? hn

/-- The conclusion from a run depends on the length of the body only. -/
theorem conclude_congr {b b' : Body} (h : b.length = b'.length) (limit : Nat) :
    conclude (cells b) limit = conclude (cells b') limit := by
  funext o
  cases o with
  | running f => rw [conclude, conclude, size_cells, size_cells, h]
  | _ => rfl

/-- Going on for `n` steps is drawing the conclusion from `n` steps. -/
theorem go_eq (read : Source → σ → Value × σ) (code : Array Cell) (returns : Bool) (limit n : Nat) (f : Frame)
    (s : σ) : go read code returns limit n f s =
      (conclude code limit (after (advance read code returns) n f s).1, (after (advance read code returns) n f s).2) := by
  induction n generalizing f s with
  | zero =>
    rw [go, after, conclude]
    cases hc : code[f.pos]? with
    | none => rw [if_neg (Nat.not_lt.2 (Array.getElem?_eq_none_iff.1 hc))]
    | some c => rw [if_pos (Array.getElem?_eq_some_iff.1 hc).1]
  | succ n ih =>
    rw [go, after, advance]
    cases hc : code[f.pos]? with
    | none => rfl
    | some c =>
      cases hs : c.step read returns f s with
      | mk o t =>
        cases o with
        | running g => simpa only [hs] using ih g t
        | returned v => simp only [hs, conclude]
        | failed e => simp only [hs, conclude]

end Execution

open Execution in
/-- A run that makes up to `limit` of the given steps. -/
def Body.runBy {σ : Type} (b : Body) (step : Frame → σ → Outcome × σ) (args : List Value) (limit : Nat) (s : σ) :
    Except Error (Option Value) × σ :=
  let types := args.map Value.type
  if types = b.signature.params then
    (conclude (cells b) limit (after step limit (entryFrame b args) s).1, (after step limit (entryFrame b args) s).2)
  else (.error (.badArguments b.method b.signature.params types), s)

open Execution in
theorem Body.run_eq {σ : Type} (read : Source → σ → Value × σ) (b : Body) (args : List Value) (limit : Nat) (s : σ) :
    b.run read args limit s = b.runBy (stepOf read b) args limit s := by
  rw [Body.run, Body.runBy]
  split
  · exact go_eq ..
  · rfl

namespace Execution

variable {σ τ : Type}

/-- An invariant of frames and sources that every step keeps, as long as it goes on, holds as long as a run goes on; what
a step that stops comes to is what the run comes to. -/
theorem after_invariant {step : Frame → σ → Outcome × σ} {I : Frame → σ → Prop} {O : Outcome → σ → Prop}
    (hstep : ∀ f s, I f s → match step f s with
      | (.running g, t) => I g t
      | (o, t) => O o t)
    (hrun : ∀ f s, I f s → O (.running f) s) (n : Nat) {f : Frame} {s : σ} (h : I f s) :
    O (after step n f s).1 (after step n f s).2 := by
  induction n generalizing f s with
  | zero => exact hrun f s h
  | succ n ih =>
    have hs := hstep f s h
    rw [after]
    cases ho : step f s with
    | mk o t =>
      rw [ho] at hs
      cases o with
      | running g => exact ih hs
      | returned v => exact hs
      | failed e => exact hs

/-- Two ways of making steps that agree step by step, with the sources in a relation, agree for good. -/
theorem after_congr {step : Frame → σ → Outcome × σ} {step' : Frame → τ → Outcome × τ} {R : σ → τ → Prop}
    (hstep : ∀ f s t, R s t → (step f s).1 = (step' f t).1 ∧ R (step f s).2 (step' f t).2) (n : Nat) (f : Frame)
    {s : σ} {t : τ} (h : R s t) :
    (after step n f s).1 = (after step' n f t).1 ∧ R (after step n f s).2 (after step' n f t).2 := by
  induction n generalizing f s t with
  | zero => exact ⟨rfl, h⟩
  | succ n ih =>
    obtain ⟨houtcome, hR⟩ := hstep f s t h
    rw [after, after]
    cases ho : step f s with
    | mk o s₁ =>
      cases ho' : step' f t with
      | mk o' t₁ =>
        rw [ho, ho'] at houtcome hR
        dsimp only at houtcome hR
        subst houtcome
        cases o with
        | running g => exact ih g hR
        | returned v => exact ⟨rfl, hR⟩
        | failed e => exact ⟨rfl, hR⟩

/-- Steps agree when the answers of the sources do. -/
theorem stepOf_congr {read : Source → σ → Value × σ} {read' : Source → τ → Value × τ} {R : σ → τ → Prop}
    (hread : ∀ y s t, R s t → (read y s).1 = (read' y t).1 ∧ R (read y s).2 (read' y t).2) (b : Body) (f : Frame)
    {s : σ} {t : τ} (h : R s t) :
    (stepOf read b f s).1 = (stepOf read' b f t).1 ∧ R (stepOf read b f s).2 (stepOf read' b f t).2 := by
  rw [stepOf, stepOf, advance, advance]
  cases (cells b)[f.pos]? with
  | none => exact ⟨rfl, h⟩
  | some c =>
    dsimp only
    unfold Cell.step
    split
    · rename_i y _ _
      obtain ⟨hvalue, hR⟩ := hread y.source s t h
      dsimp only
      rw [hvalue]
      split
      · exact ⟨rfl, hR⟩
      · exact ⟨rfl, hR⟩
    · exact ⟨rfl, h⟩

/-- Runs agree when their steps do. -/
theorem runBy_congr {step : Frame → σ → Outcome × σ} {step' : Frame → τ → Outcome × τ} {R : σ → τ → Prop}
    (hstep : ∀ f s t, R s t → (step f s).1 = (step' f t).1 ∧ R (step f s).2 (step' f t).2) (b : Body)
    (args : List Value) (limit : Nat) {s : σ} {t : τ} (h : R s t) :
    (b.runBy step args limit s).1 = (b.runBy step' args limit t).1 ∧
      R (b.runBy step args limit s).2 (b.runBy step' args limit t).2 := by
  rw [Body.runBy, Body.runBy]
  split
  · obtain ⟨houtcome, hR⟩ := after_congr hstep limit (entryFrame b args) h
    exact ⟨congrArg (conclude (cells b) limit) houtcome, hR⟩
  · exact ⟨rfl, h⟩

/-- The positions at which the first `n` steps are made, or fewer if they stop before. -/
def visited (step : Frame → σ → Outcome × σ) : (n : Nat) → Frame → σ → List Nat
  | 0, _, _ => []
  | n + 1, f, s =>
    f.pos :: match step f s with
      | (.running g, t) => visited step n g t
      | _ => []

/-- What goes up by one in the steps made at some positions, and in no others, counts these steps. -/
theorem after_counter {step : Frame → σ → Outcome × σ} (count : σ → Nat) (counted : Nat → Bool)
    (hstep : ∀ f s, count (step f s).2 = count s + (counted f.pos).toNat) (n : Nat) (f : Frame) (s : σ) :
    count (after step n f s).2 = count s + (visited step n f s).countP counted := by
  induction n generalizing f s with
  | zero => rfl
  | succ n ih =>
    have hone : (if counted f.pos = true then 1 else 0) = (counted f.pos).toNat := by
      cases counted f.pos <;> rfl
    have hs := hstep f s
    rw [after, visited, List.countP_cons, hone]
    cases ho : step f s with
    | mk o t =>
      rw [ho] at hs
      cases o with
      | running g =>
        have := ih g t
        dsimp only at this hs ⊢
        omega
      | returned v => rwa [List.countP_nil, Nat.zero_add]
      | failed e => rwa [List.countP_nil, Nat.zero_add]

/-! ### More steps -/

section More

variable {step : Frame → σ → Outcome × σ} {b : Body} {f g : Frame} {s t : σ} {n : Nat}

/-- Steps that go on are followed by more of them, and an end is an end. -/
theorem after_add (step : Frame → σ → Outcome × σ) (n k : Nat) (f : Frame) (s : σ) :
    after step (n + k) f s = match after step n f s with
      | (.running g, t) => after step k g t
      | (.returned v, t) => (.returned v, t)
      | (.failed e, t) => (.failed e, t) := by
  induction n generalizing f s with
  | zero => rw [Nat.zero_add, after]
  | succ n ih =>
    rw [Nat.succ_add, after, after]
    cases step f s with
    | mk o t =>
      cases o with
      | running g => exact ih g t
      | returned v => rfl
      | failed e => rfl

theorem visited_add (step : Frame → σ → Outcome × σ) (n k : Nat) (f : Frame) (s : σ) :
    visited step (n + k) f s = visited step n f s ++ match after step n f s with
      | (.running g, t) => visited step k g t
      | _ => [] := by
  induction n generalizing f s with
  | zero => rw [Nat.zero_add, after, visited, List.nil_append]
  | succ n ih =>
    rw [Nat.succ_add, visited, visited, after, List.cons_append]
    cases step f s with
    | mk o t =>
      cases o with
      | running g => exact congrArg _ (ih g t)
      | returned v => rfl
      | failed e => rfl

/-- If the last of `n` steps goes on, then all of them have been made. -/
theorem length_visited (h : after step n f s = (.running g, t)) : (visited step n f s).length = n := by
  induction n generalizing f s with
  | zero => rfl
  | succ n ih =>
    rw [after] at h
    rw [visited, List.length_cons]
    cases hs : step f s with
    | mk o u =>
      rw [hs] at h
      cases o with
      | running g => exact congrArg Nat.succ (ih h)
      | returned v => cases h
      | failed e => cases h

theorem stepOf_outside (read : Source → σ → Value × σ) (h : ¬f.pos < b.length) (s : σ) :
    stepOf read b f s = (.failed (.outOfBounds f.pos b.length), s) := by
  have hnone : (cells b)[f.pos]? = none := Array.getElem?_eq_none (size_cells b ▸ Nat.not_lt.1 h)
  rw [stepOf, advance, hnone, size_cells]

/-- Outside the body there is nothing to execute, whatever the number of steps that are left. -/
theorem after_outside (read : Source → σ → Value × σ) (hf : ¬f.pos < b.length) (s : σ) (limit k : Nat) :
    conclude (cells b) limit (after (stepOf read b) k f s).1 = .error (.outOfBounds f.pos b.length) ∧
      (after (stepOf read b) k f s).2 = s ∧ (visited (stepOf read b) k f s).filter (fun p => p < b.length) = [] := by
  cases k with
  | zero =>
    refine ⟨?_, rfl, rfl⟩
    rw [after, conclude, size_cells, if_neg hf]
  | succ k =>
    rw [after, visited, stepOf_outside read hf]
    refine ⟨rfl, rfl, ?_⟩
    rw [List.filter_cons_of_neg (by simpa using hf), List.filter_nil]

end More

/-! ### Cells that do the same -/

/-- An instruction acts by its opcode, its first operand and the position that its label names. -/
theorem act_congr {c c' : Cell} (hop : c.instr.op = c'.instr.op)
    (himmediate : c.instr.immediate? = c'.instr.immediate?) (hslot : c.instr.slot? = c'.instr.slot?)
    (htarget : c.target = c'.target) (hlabel : c.target = none → c.instr.label? = c'.instr.label?) (returns : Bool)
    (f : Frame) : c.act returns f = c'.act returns f := by
  have hjump (vs : List Value) : f.jump c vs = f.jump c' vs := by
    unfold Frame.jump
    cases ht : c.target with
    | none => rw [← htarget, ht, hlabel ht]
    | some q => rw [← htarget, ht]
  have hload (slots : List Value) : f.load c slots = f.load c' slots := by
    unfold Frame.load Frame.badOperands
    rw [hslot, hop]
  have hstored (slots : List Value) (v : Value) : Frame.stored? c slots v = Frame.stored? c' slots v := by
    unfold Frame.stored?
    rw [hslot]
  have hbad : f.badOperands c = f.badOperands c' := by rw [Frame.badOperands, Frame.badOperands, hop]
  unfold Cell.act
  simp only [hop, himmediate, hjump, hload, hstored, hbad]

theorem step_congr {c c' : Cell} (hop : c.instr.op = c'.instr.op)
    (himmediate : c.instr.immediate? = c'.instr.immediate?) (hslot : c.instr.slot? = c'.instr.slot?)
    (htarget : c.target = c'.target) (hlabel : c.target = none → c.instr.label? = c'.instr.label?)
    (hbinding : c.binding = c'.binding) (read : Source → σ → Value × σ) (returns : Bool) (f : Frame) (s : σ) :
    c.step read returns f s = c'.step read returns f s := by
  unfold Cell.step
  rw [hop, hbinding, act_congr hop himmediate hslot htarget hlabel returns f]

end Execution

end Graft
