import Graft.Proofs.Cursor.Replacement
import Graft.Proofs.Execution.Steps
import Graft.Proofs.Typing.Exactness
import Graft.Proofs.Typing.Padding
import Graft.Proofs.Typing.Substitution

/-!
# A `nop` changes no result

A body that is padded with a `nop` runs as the body that is padded does, but for the steps at the `nop`. These are never two
in a row, so that twice as many steps are enough.

* `Execution.Outcome.Padded` compares the outcomes of single steps, and `step_padded` says that all steps but those at the
  `nop` compare.
* `Body.RunsPadded` compares whole runs: results, errors but for their positions, and the questions to the sources.
* `Cursor.nop_edits` says that a `nop` can be put in at a cursor, or taken out, with this as the only consequence.
-/

namespace Graft

/-- The error of a run, with each position that it tells replaced. -/
def Error.moved (ρ : Nat → Nat) : Error → Error
  | .badOperands op pos => .badOperands op (ρ pos)
  | .unresolvedLabel label pos => .unresolvedLabel label (ρ pos)
  | .outOfBounds pos length => .outOfBounds (ρ pos) (ρ length)
  | .typeMismatch pos expected found => .typeMismatch (ρ pos) expected found
  | .stackUnderflow pos => .stackUnderflow (ρ pos)
  | .divisionByZero pos => .divisionByZero (ρ pos)
  | e => e

namespace Execution

variable {σ : Type} {b b' : Body} {p n limit : Nat} {f : Frame} {s t : σ} {r : Except Error (Option Value)}

/-! ### Going on -/

/-- What a run comes to that goes on from a frame for at most `n` of its `limit` steps. -/
def resume (read : Source → σ → Value × σ) (b : Body) (limit n : Nat) (f : Frame) (s : σ) :
    Except Error (Option Value) × σ :=
  go read (cells b) b.signature.returns.isSome limit n f s

theorem resume_zero (read : Source → σ → Value × σ) (b : Body) (limit : Nat) (f : Frame) (s : σ) :
    resume read b limit 0 f s =
      (.error (if f.pos < b.length then .stepLimit limit else .outOfBounds f.pos b.length), s) := by
  unfold resume
  rw [go_eq, after, conclude, size_cells]
  split <;> rfl

theorem resume_succ (read : Source → σ → Value × σ) (b : Body) (limit n : Nat) (f : Frame) (s : σ) :
    resume read b limit (n + 1) f s =
      match stepOf read b f s with
      | (.running g, t) => resume read b limit n g t
      | (.returned v, t) => (.ok v, t)
      | (.failed e, t) => (.error e, t) := by
  unfold resume stepOf advance
  rw [go]
  cases (cells b)[f.pos]? with
  | none => rfl
  | some c => rfl

/-- A run that has come to its end within some steps comes to the same within more. -/
theorem resume_mono (read : Source → σ → Value × σ) {limit' m : Nat} (hnm : n ≤ m)
    (h : resume read b limit n f s = (r, t)) (hr : r ≠ .error (.stepLimit limit)) :
    resume read b limit' m f s = (r, t) := by
  obtain ⟨k, rfl⟩ := Nat.exists_eq_add_of_le hnm
  have hresume (limit j : Nat) : resume read b limit j f s =
      (conclude (cells b) limit (after (stepOf read b) j f s).1, (after (stepOf read b) j f s).2) := go_eq ..
  rw [hresume] at h ⊢
  rw [after_add]
  cases ho : after (stepOf read b) n f s with
  | mk o u =>
    rw [ho] at h
    obtain ⟨rfl, rfl⟩ := Prod.mk.inj h
    cases o with
    | running g =>
      have hout : ¬g.pos < b.length := fun hin => hr (by rw [conclude, size_cells, if_pos hin])
      obtain ⟨hresult, hsources, -⟩ := after_outside read hout u limit' k
      dsimp only
      rw [hresult, hsources, conclude, size_cells, if_neg hout]
    | returned v => rfl
    | failed e => rfl

/-! ### Steps of the two bodies -/

/-- The frame at the position of `b` that control has come to in the padded body. -/
def Frame.unpadded (p : Nat) (f : Frame) : Frame := { f with pos := Graft.unpadded p f.pos }

/-- Outcomes of corresponding steps of the two bodies. -/
inductive Outcome.Padded (p : Nat) : Outcome → Outcome → Prop
  | running (f : Frame) : Padded p (.running (f.unpadded p)) (.running f)
  | returned (v : Option Value) : Padded p (.returned v) (.returned v)
  | failed (e : Error) : Padded p (.failed e) (.failed (e.moved (padded p)))

section Step

variable (hf : f.pos ≠ p)

include hf

private theorem goOn_padded (vs : List Value) : Outcome.Padded p ((f.unpadded p).goOn vs) (f.goOn vs) := by
  have hframe : (f.unpadded p).goOn vs = .running (Frame.unpadded p { f with pos := f.pos + 1, stack := vs }) := by
    rw [Frame.goOn, Frame.unpadded, Frame.unpadded, unpadded_succ hf]
  rw [hframe]
  exact .running _

/-- An error that is told of the position at which it occurs. -/
private theorem failed_padded (e : Nat → Error) (he : ∀ q, (e q).moved (padded p) = e (padded p q)) :
    Outcome.Padded p (.failed (e (f.unpadded p).pos)) (.failed (e f.pos)) := by
  have h := Outcome.Padded.failed (p := p) (e (f.unpadded p).pos)
  rwa [he, Frame.unpadded, padded_unpadded hf] at h

private theorem underflow_padded : Outcome.Padded p (f.unpadded p).underflow f.underflow :=
  failed_padded hf .stackUnderflow fun _ => rfl

private theorem badOperands_padded {c c' : Cell} (hop : c.instr.op = c'.instr.op) :
    Outcome.Padded p ((f.unpadded p).badOperands c) (f.badOperands c') := by
  rw [Frame.badOperands, hop]
  exact failed_padded hf (.badOperands c'.instr.op) fun _ => rfl

private theorem jump_padded {c c' : Cell} (htarget : c.target = c'.target.map (unpadded p))
    (hlabel : c'.target = none → c.instr.label? = c'.instr.label?) (vs : List Value) :
    Outcome.Padded p ((f.unpadded p).jump c vs) (f.jump c' vs) := by
  unfold Frame.jump
  cases hc : c'.target with
  | none =>
    rw [htarget, hc, hlabel hc]
    exact failed_padded hf (.unresolvedLabel c'.instr.label?) fun _ => rfl
  | some x =>
    rw [htarget, hc]
    exact .running { f with pos := x, stack := vs }

private theorem binary_padded {g : Nat → Value → Value → Except Error Value}
    (hg : ∀ q v w, g (padded p q) v w = (g q v w).mapError (Error.moved (padded p))) :
    Outcome.Padded p ((f.unpadded p).binary (g (f.unpadded p).pos)) (f.binary (g f.pos)) := by
  have hpos : f.pos = padded p (f.unpadded p).pos := (padded_unpadded hf).symm
  unfold Frame.binary
  rcases hstack : f.stack with _ | ⟨rhs, _ | ⟨lhs, vs⟩⟩
  · simp only [Frame.unpadded, hstack]
    exact underflow_padded hf
  · simp only [Frame.unpadded, hstack]
    exact underflow_padded hf
  · have hunpadded : (f.unpadded p).stack = rhs :: lhs :: vs := hstack
    simp only [hunpadded]
    rw [hpos, hg]
    cases g (f.unpadded p).pos lhs rhs with
    | ok v => exact goOn_padded hf _
    | error e => exact .failed e

end Step

section Operations

variable (ρ : Nat → Nat) (q : Nat) (op : Opcode) (v w : Value)

private theorem arithmetic_moved :
    arithmetic (ρ q) op v w = (arithmetic q op v w).mapError (Error.moved ρ) := by
  have h32 (g : Int32 → Int32 → Int32) (x y : Int32) :
      guarded32 (ρ q) g x y = (guarded32 q g x y).mapError (Error.moved ρ) := by
    unfold guarded32
    split <;> rfl
  have h64 (g : Int64 → Int64 → Int64) (x y : Int64) :
      guarded64 (ρ q) g x y = (guarded64 q g x y).mapError (Error.moved ρ) := by
    unfold guarded64
    split <;> rfl
  cases v with
  | i32 x =>
    cases w with
    | i32 y => cases op <;> first | rfl | exact h32 ..
    | _ => rfl
  | i64 x =>
    cases w with
    | i64 y => cases op <;> first | rfl | exact h64 ..
    | _ => rfl
  | bool x => rfl

private theorem logical_moved : logical (ρ q) op v w = (logical q op v w).mapError (Error.moved ρ) := by
  cases v <;> cases w <;> rfl

private theorem equality_moved : equality (ρ q) v w = (equality q v w).mapError (Error.moved ρ) := by
  unfold equality
  split <;> rfl

private theorem ordering_moved : ordering (ρ q) op v w = (ordering q op v w).mapError (Error.moved ρ) := by
  cases v <;> cases w <;> rfl

end Operations

/-- An instruction acts alike in the two bodies. -/
private theorem act_padded (hf : f.pos ≠ p) {c c' : Cell} (hop : c.instr.op = c'.instr.op)
    (himmediate : c.instr.immediate? = c'.instr.immediate?) (hslot : c.instr.slot? = c'.instr.slot?)
    (htarget : c.target = c'.target.map (unpadded p)) (hlabel : c'.target = none → c.instr.label? = c'.instr.label?)
    (returns : Bool) : Outcome.Padded p (c.act returns (f.unpadded p)) (c'.act returns f) := by
  have hload (slots : List Value) : Outcome.Padded p ((f.unpadded p).load c slots) (f.load c' slots) := by
    unfold Frame.load
    rw [hslot]
    split
    · exact goOn_padded hf _
    · exact badOperands_padded hf hop
  have hstored (slots : List Value) (v : Value) : Frame.stored? c slots v = Frame.stored? c' slots v := by
    unfold Frame.stored?
    rw [hslot]
  have hstack : (f.unpadded p).stack = f.stack := rfl
  have hargs : (f.unpadded p).args = f.args := rfl
  have hlocals : (f.unpadded p).locals = f.locals := rfl
  unfold Cell.act
  rw [hop]
  cases hc : c'.instr.op
  case nop => exact goOn_padded hf _
  case ldcI4 | ldcI8 | ldcBool =>
    simp only [himmediate]
    split
    · exact goOn_padded hf _
    · exact badOperands_padded hf hop
  case ldarg => exact hload f.args
  case ldloc => exact hload f.locals
  case starg =>
    simp only [hstack, hargs, hstored]
    split
    · split
      · rename_i args _
        exact goOn_padded (f := { f with args := args }) hf _
      · exact badOperands_padded hf hop
    · exact underflow_padded hf
  case stloc =>
    simp only [hstack, hlocals, hstored]
    split
    · split
      · rename_i locals _
        exact goOn_padded (f := { f with locals := locals }) hf _
      · exact badOperands_padded hf hop
    · exact underflow_padded hf
  case call => exact badOperands_padded hf hop
  case add | sub | mul | div | rem =>
    exact binary_padded hf (g := fun q => arithmetic q _) fun q v w => arithmetic_moved ..
  case and | or => exact binary_padded hf (g := fun q => logical q _) fun q v w => logical_moved ..
  case ceq => exact binary_padded hf (g := equality) fun q v w => equality_moved ..
  case clt | cgt => exact binary_padded hf (g := fun q => ordering q _) fun q v w => ordering_moved ..
  case not | dup | pop =>
    simp only [hstack]
    split
    · exact goOn_padded hf _
    · exact underflow_padded hf
  case br => exact jump_padded hf htarget hlabel _
  case brtrue | brfalse =>
    simp only [hstack]
    split
    · split
      · first | exact jump_padded hf htarget hlabel _ | exact goOn_padded hf _
      · first | exact jump_padded hf htarget hlabel _ | exact goOn_padded hf _
    · exact underflow_padded hf
  case ret =>
    simp only [hstack]
    split
    · split
      · exact .returned _
      · exact underflow_padded hf
    · exact .returned _

section Padded

variable (h : b.Padded b' p)

include h

/-- All steps but those at the `nop` compare, and leave the sources in the same state. -/
theorem step_padded (read : Source → σ → Value × σ) (hf : f.pos ≠ p) (s : σ) :
    Outcome.Padded p (stepOf read b (f.unpadded p) s).1 (stepOf read b' f s).1 ∧
      (stepOf read b (f.unpadded p) s).2 = (stepOf read b' f s).2 := by
  rw [stepOf, stepOf, advance, advance, cells_getElem?, cells_getElem?, h.signature]
  rcases h.instr? hf with ⟨hnone, hnone'⟩ | ⟨i, i', hi, hi', hpadded⟩
  · have hnone₁ : b.instr? (f.unpadded p).pos = none := hnone
    have hlength : padded p b.length = b'.length := (padded_of_le (Nat.le_of_lt h.inside)).trans h.length.symm
    simp only [hnone₁, hnone', Option.map_none, size_cells, and_true]
    rw [← hlength]
    have hout := Outcome.Padded.failed (p := p) (.outOfBounds (f.unpadded p).pos b.length)
    rwa [Error.moved, Frame.unpadded, padded_unpadded hf] at hout
  · have hi₁ : b.instr? (f.unpadded p).pos = some i := hi
    simp only [hi₁, hi', Option.map_some]
    have hact : Outcome.Padded p
        (Cell.act b'.signature.returns.isSome ⟨i, b.target? i, b.binding? i⟩ (f.unpadded p))
        (Cell.act b'.signature.returns.isSome ⟨i', b'.target? i', b'.binding? i'⟩ f) :=
      act_padded hf hpadded.op hpadded.immediate? hpadded.slot? hpadded.target? hpadded.label? _
    unfold Cell.step
    simp only [hpadded.op, hpadded.binding? h.externals]
    split
    · rename_i x _ _
      split
      · exact ⟨goOn_padded hf _, rfl⟩
      · exact ⟨failed_padded hf (.typeMismatch · x.type.keyword _) fun _ => rfl, rfl⟩
    · exact ⟨hact, rfl⟩

/-! ### Runs of the two bodies -/

/-- A run that goes on from the `nop` makes a step to what follows it, which the other run does not make. -/
private theorem resume_nop (read : Source → σ → Value × σ) (hf : f.pos = p) (s : σ) :
    ∃ g : Frame, g.pos ≠ p ∧ g.unpadded p = f.unpadded p ∧
      ∀ limit n, resume read b' limit (n + 1) f s = resume read b' limit n g s := by
  have hstep : stepOf read b' f s = (.running { f with pos := p + 1 }, s) := by
    rw [stepOf, advance, cells_getElem?, hf, h.nop, ← hf]
    rfl
  refine ⟨{ f with pos := p + 1 }, Nat.succ_ne_self p, ?_, fun limit n => ?_⟩
  · rw [Frame.unpadded, Frame.unpadded, hf, unpadded_self, unpadded_succ_self]
  · rw [resume_succ, hstep]

/-- Runs that go on from corresponding frames, but not from the `nop`, make a step each and go on from corresponding frames,
or come to the same. -/
private theorem resume_step (read : Source → σ → Value × σ) (hf : f.pos ≠ p) (s : σ) :
    (∃ g u, (∀ limit n, resume read b limit (n + 1) (f.unpadded p) s = resume read b limit n (g.unpadded p) u) ∧
      ∀ limit n, resume read b' limit (n + 1) f s = resume read b' limit n g u) ∨
    ∃ r u, (∀ limit n, resume read b limit (n + 1) (f.unpadded p) s = (r, u)) ∧
      ∀ limit n, resume read b' limit (n + 1) f s = (r.mapError (Error.moved (padded p)), u) := by
  obtain ⟨houtcome, hsources⟩ := step_padded h read hf s
  simp only [resume_succ]
  cases ho : stepOf read b (f.unpadded p) s with
  | mk o u =>
    cases ho' : stepOf read b' f s with
    | mk o' u' =>
      rw [ho, ho'] at houtcome hsources
      dsimp only at houtcome hsources
      subst hsources
      cases houtcome with
      | running g => exact .inl ⟨g, u, fun _ _ => rfl, fun _ _ => rfl⟩
      | returned v => exact .inr ⟨.ok v, u, fun _ _ => rfl, fun _ _ => rfl⟩
      | failed e => exact .inr ⟨.error e, u, fun _ _ => rfl, fun _ _ => rfl⟩

/-- A run of the one body has left it exactly if one of the other has, with the error that tells of it. -/
private theorem left_padded (f : Frame) : (f.pos < b'.length ↔ (f.unpadded p).pos < b.length) ∧ (¬f.pos < b'.length →
    Error.outOfBounds f.pos b'.length = (Error.outOfBounds (f.unpadded p).pos b.length).moved (padded p)) := by
  have hlength := h.length
  have hinside := h.inside
  constructor
  · unfold Frame.unpadded Graft.unpadded
    dsimp only
    split <;> omega
  · intro hout
    rw [Error.moved, Frame.unpadded, padded_unpadded (by omega), padded_of_le (Nat.le_of_lt hinside), hlength]

/-- What the padded body comes to, the other one comes to within as many steps. -/
private theorem resume_unpadded (read : Source → σ → Value × σ) (hrun : resume read b' limit n f s = (r, t))
    (hr : r ≠ .error (.stepLimit limit)) : ∃ r', resume read b limit n (f.unpadded p) s = (r', t) ∧
      r' ≠ .error (.stepLimit limit) ∧ r = r'.mapError (Error.moved (padded p)) := by
  induction n generalizing f s with
  | zero =>
    obtain ⟨hleft, herror⟩ := left_padded h f
    rw [resume_zero] at hrun
    obtain ⟨rfl, rfl⟩ := Prod.mk.inj hrun
    have hout : ¬f.pos < b'.length := fun hin => hr (by rw [if_pos hin])
    refine ⟨_, resume_zero .., ?_, ?_⟩
    · rw [if_neg (hout ∘ hleft.2)]
      nofun
    · rw [if_neg hout, if_neg (hout ∘ hleft.2), herror hout]
      rfl
  | succ n ih =>
    by_cases hf : f.pos = p
    · -- the other body has not moved, and the step it has left over changes nothing
      obtain ⟨g, -, hframe, hnop⟩ := resume_nop h read hf s
      rw [hnop] at hrun
      obtain ⟨r', hrest, hr', hmoved⟩ := ih hrun
      rw [hframe] at hrest
      exact ⟨r', resume_mono read (Nat.le_succ n) hrest hr', hr', hmoved⟩
    · rcases resume_step h read hf s with ⟨g, u, hstep, hstep'⟩ | ⟨r', u, hend, hend'⟩
      · rw [hstep'] at hrun
        rw [hstep]
        exact ih hrun
      · rw [hend'] at hrun
        obtain ⟨rfl, rfl⟩ := Prod.mk.inj hrun
        refine ⟨r', hend .., ?_, rfl⟩
        rintro rfl
        exact hr rfl

/-- What a body comes to, the padded one comes to within twice as many steps, or more. -/
private theorem resume_padded (read : Source → σ → Value × σ) {limit' m : Nat} (hm : 2 * n ≤ m)
    (hrun : resume read b limit n (f.unpadded p) s = (r, t)) (hr : r ≠ .error (.stepLimit limit)) :
    resume read b' limit' m f s = (r.mapError (Error.moved (padded p)), t) := by
  induction n generalizing f s m with
  | zero =>
    obtain ⟨hleft, herror⟩ := left_padded h f
    rw [resume_zero] at hrun
    obtain ⟨rfl, rfl⟩ := Prod.mk.inj hrun
    have hout : ¬(f.unpadded p).pos < b.length := fun hin => hr (by rw [if_pos hin])
    have hstart := resume_zero read b' limit f s
    rw [if_neg (hout ∘ hleft.1), herror (hout ∘ hleft.1)] at hstart
    rw [if_neg hout]
    exact resume_mono read hm hstart nofun
  | succ n ih =>
    -- one step of the body is one step of the padded one, from a position that is not that of the `nop`
    have hstep {f : Frame} {m : Nat} (hm : 2 * n ≤ m) (hf : f.pos ≠ p)
        (hrun : resume read b limit (n + 1) (f.unpadded p) s = (r, t)) :
        resume read b' limit' (m + 1) f s = (r.mapError (Error.moved (padded p)), t) := by
      rcases resume_step h read hf s with ⟨g, u, hstep, hstep'⟩ | ⟨r', u, hend, hend'⟩
      · rw [hstep] at hrun
        rw [hstep']
        exact ih hm hrun
      · rw [hend] at hrun
        obtain ⟨rfl, rfl⟩ := Prod.mk.inj hrun
        exact hend' ..
    by_cases hf : f.pos = p
    · obtain ⟨m, rfl⟩ : ∃ k, m = k + 2 := ⟨m - 2, by omega⟩
      obtain ⟨g, hg, hframe, hnop⟩ := resume_nop h read hf s
      rw [hnop]
      rw [← hframe] at hrun
      exact hstep (by omega) hg hrun
    · obtain ⟨m, rfl⟩ : ∃ k, m = k + 1 := ⟨m - 1, by omega⟩
      exact hstep (by omega) hf hrun

end Padded

end Execution

/-! ### Whole runs -/

open Execution in
/-- Runs of a body `b'` that is `b` padded at position `p`. What a run of the one comes to, a run of the other comes to: `b`
within as many steps as `b'`, and `b'` within twice as many as `b`, or more. Values are the same, errors differ in the
positions that they tell, and the sources are left in the same state, which may be a list of all questions to them. Only a
run that may make too few steps is not compared. -/
structure Body.RunsPadded (b b' : Body) (p : Nat) : Prop where
  unpadded : ∀ {σ : Type} (read : Source → σ → Value × σ) (args : List Value) (limit : Nat) (s t : σ)
    (r : Except Error (Option Value)), b'.run read args limit s = (r, t) → r ≠ .error (.stepLimit limit) →
      ∃ r', b.run read args limit s = (r', t) ∧ r = r'.mapError (Error.moved (padded p))
  padded : ∀ {σ : Type} (read : Source → σ → Value × σ) (args : List Value) (limit limit' : Nat) (s t : σ)
    (r : Except Error (Option Value)), b.run read args limit s = (r, t) → r ≠ .error (.stepLimit limit) →
      2 * limit ≤ limit' → b'.run read args limit' s = (r.mapError (Error.moved (padded p)), t)

namespace Body

variable {b b' : Body} {p : Nat}

open Execution

private theorem run_eq_resume {σ : Type} (read : Source → σ → Value × σ) (b : Body) (args : List Value) (limit : Nat)
    (s : σ) : b.run read args limit s =
      if args.map Value.type = b.signature.params then resume read b limit limit (entryFrame b args) s
      else (.error (.badArguments b.method b.signature.params (args.map Value.type)), s) :=
  rfl

/-- A padded body runs as the body does that is padded. -/
theorem Padded.runsPadded (h : b.Padded b' p) : b.RunsPadded b' p := by
  have hentry (args : List Value) : (entryFrame b' args).unpadded p = entryFrame b args := by
    unfold entryFrame Frame.unpadded
    rw [h.signature, unpadded_zero]
  constructor
  · intro σ read args limit s t r hrun hr
    rw [run_eq_resume] at hrun ⊢
    rw [h.signature, h.method]
    split at hrun
    · rename_i hargs
      obtain ⟨r', hrun', -, hmoved⟩ := resume_unpadded h read hrun hr
      rw [hentry] at hrun'
      rw [if_pos hargs]
      exact ⟨r', hrun', hmoved⟩
    · rename_i hargs
      obtain ⟨rfl, rfl⟩ := Prod.mk.inj hrun
      rw [if_neg hargs]
      exact ⟨_, rfl, rfl⟩
  · intro σ read args limit limit' s t r hrun hr hlimit
    rw [run_eq_resume] at hrun ⊢
    rw [h.signature, h.method] at hrun
    split at hrun
    · rename_i hargs
      rw [← hentry] at hrun
      rw [if_pos hargs]
      exact resume_padded h read hlimit hrun hr
    · rename_i hargs
      obtain ⟨rfl, rfl⟩ := Prod.mk.inj hrun
      rw [if_neg hargs]
      rfl

end Body

/-! ### Edits at a cursor -/

namespace Cursor

open Typing

variable {p : Nat} {e : Entry}

/-- A `nop` that is put in pads a body with which nothing is wrong. -/
private theorem insert_nop (c : Cursor) (hb : c.body.Numbered) (hw : WellTyped c.body) (hp : p < c.body.length) :
    ∃ c₁, (c.moveTo (.on p)).insert ⟨.nop, []⟩ = .ok (c.body.freshId, c₁) ∧ c.body.Padded c₁.body p := by
  have hinsert : c.body.insert p ⟨.nop, []⟩ = .ok _ := Body.insert_ok_iff.2 ⟨Nat.le_of_lt hp, rfl⟩
  have hpadded := Body.padded_insert hb hw.linked hp hinsert
  refine ⟨{ body := _, place := .on p }, ?_, hpadded⟩
  unfold Cursor.insert
  simp only [moveTo, insertionPoint, hinsert]

/-- A body with which nothing is wrong is a padded one if there is a `nop` in it to be taken out. -/
private theorem remove_nop (c : Cursor) (hb : c.body.Numbered) (hw : WellTyped c.body)
    (he : c.body.entries[p]? = some e) (hop : e.instr.op = .nop) :
    ∃ c₁, (c.moveTo (.on p)).remove = .ok (e.instr, c₁) ∧ c₁.body.Padded c.body p := by
  have hi := Body.instr?_of_getElem? he
  have hp := lt_length_of_instr? hi
  have hnop : e.instr = ⟨.nop, []⟩ := by
    have hfit := hw.fits _ (mem_instrs_of_instr? hi)
    generalize e.instr = i at hfit hop
    cases hfit with
    | plain => exact congrArg (Instruction.mk · []) hop
    | argument kind => rcases kind with rfl | rfl <;> cases hop
    | localVar kind => rcases kind with rfl | rfl <;> cases hop
    | external => cases hop
    | constant kind | branch kind =>
      dsimp only at hop
      subst hop
      cases kind
  -- control would run past a `nop` that is the last instruction
  have hnext : p + 1 < c.body.length := by
    refine Nat.lt_of_le_of_ne hp fun hlast => ?_
    have hclosed := hw.closed
    rw [closed_iff (i := e.instr) (by rw [← hlast]; exact hi), hop] at hclosed
    cases hclosed
  obtain ⟨rest, hrest⟩ : ∃ rest, rest = { c.body with entries := c.body.entries.eraseIdx p } := ⟨_, rfl⟩
  obtain ⟨successor, hsuccessor⟩ : ∃ t, rest.id? p = some t := by
    have hlt : p < rest.entries.length := by
      rw [hrest, List.length_eraseIdx_of_lt hp]
      exact Nat.lt_sub_of_add_lt hnext
    exact ⟨_, congrArg (Option.map Entry.id) (List.getElem?_eq_getElem hlt)⟩
  obtain ⟨branches, hremove, -⟩ := remove_eq (c := c.moveTo (.on p)) rfl he hrest
  refine ⟨_, hremove, ?_⟩
  rw [hsuccessor]
  exact Body.padded_erase hb he hrest hsuccessor hw.linked hnop

/-- A `nop` can be put in front of any instruction of a body with which nothing is wrong, and a `nop` that is in it can be
taken out. Nothing is wrong with the body afterwards, and it runs as before. -/
theorem nop_edits (c : Cursor) (hb : c.body.Numbered) (hv : c.body.verify = .ok ()) (hp : p < c.body.length) :
    ∃ c₀, c.seekTo? p = some c₀ ∧
      (∃ c₁, c₀.insert ⟨.nop, []⟩ = .ok (c.body.freshId, c₁) ∧ c₁.body.verify = .ok () ∧
        c.body.RunsPadded c₁.body p) ∧
      ∀ i, c.body.instr? p = some i → i.op = .nop →
        ∃ c₁, c₀.remove = .ok (i, c₁) ∧ c₁.body.verify = .ok () ∧ c₁.body.RunsPadded c.body p := by
  have hw := wellTyped_of_findings (verify_eq_ok.1 hv)
  refine ⟨_, if_pos hp, ?_, fun i hi hop => ?_⟩
  · obtain ⟨c₁, hinsert, hpadded⟩ := insert_nop c hb hw hp
    exact ⟨c₁, hinsert, verify_eq_ok.2 ((wellTyped_iff_padded hpadded).1 hw).findings, hpadded.runsPadded⟩
  · obtain ⟨e, he, rfl⟩ := Option.map_eq_some_iff.1 hi
    obtain ⟨c₁, hremove, hpadded⟩ := remove_nop c hb hw he hop
    exact ⟨c₁, hremove, verify_eq_ok.2 ((wellTyped_iff_padded hpadded).2 hw).findings, hpadded.runsPadded⟩

/-- A body that divides its argument until it is zero, and goes back to a `nop` each time. -/
def dividing : Body where
  method := ⟨"Feed", "dividing"⟩
  signature := ⟨[.i32], [], some .i32⟩
  entries := [⟨⟨0⟩, .nop, []⟩, ⟨⟨1⟩, .ldarg, [.index 0]⟩, ⟨⟨2⟩, .call, [.external 0]⟩, ⟨⟨3⟩, .div, []⟩,
    ⟨⟨4⟩, .starg, [.index 0]⟩, ⟨⟨5⟩, .ldarg, [.index 0]⟩, ⟨⟨6⟩, .brtrue, [.label ⟨0⟩]⟩, ⟨⟨7⟩, .ldarg, [.index 0]⟩,
    ⟨⟨8⟩, .ret, []⟩]
  externals := #[⟨"divisors", .i32, .feed 0⟩]
  nextId := 9

theorem nop_edits_dividing : ∃ c₀ c₁ c₂, seekTo? { body := dividing } 0 = some c₀ ∧
    c₀.insert ⟨.nop, []⟩ = .ok (⟨9⟩, c₁) ∧ c₁.body.verify = .ok () ∧ dividing.RunsPadded c₁.body 0 ∧
    c₀.remove = .ok (⟨.nop, []⟩, c₂) ∧ c₂.body.verify = .ok () ∧ c₂.body.RunsPadded dividing 0 := by
  obtain ⟨c₀, hseek, ⟨c₁, hinsert, hverify, hruns⟩, hremoval⟩ := nop_edits { body := dividing } (p := 0)
    ⟨by decide, by decide⟩ (by decide +kernel) (by decide)
  obtain ⟨c₂, hremove, hverify₂, hruns₂⟩ := hremoval ⟨.nop, []⟩ rfl rfl
  exact ⟨c₀, c₁, c₂, hseek, hinsert, hverify, hruns, hremove, hverify₂, hruns₂⟩

end Cursor

end Graft
