import Graft.Execution.Step

/-!
# Running a body

A run starts at position 0 with default values in the locals and ends with `ret`, with an error, or when it has made
as many steps as it may.
-/

namespace Graft

namespace Execution

/-- The number of steps that a run may make where nothing else is said. -/
def defaultLimit : Nat := 1000000

/-- The cells of a body. -/
def cells (b : Body) : Array Cell := (b.instrs.map fun i => ⟨i, b.target? i, b.binding? i⟩).toArray

/-- Goes on from a frame for at most `n` steps of the `limit` that the run may make. A run that leaves the body fails
for that, also when it may make no further step. -/
def go {σ : Type} (read : Source → σ → Value × σ) (code : Array Cell) (returns : Bool) (limit : Nat) :
    (n : Nat) → Frame → σ → Except Error (Option Value) × σ
  | 0, f, s =>
    match code[f.pos]? with
    | none => (.error (.outOfBounds f.pos code.size), s)
    | some _ => (.error (.stepLimit limit), s)
  | n + 1, f, s =>
    match code[f.pos]? with
    | none => (.error (.outOfBounds f.pos code.size), s)
    | some c =>
      match c.step read returns f s with
      | (.running f, s) => go read code returns limit n f s
      | (.returned v, s) => (.ok v, s)
      | (.failed e, s) => (.error e, s)

end Execution

open Execution in
/-- Runs a body on arguments, for at most `limit` steps, and gives the value it returns, if any, with the state of the
sources afterwards. -/
def Body.run {σ : Type} (read : Source → σ → Value × σ) (b : Body) (args : List Value) (limit : Nat) (s : σ) :
    Except Error (Option Value) × σ :=
  let types := args.map Value.type
  if types = b.signature.params then
    go read (cells b) b.signature.returns.isSome limit limit
      { pos := 0, stack := [], args := args, locals := b.signature.locals.map ValueType.default } s
  else (.error (.badArguments b.method b.signature.params types), s)

end Graft
