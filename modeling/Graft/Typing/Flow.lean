import Graft.Typing.Block
import Graft.Typing.Operands
import Graft.Typing.Stack

/-!
# Verification

The second stage of verification carries typed stacks along the blocks of a body. A block is entered with the stack of
the path that reaches it first; every other path must bring the same stack.

* `Body.findings` lists what is wrong with a body, and `Body.verify` accepts a body for which it is empty.
-/

namespace Graft.Typing

/-- How far stacks have been carried: the stack on entry of each block reached so far, the blocks to look at next, the
blocks that were reached with different stacks, and what was found. -/
structure Flow where
  entries : List (Nat × Stack)
  queue : List Nat
  merged : List Nat := []
  findings : List Finding := []
deriving Repr

namespace Flow

/-- The flow after a path has brought the stack `s` to the block at `start`. -/
def join (s : Stack) (f : Flow) (start : Nat) : Flow :=
  match f.entries.lookup start with
  | none => { f with entries := (start, s) :: f.entries, queue := f.queue ++ [start] }
  | some first =>
    if first = s ∨ start ∈ f.merged then f
    else
      { f with
        merged := start :: f.merged
        findings := f.findings ++ [⟨some start, .disagreement first s⟩] }

/-- The flow after a block has been looked at. -/
def visit (b : Body) (k : Block) (f : Flow) : Flow :=
  match through b k.start (k.code b) ((f.entries.lookup k.start).getD []) with
  | .error finding => { f with findings := f.findings ++ [finding] }
  | .ok s => (k.successors b).foldl (join s) f

/-- The flow after at most `n` blocks of the queue have been looked at. -/
def drain (b : Body) (ks : List Block) : Nat → Flow → Flow
  | 0, f => f
  | n + 1, f =>
    match f.queue with
    | [] => f
    | start :: queue =>
      let f := { f with queue := queue }
      match ks.find? fun k => k.start == start with
      | none => drain b ks n f
      | some k => drain b ks n (visit b k f)

end Flow

/-- The findings of the second stage. A block enters the queue when it is reached first, so looking at as many blocks as
there are empties the queue. -/
def flowFindings (b : Body) : List Finding :=
  let ks := blocks b
  fallOffFindings b ++ (Flow.drain b ks ks.length { entries := [(0, [])], queue := [0] }).findings

end Graft.Typing

namespace Graft.Body

/-- What is wrong with a body. Stacks are looked at only if all operands fit. -/
def findings (b : Body) : List Typing.Finding :=
  if b.entries.isEmpty then [⟨none, .emptyBody⟩]
  else
    match Typing.operandFindings b with
    | [] => Typing.flowFindings b
    | fs => fs

/-- The reports on what is wrong with a body. -/
def violations (b : Body) : List Violation := b.findings.map Typing.Finding.violation

/-- Accepts a body with which nothing is wrong. -/
def verify (b : Body) : Except Error Unit :=
  if b.violations.isEmpty then .ok () else .error (.rejected b.method b.violations)

end Graft.Body
