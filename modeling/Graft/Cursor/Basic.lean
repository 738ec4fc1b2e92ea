import Graft.PatchError

/-!
# Cursors

A cursor stands on an instruction of a body or between two, and knows what the last removal has left behind.

* `seekFirst`, `seekTo?` and `moveBy?` move it.
* `findNext` and `findSequence` search for the next instruction, or run of instructions, that passes tests.
-/

namespace Graft

/-- Where a cursor stands. -/
inductive Place where
  /-- Before the first instruction. -/
  | start
  /-- On the instruction at this position. -/
  | on (pos : Nat)
  /-- Before the instruction at this position, where one was removed. -/
  | gap (pos : Nat)
  /-- Behind the last instruction, after a search without result. -/
  | exhausted
deriving DecidableEq, Repr, Inhabited

/-- What a removal leaves behind for the insertion that follows it: the effect of the removed instruction, the branches
that went to it, and the instruction that they go to for now. -/
structure Removal where
  effect : Option Effect
  branches : List InstrId
  target : InstrId
deriving DecidableEq, Repr

/-- A body with a place in it. -/
structure Cursor where
  body : Body
  place : Place := .start
  removal : Option Removal := none
deriving Inhabited

namespace Cursor

/-- The position of the instruction that the cursor is on. -/
def pos? (c : Cursor) : Option Nat :=
  match c.place with
  | .on pos => some pos
  | _ => none

/-- The instruction that the cursor is on. -/
def current? (c : Cursor) : Option Instruction := c.pos?.bind c.body.instr?

/-- The cursor on another place; a removal before the move is no longer to be filled. -/
def moveTo (c : Cursor) (p : Place) : Cursor := { c with place := p, removal := none }

/-- The cursor before the first instruction. -/
def seekFirst (c : Cursor) : Cursor := c.moveTo .start

/-- The cursor on the instruction at a position, if there is one. -/
def seekTo? (c : Cursor) (pos : Nat) : Option Cursor :=
  if pos < c.body.length then some (c.moveTo (.on pos)) else none

/-- The position that lies `delta` instructions from the cursor. From a gap, and from the start, one forward is the next
instruction; from a gap, one backward is the one before it. -/
def target? (c : Cursor) (delta : Int) : Option Int :=
  match c.place with
  | .on pos => some (pos + delta)
  | .gap pos => some (if 0 < delta then pos + delta - 1 else pos + delta)
  | .start => if 0 < delta then some (delta - 1) else none
  | .exhausted => none

/-- The cursor on the instruction `delta` away, if there is one. -/
def moveBy? (c : Cursor) (delta : Int) : Option Cursor :=
  (c.target? delta).bind fun pos => if pos < 0 then none else c.seekTo? pos.toNat

/-- The position at which a search starts; none after a search without result. -/
def scanStart? (c : Cursor) : Option Nat :=
  match c.place with
  | .start => some 0
  | .on pos => some (pos + 1)
  | .gap pos => some pos
  | .exhausted => none

/-- Whether the instructions at the head of a list pass the tests, one each. -/
def windowFits : List (Instruction → Bool) → List Instruction → Bool
  | [], _ => true
  | _ :: _, [] => false
  | p :: ps, i :: is => p i && windowFits ps is

/-- The first position, counted from `pos`, at which the instructions pass the tests, one each. -/
def windowFrom? (tests : List (Instruction → Bool)) : (pos : Nat) → List Instruction → Option Nat
  | _, [] => none
  | pos, i :: is => if windowFits tests (i :: is) then some pos else windowFrom? tests (pos + 1) is

/-- Moves to the next instructions that pass the tests, one each, and says whether there are any. Without tests the
cursor stays where it is, and so it does after a search without result. -/
def findSequence (c : Cursor) (tests : List (Instruction → Bool)) : Bool × Cursor :=
  if tests.isEmpty then (false, c)
  else
    match c.scanStart? with
    | none => (false, c)
    | some start =>
      match windowFrom? tests start (c.body.instrs.drop start) with
      | some pos => (true, c.moveTo (.on pos))
      | none => (false, c.moveTo .exhausted)

/-- The first position, counted from `pos`, at which the instruction passes the test. -/
def positionFrom? (test : Instruction → Bool) : (pos : Nat) → List Instruction → Option Nat
  | _, [] => none
  | pos, i :: is => if test i then some pos else positionFrom? test (pos + 1) is

/-- Moves to the next instruction that passes the test, and says whether there is one. After a search without result the
cursor stays where it is. -/
def findNext (c : Cursor) (test : Instruction → Bool) : Bool × Cursor :=
  match c.scanStart? with
  | none => (false, c)
  | some start =>
    match positionFrom? test start (c.body.instrs.drop start) with
    | some pos => (true, c.moveTo (.on pos))
    | none => (false, c.moveTo .exhausted)

end Cursor

end Graft
