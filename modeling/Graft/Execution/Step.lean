import Graft.Body.Basic
import Graft.Execution.Arithmetic

/-!
# One step of a run

A run sees a body through its cells: each instruction with what its label and its external row resolve to.

* `Cell.act` is what an instruction does that asks no source.
* `Cell.step` adds the `call` instruction, which asks one source once.
-/

namespace Graft.Execution

/-- An instruction, the position that its label names and the external value that it takes. -/
structure Cell where
  instr : Instruction
  target : Option Nat
  binding : Option Binding
deriving DecidableEq, Inhabited

/-- The state of a run: the position of the next instruction, the stack with its top first, the arguments and the
locals. -/
structure Frame where
  pos : Nat
  stack : List Value
  args : List Value
  locals : List Value
deriving DecidableEq, Inhabited

/-- The outcome of a step. -/
inductive Outcome where
  | running (frame : Frame)
  | returned (result : Option Value)
  | failed (error : Error)
deriving DecidableEq

namespace Frame

/-- The frame behind the current instruction, with another stack. -/
def goOn (f : Frame) (stack : List Value) : Outcome := .running { f with pos := f.pos + 1, stack := stack }

/-- The frame at the target of a branch, with another stack. -/
def jump (f : Frame) (c : Cell) (stack : List Value) : Outcome :=
  match c.target with
  | some pos => .running { f with pos := pos, stack := stack }
  | none => .failed (.unresolvedLabel c.instr.label? f.pos)

/-- The outcome for operands that the instruction cannot use. -/
def badOperands (f : Frame) (c : Cell) : Outcome := .failed (.badOperands c.instr.op f.pos)

/-- The outcome for a stack with too few values. -/
def underflow (f : Frame) : Outcome := .failed (.stackUnderflow f.pos)

/-- Replaces the two values at the top of the stack by the result of an operation on them. -/
def binary (f : Frame) (operation : Value → Value → Except Error Value) : Outcome :=
  match f.stack with
  | rhs :: lhs :: stack =>
    match operation lhs rhs with
    | .ok v => f.goOn (v :: stack)
    | .error e => .failed e
  | _ => f.underflow

/-- Puts the value of a slot on the stack. -/
def load (f : Frame) (c : Cell) (slots : List Value) : Outcome :=
  match c.instr.slot?.bind fun n => slots[n]? with
  | some v => f.goOn (v :: f.stack)
  | none => f.badOperands c

/-- The slots with the value of the instruction's slot replaced. -/
def stored? (c : Cell) (slots : List Value) (v : Value) : Option (List Value) :=
  match c.instr.slot? with
  | some n => if n < slots.length then some (slots.set n v) else none
  | none => none

end Frame

namespace Cell

/-- What an instruction other than `call` does to a frame. -/
def act (returns : Bool) (c : Cell) (f : Frame) : Outcome :=
  match c.instr.op with
  | .nop => f.goOn f.stack
  | .ldcI4 | .ldcI8 | .ldcBool =>
    match c.instr.immediate? with
    | some v => f.goOn (v :: f.stack)
    | none => f.badOperands c
  | .ldarg => f.load c f.args
  | .ldloc => f.load c f.locals
  | .starg =>
    match f.stack with
    | v :: stack =>
      match Frame.stored? c f.args v with
      | some args => { f with args := args }.goOn stack
      | none => f.badOperands c
    | [] => f.underflow
  | .stloc =>
    match f.stack with
    | v :: stack =>
      match Frame.stored? c f.locals v with
      | some locals => { f with locals := locals }.goOn stack
      | none => f.badOperands c
    | [] => f.underflow
  | .call => f.badOperands c
  | .add | .sub | .mul | .div | .rem => f.binary (arithmetic f.pos c.instr.op)
  | .and | .or => f.binary (logical f.pos c.instr.op)
  | .ceq => f.binary (equality f.pos)
  | .clt | .cgt => f.binary (ordering f.pos c.instr.op)
  | .not =>
    match f.stack with
    | v :: stack => f.goOn (complement v :: stack)
    | [] => f.underflow
  | .dup =>
    match f.stack with
    | v :: stack => f.goOn (v :: v :: stack)
    | [] => f.underflow
  | .pop =>
    match f.stack with
    | _ :: stack => f.goOn stack
    | [] => f.underflow
  | .br => f.jump c f.stack
  | .brtrue =>
    match f.stack with
    | v :: stack => if v.isTruthy then f.jump c stack else f.goOn stack
    | [] => f.underflow
  | .brfalse =>
    match f.stack with
    | v :: stack => if v.isTruthy then f.goOn stack else f.jump c stack
    | [] => f.underflow
  | .ret =>
    if returns then
      match f.stack with
      | v :: _ => .returned (some v)
      | [] => f.underflow
    else .returned none

/-- What an instruction does to a frame, where `read` asks a source for its value; the state of the sources is of any
type. -/
def step {σ : Type} (read : Source → σ → Value × σ) (returns : Bool) (c : Cell) (f : Frame) (s : σ) : Outcome × σ :=
  match c.instr.op, c.binding with
  | .call, some x =>
    let (v, s) := read x.source s
    if v.type = x.type then (f.goOn (v :: f.stack), s)
    else (.failed (.typeMismatch f.pos x.type.keyword v.type), s)
  | _, _ => (c.act returns f, s)

end Cell

end Graft.Execution
