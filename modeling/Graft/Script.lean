import Graft.Cursor.Edit
import Graft.Matcher
import Graft.Pattern
import Graft.Providers

/-!
# Edit scripts

A script is a list of cursor operations. It ends at the first one that fails.

* `EditStep.run` carries out one operation, and `Script.run` a script.
-/

namespace Graft

/-- A test of an instruction, in either of its forms. -/
inductive Probe where
  | pattern (p : Pattern)
  | matcher (m : Matcher)
deriving Inhabited

/-- Whether an instruction passes a test. -/
def Probe.accepts (i : Instruction) : Probe → Bool
  | pattern p => p.accepts i
  | matcher m => m.accepts i

/-- An operation on a cursor. -/
inductive EditStep where
  | seekFirst
  | seekTo (pos : Nat)
  | findNext (probe : Probe)
  | findSequence (probes : List Probe)
  | moveBy (delta : Int)
  | remove
  | insert (i : Instruction)
  | insertCall (supply : Supply)
  | replaceNth (probe : Probe) (n : Nat) (supply : Supply)
  | replaceCurrent (supply : Supply)
  | fail (reason : String)
deriving Inhabited

/-- What an operation on a cursor answers. -/
inductive StepResult where
  | done
  | flag (moved : Bool)
  | removed (i : Instruction)
  | inserted (id : InstrId)
  | called (row : UInt16)
  | injected (injection : Injection)
deriving DecidableEq, Inhabited

/-- A cursor and the sources that its operations may bind. -/
structure Desk where
  cursor : Cursor
  providers : Providers
deriving Inhabited

namespace EditStep

/-- Moves to where the cursor can go, and says whether it can. -/
def goTo (d : Desk) : Option Cursor → StepResult × Desk
  | some c => (.flag true, { d with cursor := c })
  | none => (.flag false, d)

/-- Carries out an operation that takes a source. -/
def supplied (d : Desk) (s : Supply) (f : Cursor → Binding → Except PatchError StepResult × Cursor) :
    Except PatchError StepResult × Desk :=
  match d.providers.supply s with
  | (.error e, p) => (.error e, { d with providers := p })
  | (.ok x, p) =>
    let (r, c) := f d.cursor x
    (r, ⟨c, p⟩)

/-- Carries out an operation. An operation that fails may have changed the body. -/
def run (d : Desk) : EditStep → Except PatchError StepResult × Desk
  | seekFirst => (.ok .done, { d with cursor := d.cursor.seekFirst })
  | seekTo pos =>
    let (r, d) := goTo d (d.cursor.seekTo? pos)
    (.ok r, d)
  | findNext probe =>
    let (found, c) := d.cursor.findNext (fun i => probe.accepts i)
    (.ok (.flag found), { d with cursor := c })
  | findSequence probes =>
    let (found, c) := d.cursor.findSequence (probes.map fun p i => p.accepts i)
    (.ok (.flag found), { d with cursor := c })
  | moveBy delta =>
    let (r, d) := goTo d (d.cursor.moveBy? delta)
    (.ok r, d)
  | remove =>
    match d.cursor.remove with
    | .ok (i, c) => (.ok (.removed i), { d with cursor := c })
    | .error e => (.error e, d)
  | insert i =>
    match d.cursor.insert i with
    | .ok (id, c) => (.ok (.inserted id), { d with cursor := c })
    | .error e => (.error e, d)
  | insertCall s =>
    supplied d s fun c x =>
      match c.insertCall x with
      | .ok (row, c) => (.ok (.called row), c)
      | .error e => (.error e, c)
  | replaceNth probe n s =>
    supplied d s fun c x =>
      let (r, c) := c.replaceNth (fun i => probe.accepts i) n x
      (r.map .injected, c)
  | replaceCurrent s =>
    supplied d s fun c x =>
      let (r, c) := c.replaceCurrent x
      (r.map .injected, c)
  | fail reason => (.error (.plan (.stated reason)), d)

end EditStep

/-- An operation of a script. If it is required, an answer of `false` counts as a failure. -/
structure ScriptStep where
  step : EditStep
  required : Bool := false
deriving Inhabited

/-- A list of operations on a cursor. -/
abbrev Script := List ScriptStep

/-- Carries out a script up to the first failure. -/
def Script.run : Desk → Script → Except PatchError Unit × Desk
  | d, [] => (.ok (), d)
  | d, s :: ss =>
    match s.step.run d with
    | (.error e, d) => (.error e, d)
    | (.ok r, d) =>
      if s.required && r == .flag false then (.error (.plan (.stated "required step failed")), d)
      else Script.run d ss

end Graft
