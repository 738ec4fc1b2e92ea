import Graft.Error
import Graft.Source

/-!
# Method bodies

A body is a sequence of instructions, each with an identity that edits never change or reuse, and a table of the
external values that its `call` instructions take.

* `push`, `insert` and `erase` edit the sequence, `retarget` and `retargetOnly` its labels.
* `bind` adds a row to the table of external values.
* `positionOf?` resolves a label, and `positions` lists all identities with their positions.
-/

namespace Graft

/-- An instruction with its identity. -/
structure Entry where
  id : InstrId
  instr : Instruction
deriving DecidableEq, Inhabited

/-- The body of a method. -/
structure Body where
  method : MethodId
  signature : Signature
  entries : List Entry := []
  externals : Array Binding := #[]
  /-- The number of the next instruction to be added; larger than that of every instruction so far. It has no bound here,
  and agrees with a counter of 32 bits as long as fewer than `2 ^ 32` instructions are added. -/
  nextId : Nat := 0
  /-- The revision of the live body that this one is a copy of, if it is one. It is given out by a table of methods, and
  has the bound that is said there (`MethodTable.revisions`). -/
  revision : Option Nat := none
deriving Inhabited

namespace Body

/-- The number of instructions. -/
def length (b : Body) : Nat := b.entries.length

/-- The instructions in their order. -/
def instrs (b : Body) : List Instruction := b.entries.map Entry.instr

/-- The instruction at a position. -/
def instr? (b : Body) (pos : Nat) : Option Instruction := (b.entries[pos]?).map Entry.instr

/-- The identity of the instruction at a position. -/
def id? (b : Body) (pos : Nat) : Option InstrId := (b.entries[pos]?).map Entry.id

/-- The position of the instruction with a given identity. -/
def positionOf? (b : Body) (id : InstrId) : Option Nat := b.entries.findIdx? fun e => e.id == id

/-- The identities of all instructions with their positions. -/
def positions (b : Body) : List (InstrId × Nat) := b.entries.zipIdx.map fun (e, pos) => (e.id, pos)

/-- The position that the label of an instruction names. -/
def target? (b : Body) (i : Instruction) : Option Nat := i.label?.bind b.positionOf?

/-- The row of the table of external values that an instruction names. -/
def binding? (b : Body) (i : Instruction) : Option Binding := i.external?.bind fun n => b.externals[n]?

/-- The identity of the next instruction to be added. -/
def freshId (b : Body) : InstrId := ⟨b.nextId⟩

/-- The body with an instruction added at the end, under `b.freshId`. -/
def push (b : Body) (i : Instruction) : Body :=
  { b with entries := b.entries ++ [⟨b.freshId, i⟩], nextId := b.nextId + 1 }

/-- The body with an instruction put before position `pos`, or at the end if that is the length, under `b.freshId`. -/
def insert (b : Body) (pos : Nat) (i : Instruction) : Except Error Body :=
  if pos ≤ b.length then
    .ok { b with entries := b.entries.insertIdx pos ⟨b.freshId, i⟩, nextId := b.nextId + 1 }
  else .error (.outOfBounds pos b.length)

/-- The entry at a position, and the body without it. Labels on it stay as they are. -/
def erase (b : Body) (pos : Nat) : Except Error (Entry × Body) :=
  match b.entries[pos]? with
  | some e => .ok (e, { b with entries := b.entries.eraseIdx pos })
  | none => .error (.outOfBounds pos b.length)

/-- The instructions whose label is on `target`. -/
def referrers (b : Body) (target : InstrId) : List InstrId :=
  (b.entries.filter fun e => e.instr.label? == some target).map Entry.id

/-- The instructions with a label on `target` among all their operands. -/
def labelledOn (b : Body) (target : InstrId) : List InstrId :=
  (b.entries.filter fun e => e.instr.hasLabelOn target).map Entry.id

/-- The body with all labels on `source` moved to `target`. -/
def retarget (b : Body) (source target : InstrId) : Body :=
  { b with entries := b.entries.map fun e => { e with instr := e.instr.retarget source target } }

/-- The body with the labels on `source` moved to `target` in the instructions `ids` only. -/
def retargetOnly (b : Body) (ids : List InstrId) (source target : InstrId) : Body :=
  { b with
    entries := b.entries.map fun e => if e.id ∈ ids then { e with instr := e.instr.retarget source target } else e }

/-- The number of rows that a table of external values can have, since 16 bits name a row. -/
def maxExternals : Nat := UInt16.size

/-- The row of a new external value, and the body with it; fails if the table is full. -/
@[inline]
def bind (b : Body) (x : Binding) : Except Error (UInt16 × Body) :=
  let n := b.externals.size
  if n < maxExternals then .ok (UInt16.ofNat n, { b with externals := b.externals.push x })
  else .error .tooManyExternals

end Body

end Graft
