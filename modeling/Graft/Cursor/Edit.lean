import Graft.Cursor.Basic

/-!
# Editing at a cursor

Branches follow an instruction that is replaced.

* `remove` takes the current instruction out, and branches to it go on to the next one.
* `insert` puts an instruction in; right after a removal, the branches to the removed instruction go to the new one.
* `insertCall` puts in a call of an external value that has the effect of the removed instruction.
* `replaceCurrent` is `remove` and `insertCall`, and `replaceNth` searches first.
-/

namespace Graft

/-- What was replaced, and by what. -/
structure Injection where
  /-- The position of the new call. -/
  position : Nat
  removed : Instruction
  /-- The row of the external value. -/
  row : UInt16
  name : String
  type : ValueType
deriving DecidableEq, Inhabited

namespace Cursor

/-- Removes the current instruction. Its branches go to the instruction behind it; if there is none, they are left on
the removed one. -/
def remove (c : Cursor) : Except PatchError (Instruction × Cursor) :=
  match c.place with
  | .on pos =>
    match c.body.erase pos with
    | .error e => .error (.body e)
    | .ok (removed, rest) =>
      let effect := c.body.effect? removed.instr
      match rest.id? pos with
      | some successor =>
        .ok (removed.instr,
          { body := rest.retarget removed.id successor
            place := .gap pos
            removal := some ⟨effect, rest.labelledOn removed.id, successor⟩ })
      | none =>
        .ok (removed.instr,
          { body := rest, place := .gap pos, removal := some ⟨effect, rest.referrers removed.id, removed.id⟩ })
  | _ => .error .noCurrentInstruction

/-- The position at which an instruction is put in. -/
def insertionPoint (c : Cursor) : Nat :=
  match c.place with
  | .start => 0
  | .on pos => pos
  | .gap pos => pos
  | .exhausted => c.body.length

/-- Puts an instruction in front of the current one, into the gap, or at the end that the cursor is at, and moves onto
it. -/
def insert (c : Cursor) (i : Instruction) : Except PatchError (InstrId × Cursor) :=
  let pos := c.insertionPoint
  let id := c.body.freshId
  match c.body.insert pos i with
  | .error e => .error (.body e)
  | .ok b =>
    let b := match c.removal with
      | some r => b.retargetOnly r.branches r.target id
      | none => b
    .ok (id, { body := b, place := .on pos })

/-- Whether a value of type `t` can stand in for an instruction with a given effect. -/
def standsIn (effect : Option Effect) (t : ValueType) : Bool := effect == some ⟨0, 1, some t⟩

/-- Puts in a call of an external value. Right after a removal the call must have the effect of what was removed. -/
def insertCall (c : Cursor) (x : Binding) : Except PatchError (UInt16 × Cursor) :=
  match c.removal with
  | some r => if standsIn r.effect x.type then bound else .error (.effectMismatch r.effect x.type)
  | none => bound
where
  /-- The call, with the external value added to the table. -/
  bound : Except PatchError (UInt16 × Cursor) :=
    match c.body.bind x with
    | .error e => .error (.body e)
    | .ok (row, b) =>
      match { c with body := b }.insert ⟨.call, [.external row]⟩ with
      | .error e => .error e
      | .ok (_, c) => .ok (row, c)

/-- Replaces the current instruction by a call. If the call cannot stand in for it, the instruction is gone all the
same. -/
def replaceCurrent (c : Cursor) (x : Binding) : Except PatchError Injection × Cursor :=
  match c.remove with
  | .error e => (.error e, c)
  | .ok (removed, c) =>
    match c.insertCall x with
    | .error e => (.error e, c)
    | .ok (row, c) => (.ok ⟨c.pos?.getD 0, removed, row, x.name, x.type⟩, c)

/-- The cursor after up to `n` searches, the last of which is the first without result. -/
def findNth (c : Cursor) (test : Instruction → Bool) : (n : Nat) → Cursor
  | 0 => c
  | n + 1 =>
    match c.findNext test with
    | (true, c) => c.findNth test n
    | (false, c) => c

/-- Replaces the instruction that the `n`-th search finds by a call. -/
def replaceNth (c : Cursor) (test : Instruction → Bool) (n : Nat) (x : Binding) : Except PatchError Injection × Cursor :=
  (c.findNth test n).replaceCurrent x

end Cursor

end Graft
