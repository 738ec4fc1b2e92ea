import Graft.Body.Basic
import Graft.Sha3
import Graft.Text.Hex

/-!
# Canonical bytes of a body

Every field has a fixed width or a length in front of it, so the fields can be told apart. A label is written as the
position it names; identities and the revision are not written.

* `Body.encode` gives the bytes, or the first thing that does not fit.
* `Body.digest` is their SHA3-256 digest.
-/

namespace Graft

namespace Encoding

/-- The `width` low bytes of a number, the least significant first. -/
def littleEndian : (width n : Nat) → List UInt8
  | 0, _ => []
  | w + 1, n => UInt8.ofNat n :: littleEndian w (n / 256)

/-- How many numbers `width` bytes can hold. -/
def capacity : (width : Nat) → Nat
  | 0 => 1
  | w + 1 => 256 * capacity w

/-- A number in a field of `width` bytes, which has a name for the case that it does not fit. -/
def field (name : String) (width n : Nat) : Except Error (List UInt8) :=
  if n < capacity width then .ok (littleEndian width n) else .error (.tooLarge name n)

/-- The bytes that open every encoding. -/
def magic : List UInt8 := [0x49, 0x4C, 0x57, 0x31]

/-- The byte that stands for a type. -/
def typeTag : ValueType → UInt8
  | .i32 => 1
  | .i64 => 2
  | .bool => 3

/-- The byte that stands for a result type, or for none. -/
def returnTag : Option ValueType → UInt8
  | some t => typeTag t
  | none => 0xFF

/-- A text in UTF-8, with the number of its bytes in front. -/
def text (s : String) : Except Error (List UInt8) := do
  let bytes := s.toUTF8.data.toList
  return (← field "string" 2 bytes.length) ++ bytes

/-- A list of types, with its length in front. -/
def types (ts : List ValueType) : Except Error (List UInt8) := do
  return (← field "type list" 1 ts.length) ++ ts.map typeTag

/-- A row of the table of external values. -/
def binding (x : Binding) : Except Error (List UInt8) := do
  return (← text x.name) ++ [typeTag x.type]

/-- A constant, with the tag of its type in front. -/
def constant : Value → List UInt8
  | .i32 n => typeTag .i32 :: littleEndian 4 n.toUInt32.toNat
  | .i64 n => typeTag .i64 :: littleEndian 8 n.toUInt64.toNat
  | .bool b => [typeTag .bool, if b then 1 else 0]

/-- An operand of the instruction at a position. -/
def operand (b : Body) (pos : Nat) : Operand → Except Error (List UInt8)
  | .immediate v => .ok (constant v)
  | .label t =>
    match b.positionOf? t with
    | some target => return 0x10 :: (← field "branch target" 4 target)
    | none => .error (.unresolvedLabel (some t) pos)
  | .index n => .ok (0x11 :: littleEndian 2 n.toNat)
  | .external n => .ok (0x12 :: littleEndian 2 n.toNat)

/-- The parts of a list, each encoded, one after the other. -/
def concat {α : Type} (f : α → Except Error (List UInt8)) : List α → Except Error (List UInt8)
  | [] => .ok []
  | a :: as => do
    let bytes ← f a
    return bytes ++ (← concat f as)

/-- The instruction at a position: its opcode, the number of its operands, and the operands. -/
def instruction (b : Body) (pos : Nat) (i : Instruction) : Except Error (List UInt8) := do
  unless i.operands.length < 256 do throw (.badOperands i.op pos)
  return i.op.byte :: UInt8.ofNat i.operands.length :: (← concat (operand b pos) i.operands)

end Encoding

namespace Body

open Encoding in
/-- The canonical bytes of a body. -/
def encode (b : Body) : Except Error (List UInt8) := do
  let declaringType ← text b.method.declaringType
  let name ← text b.method.name
  let params ← types b.signature.params
  let locals ← types b.signature.locals
  let externalCount ← field "external table" 2 b.externals.size
  let externals ← concat binding b.externals.toList
  let count ← field "instruction count" 4 b.length
  let code ← concat (fun (i, pos) => instruction b pos i) b.instrs.zipIdx
  return magic ++ declaringType ++ name ++ params ++ locals ++ [returnTag b.signature.returns] ++ externalCount ++
    externals ++ count ++ code

/-- The SHA3-256 digest of the canonical bytes. -/
def digest (b : Body) : Except Error (List UInt8) := b.encode.map Sha3.digest

/-- The digest in hexadecimal, with `0x` in front. -/
def digestText (b : Body) : Except Error String := b.digest.map fun bytes => "0x" ++ Text.hex bytes

end Body

end Graft
