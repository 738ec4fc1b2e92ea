import Graft.Value

/-!
# Opcodes

The operations of the instruction set, with the mnemonic, the byte and the kind of operand of each.

* `Opcode.all` lists the opcodes in the order of their bytes.
* `Opcode.ofText?` reads a mnemonic in any letter case, and `Opcode.ofByte?` a byte.
-/

namespace Graft

/-- The operation that an instruction performs. -/
inductive Opcode where
  | nop
  | ldcI4
  | ldcI8
  | ldcBool
  | ldarg
  | starg
  | ldloc
  | stloc
  | call
  | add
  | sub
  | mul
  | div
  | rem
  | ceq
  | clt
  | cgt
  | and
  | or
  | not
  | dup
  | pop
  | br
  | brtrue
  | brfalse
  | ret
deriving DecidableEq, Repr, Inhabited

/-- The operand that an opcode takes. -/
inductive OperandKind where
  | none
  | immediate (type : ValueType)
  | label
  | index
  | external
deriving DecidableEq, Repr

namespace Opcode

/-- All opcodes; the place of an opcode in the list is its byte. -/
def all : List Opcode :=
  [nop, ldcI4, ldcI8, ldcBool, ldarg, starg, ldloc, stloc, call, add, sub, mul, div, rem, ceq, clt, cgt, and, or, not,
    dup, pop, br, brtrue, brfalse, ret]

/-- The name of the opcode in a listing. -/
def mnemonic : Opcode → String
  | nop => "nop"
  | ldcI4 => "ldc.i4"
  | ldcI8 => "ldc.i8"
  | ldcBool => "ldc.bool"
  | ldarg => "ldarg"
  | starg => "starg"
  | ldloc => "ldloc"
  | stloc => "stloc"
  | call => "call"
  | add => "add"
  | sub => "sub"
  | mul => "mul"
  | div => "div"
  | rem => "rem"
  | ceq => "ceq"
  | clt => "clt"
  | cgt => "cgt"
  | and => "and"
  | or => "or"
  | not => "not"
  | dup => "dup"
  | pop => "pop"
  | br => "br"
  | brtrue => "brtrue"
  | brfalse => "brfalse"
  | ret => "ret"

instance : ToString Opcode := ⟨mnemonic⟩

/-- The byte of the opcode: its place in `Opcode.all`. -/
def byte (op : Opcode) : UInt8 := UInt8.ofNat (all.idxOf op)

/-- The opcode with a given byte. -/
def ofByte? (b : UInt8) : Option Opcode := all[b.toNat]?

/-- The opcode with a given mnemonic; letter case and blank characters around it do not count. -/
def ofText? (cs : List Char) : Option Opcode :=
  let lowered := (Text.trim cs).map Char.toLower
  all.find? fun op => op.mnemonic.toList == lowered

/-- The operand that the opcode takes. -/
def operandKind : Opcode → OperandKind
  | ldcI4 => .immediate .i32
  | ldcI8 => .immediate .i64
  | ldcBool => .immediate .bool
  | ldarg => .index
  | starg => .index
  | ldloc => .index
  | stloc => .index
  | call => .external
  | br => .label
  | brtrue => .label
  | brfalse => .label
  | _ => .none

/-- Whether the opcode may transfer control to a label. -/
def isBranch : Opcode → Bool
  | br => true
  | brtrue => true
  | brfalse => true
  | _ => false

/-- Whether control never goes on to the next instruction. -/
def isTerminal : Opcode → Bool
  | br => true
  | ret => true
  | _ => false

/-- Whether the instruction is the last one of its block. -/
def endsBlock (op : Opcode) : Bool := op.isBranch || op.isTerminal

end Opcode

end Graft
