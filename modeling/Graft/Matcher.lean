import Graft.Instruction

/-!
# Matchers

A matcher tests one instruction. Matchers are built from tests of one thing each and from the logical connectives.
-/

namespace Graft

/-- A test of an instruction. -/
inductive Matcher where
  | any
  | opcode (op : Opcode)
  /-- The first operand is this constant, whatever the opcode. -/
  | constant (v : Value)
  | ldarg (slot : UInt16)
  | branch
  | and (l r : Matcher)
  | or (l r : Matcher)
  | not (m : Matcher)
deriving DecidableEq, Inhabited

namespace Matcher

/-- The test for a 32-bit constant. -/
def ldcI4 (n : Int32) : Matcher := constant (.i32 n)

/-- The test for a 64-bit constant. -/
def ldcI8 (n : Int64) : Matcher := constant (.i64 n)

/-- Whether an instruction passes the test. -/
def accepts (i : Instruction) : Matcher → Bool
  | any => true
  | opcode op => i.op == op
  | constant v => i.immediate? == some v
  | ldarg n => i.op == .ldarg && i.slot? == some n.toNat
  | branch => i.op.isBranch
  | and l r => l.accepts i && r.accepts i
  | or l r => l.accepts i || r.accepts i
  | not m => !m.accepts i

end Matcher

end Graft
