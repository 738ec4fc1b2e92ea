import Graft.Instruction

/-!
# Patterns

A pattern is a test of an instruction in the form in which patch plans hold it, with conjunctions and disjunctions of
any number of parts.
-/

namespace Graft

/-- A test of an instruction. -/
inductive Pattern where
  | any
  | opcode (op : Opcode)
  | ldcI4 (n : Int32)
  | constant (v : Value)
  | ldarg (slot : UInt16)
  | and (parts : List Pattern)
  | or (parts : List Pattern)
  | not (part : Pattern)
deriving Inhabited

namespace Pattern

mutual

/-- Whether an instruction passes the test. -/
def accepts (i : Instruction) : Pattern → Bool
  | any => true
  | opcode op => i.op == op
  | ldcI4 n => i.op == .ldcI4 && i.immediate? == some (.i32 n)
  | constant v => i.immediate? == some v
  | ldarg n => i.op == .ldarg && i.slot? == some n.toNat
  | and ps => acceptsAll i ps
  | or ps => acceptsSome i ps
  | not p => !p.accepts i

/-- Whether an instruction passes all of the tests. -/
def acceptsAll (i : Instruction) : List Pattern → Bool
  | [] => true
  | p :: ps => p.accepts i && acceptsAll i ps

/-- Whether an instruction passes one of the tests. -/
def acceptsSome (i : Instruction) : List Pattern → Bool
  | [] => false
  | p :: ps => p.accepts i || acceptsSome i ps

end

end Pattern

end Graft
