import Graft.Body.Basic

/-!
# Listings

The text of a body: a header, the types of the locals if there are any, and a line for each instruction. An
instruction that some label names has a line with a label of its own in front, `@L` with its position.
-/

namespace Graft.Assembly

/-- The types of a list, in parentheses. -/
def typeList (types : List ValueType) : List Char :=
  '(' :: (ValueType.joined types).toList ++ [')']

/-- The line that opens the listing of a method. -/
def headerLine (id : MethodId) (s : Signature) : List Char :=
  ".method ".toList ++ id.text.toList ++ typeList s.params ++
    (match s.returns with
      | some t => " -> ".toList ++ t.keyword.toList
      | none => [])

/-- The line with the types of the locals, unless there are none. -/
def localsLines (s : Signature) : List (List Char) :=
  if s.locals.isEmpty then [] else [".locals ".toList ++ typeList s.locals]

/-- The label of the instruction at a position. -/
def labelAt (pos : Nat) : List Char := "@L".toList ++ Text.Numeral.decimal pos

/-- An operand as it stands on its instruction's line. -/
def operandText (b : Body) : Operand → List Char
  | .immediate v => v.chars
  | .index n => Text.Numeral.decimal n.toNat
  | .label t =>
    match b.positionOf? t with
    | some pos => labelAt pos
    | none => "@<dangling ".toList ++ t.text.toList ++ ['>']
  | .external n =>
    match b.externals[n.toNat]? with
    | some x => x.name.toList
    | none => "<unbound ext".toList ++ Text.Numeral.decimal n.toNat ++ ['>']

/-- The line of an instruction. -/
def instrLine (b : Body) (i : Instruction) : List Char :=
  "    ".toList ++ i.op.mnemonic.toList ++ i.operands.flatMap fun o => ' ' :: operandText b o

/-- The positions that labels name. -/
def targets (b : Body) : List Nat := b.instrs.filterMap b.target?

/-- The lines of the instruction at a position, where `marked` are the positions that labels name. -/
def entryLines (b : Body) (marked : List Nat) (pos : Nat) (i : Instruction) : List (List Char) :=
  if pos ∈ marked then [labelAt pos ++ [':'], instrLine b i] else [instrLine b i]

/-- The lines of the listing of a body. -/
def listingLines (b : Body) : List (List Char) :=
  let marked := targets b
  headerLine b.method b.signature :: localsLines b.signature ++
    b.instrs.zipIdx.flatMap fun (i, pos) => entryLines b marked pos i

/-- The listing of a body: its lines, each with a line feed. -/
def listing (b : Body) : List Char :=
  (listingLines b).flatMap fun l => l ++ ['\n']

end Graft.Assembly

namespace Graft

/-- The listing of a body, as a string. -/
def Body.listing (b : Body) : String := String.ofList (Assembly.listing b)

end Graft
