import Graft.Form.Basic
import Graft.Instruction
import Graft.MethodId
import Graft.Violation

/-!
# Forms of instructions

The forms of values, types, opcodes, methods, operands, instructions and violations.
-/

namespace Graft

namespace ValueType

/-- The types in the order of their numbers. -/
def all : List ValueType := [i32, i64, bool]

/-- The type that a keyword names. -/
def ofKeyword? (s : String) : Option ValueType := all.find? fun t => t.keyword == s

/-- The type that a tree names: a keyword, or an object that holds null under it. In a pattern, the object may also hold
an empty object. -/
def ofJson? (inPattern : Bool) : Json → Option ValueType
  | .str s => ofKeyword? s
  | .obj [(s, .null)] => ofKeyword? s
  | .obj [(s, .obj [])] => if inPattern then ofKeyword? s else none
  | _ => none

/-- A type is written as its keyword. -/
def form : Form ValueType where
  write t := .str t.keyword
  read := ofJson? false

end ValueType

namespace Value

/-- The value of a type that a tree is. -/
def ofContent? : ValueType → Json → Option Value
  | .i32, .int n => if InHalfWord n then some (i32 (Int32.ofInt n)) else none
  | .i64, .int n => if InWord n then some (i64 (Int64.ofInt n)) else none
  | .bool, .bool b => some (bool b)
  | _, _ => none

/-- The value that a tree denotes: a record of its type and what it is. An array has the keyword of the type, or in a
pattern also the number of the type. -/
def ofJson? (inPattern : Bool) : Json → Option Value
  | .obj fields =>
    match Json.record? ["type", "value"] 2 (.obj fields) with
    | some [some type, some content] => (ValueType.ofJson? inPattern type).bind (ofContent? · content)
    | _ => none
  | .arr [type, content] => do
    let keyword ← type.nameOf? (ValueType.all.map ValueType.keyword) inPattern
    ofContent? (← ValueType.ofKeyword? keyword) content
  | _ => none

/-- A value is written as an object. -/
def form : Form Value where
  write v :=
    .obj [("type", ValueType.form.write v.type),
      ("value", match v with
        | i32 n => .int n.toInt
        | i64 n => .int n.toInt
        | bool b => .bool b)]
  read := ofJson? false

end Value

/-- An opcode is written as its mnemonic. -/
def Opcode.form : Form Opcode where
  write op := .str op.mnemonic
  read
    | .str s => ofText? s.toList
    | _ => none

/-- A method is written as `Type::name`. -/
def MethodId.form : Form MethodId where
  write id := .str id.text
  read
    | .str s => ofText? s.toList
    | _ => none

/-- A signature is a record, in which the locals and the result may be missing. -/
def Signature.form : Form Signature where
  write s :=
    .obj [("params", ValueType.form.list.write s.params), ("locals", ValueType.form.list.write s.locals),
      ("returns", ValueType.form.writeNullable s.returns)]
  read j :=
    match j.record? ["params", "locals", "returns"] 3 with
    | some [params, locals, returns] => do
      let params ← ValueType.form.list.required params
      let locals ← ValueType.form.list.optional [] locals
      let returns ← ValueType.form.nullable returns
      return { params, locals, returns }
    | _ => none

/-- The number of an instruction has 32 bits. -/
def InstrId.form : Form InstrId where
  write id := .int id.number
  read j := ((Form.natural 0 UInt32.size).read j).map InstrId.mk

/-- An operand is an object with one field, which is named for the kind of the operand. -/
def Operand.form : Form Operand where
  write
    | immediate v => .obj [("immediate", Value.form.write v)]
    | label t => .obj [("label", InstrId.form.write t)]
    | index n => .obj [("index", Form.uint16.write n)]
    | external n => .obj [("external", Form.uint16.write n)]
  read
    | .obj [("immediate", j)] => (Value.form.read j).map immediate
    | .obj [("label", j)] => (InstrId.form.read j).map label
    | .obj [("index", j)] => (Form.uint16.read j).map index
    | .obj [("external", j)] => (Form.uint16.read j).map external
    | _ => none

/-- An instruction is a record of its opcode and its operands. -/
def Instruction.form : Form Instruction where
  write i := .obj [("op", Opcode.form.write i.op), ("operands", Operand.form.list.write i.operands)]
  read j :=
    match j.record? ["op", "operands"] 2 with
    | some [op, operands] => do
      let op ← Opcode.form.required op
      let operands ← Operand.form.list.required operands
      return { op, operands }
    | _ => none

/-- A violation is a record, in which the position may be missing. -/
def Violation.form : Form Violation where
  write v :=
    .obj [("position", (Form.natural 0 UInt64.size).writeNullable v.position), ("message", .str v.message)]
  read j :=
    match j.record? ["position", "message"] 2 with
    | some [position, message] => do
      let position ← (Form.natural 0 UInt64.size).nullable position
      let message ← Form.string.required message
      return { position, message }
    | _ => none

end Graft
