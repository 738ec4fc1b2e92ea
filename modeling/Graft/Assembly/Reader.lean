import Graft.Body.Basic
import Graft.Names
import Graft.Text.Cut
import Graft.Text.Lines

/-!
# Reading assembly

A text is read in three steps, each with a type of its own.

* `Line.ofText` numbers the lines, cuts comments off and drops the lines that are then blank.
* `sections` groups the lines into methods: each begins with a line that starts with `.method`.
* `Draft` collects the labels and rows of one method, and `Draft.assemble` resolves the labels.

`bodies` puts the steps together.
-/

namespace Graft.Assembly

/-- A line that is not blank: its number from one, the line as it was written, and what is left of it without comment
and without blank characters around it. -/
structure Line where
  number : Nat
  raw : List Char
  code : List Char
deriving DecidableEq, Repr

namespace Line

/-- A line without its comment and without blank characters at the ends. A comment starts at `#` or at two slashes. -/
def uncommented (raw : List Char) : List Char :=
  Text.trim (Text.untilSlashes (raw.takeWhile (· != '#')))

/-- The lines of a text that hold more than a comment. -/
def ofText (src : List Char) : List Line :=
  ((Text.lines src).zipIdx.map fun (raw, n) => ⟨n + 1, raw, uncommented raw⟩).filter fun l => !l.code.isEmpty

/-- What follows `.method` on a line that opens a method. -/
def header? (l : Line) : Option (List Char) := Text.after? ".method".toList l.code

/-- The error that a fault on this line is reported as. -/
def error (l : Line) (fault : Fault) : Error := .badAssembly l.number fault (String.ofList l.raw)

end Line

/-- The lines of a method: what follows `.method` on its first line, that line, and the lines after it. -/
structure Section where
  header : List Char
  opening : Line
  rest : List Line
deriving DecidableEq, Repr

/-- The lines before the first method, and the methods. -/
def sections : List Line → List Line × List Section
  | [] => ([], [])
  | l :: ls =>
    let (before, secs) := sections ls
    match l.header? with
    | some h => ([], ⟨h, l, before⟩ :: secs)
    | none => (l :: before, secs)

/-- The types of a list in parentheses. Parts between commas that are blank do not count. -/
def readTypes (cs : List Char) : Except Fault (List ValueType) :=
  match (Text.after? ['('] (Text.trim cs)).bind (Text.before? ')') with
  | none => .error .unbracketedTypes
  | some inner =>
    (((Text.partsAt ',' inner).map Text.trim).filter fun w => !w.isEmpty).mapM fun w =>
      match ValueType.ofText? w with
      | some t => .ok t
      | none => .error (.unknownType (String.ofList w))

/-- The result type after the parameter list; nothing, and `-> void`, stand for no result. -/
def readReturns (cs : List Char) : Except Fault (Option ValueType) :=
  let rest := Text.trim cs
  if rest.isEmpty then .ok none
  else
    match Text.after? "->".toList rest with
    | none => .error (.unexpectedTail (String.ofList rest))
    | some r =>
      let word := Text.trim r
      if word = "void".toList then .ok none
      else
        match ValueType.ofText? word with
        | some t => .ok (some t)
        | none => .error (.unknownType (String.ofList word))

/-- The method and the signature, still without locals, that a header declares. The parameter list goes from the first
opening parenthesis to the last closing one. -/
def readHeader (cs : List Char) : Except Fault (MethodId × Signature) := do
  let h := Text.trim cs
  let name := h.takeWhile (· != '(')
  let list := h.dropWhile (· != '(')
  if list.isEmpty then throw .missingParams
  match Text.splitAtLastClose? list with
  | none => throw .openParams
  | some (open_, tail) =>
    let word := Text.trim name
    match MethodId.ofText? word with
    | none => throw (.badMethodId (String.ofList word))
    | some id =>
      let params ← readTypes (open_ ++ [')'])
      let returns ← readReturns tail
      return (id, ⟨params, [], returns⟩)

/-- A line with an instruction, its operand not yet read. -/
structure Row where
  op : Opcode
  operand : Option (List Char)
  line : Line
deriving DecidableEq, Repr

/-- A method in the making. A label stands for the number of rows before its line. -/
structure Draft where
  opening : Line
  method : MethodId
  signature : Signature
  labels : List (List Char × Nat) := []
  rows : List Row := []
deriving Repr

namespace Draft

/-- The draft with a row added at the end. -/
def addRow (d : Draft) (l : Line) : Except Error Draft :=
  match Text.words l.code with
  | [] => .ok d
  | word :: operands =>
    match Opcode.ofText? word with
    | none => .error (l.error (.unknownMnemonic (String.ofList word)))
    | some op =>
      match operands with
      | [] => .ok { d with rows := d.rows ++ [⟨op, none, l⟩] }
      | [o] => .ok { d with rows := d.rows ++ [⟨op, some o, l⟩] }
      | _ => .error (l.error .tooManyOperands)

/-- The draft with a label before the next row. -/
def addLabel (d : Draft) (l : Line) (text : List Char) : Except Error Draft :=
  match text with
  | '@' :: c :: cs =>
    if (d.labels.lookup (c :: cs)).isSome then .error (l.error .duplicateLabel)
    else .ok { d with labels := d.labels ++ [(c :: cs, d.rows.length)] }
  | _ => .error (l.error .badLabelLine)

/-- The draft with other types for its locals. -/
def setLocals (d : Draft) (l : Line) (list : List Char) : Except Error Draft :=
  if d.rows.isEmpty then
    match readTypes list with
    | .ok types => .ok { d with signature := { d.signature with locals := types } }
    | .error fault => .error (l.error fault)
  else .error (l.error .lateLocals)

/-- The draft with one more line taken into account. -/
def addLine (d : Draft) (l : Line) : Except Error Draft :=
  match Text.after? ".locals".toList l.code with
  | some list => d.setLocals l list
  | none =>
    match Text.before? ':' l.code with
    | some text => d.addLabel l text
    | none => d.addRow l

/-- The slot that a token denotes. -/
def slot? (token : List Char) : Option UInt16 :=
  ((Text.Numeral.ofUnsigned? 10 token).filter fun n => decide (n < UInt16.size)).map UInt16.ofNat

/-- The instruction of a row, given the labels of its method. The instruction at position `n` has the identity `n`. -/
def instruction (labels : List (List Char × Nat)) (r : Row) : Except Error Instruction :=
  match r.op.operandKind, r.operand with
  | .none, none => .ok ⟨r.op, []⟩
  | .none, some _ => .error (r.line.error (.unwantedOperand r.op))
  | _, none => .error (r.line.error (.missingOperand r.op))
  | .immediate t, some token =>
    match Value.ofText? t token with
    | some v => .ok ⟨r.op, [.immediate v]⟩
    | none => .error (r.line.error (.badImmediate (String.ofList token) t))
  | .index, some token =>
    match slot? token with
    | some n => .ok ⟨r.op, [.index n]⟩
    | none => .error (r.line.error (.badSlot (String.ofList token)))
  | .label, some ('@' :: name) =>
    match labels.lookup name with
    | some pos => .ok ⟨r.op, [.label ⟨pos⟩]⟩
    | none => .error (r.line.error (.undefinedLabel (String.ofList name)))
  | .label, some _ => .error (r.line.error .badTarget)
  | .external, some token => .error (.unboundExternal (String.ofList token))

/-- The body of a draft, with the identities 0, 1, 2, … in the order of the rows. -/
def assemble (d : Draft) : Except Error Body :=
  match d.labels.find? fun (_, pos) => d.rows.length ≤ pos with
  | some (name, _) => .error (.badAssembly d.opening.number (.trailingLabel (String.ofList name)) "")
  | none => do
    let instrs ← d.rows.mapM (instruction d.labels)
    return {
      method := d.method
      signature := d.signature
      entries := instrs.zipIdx.map fun (i, n) => ⟨⟨n⟩, i⟩
      nextId := instrs.length }

end Draft

/-- The body that the lines of a method describe. -/
def Section.body (s : Section) : Except Error Body :=
  match readHeader s.header with
  | .error fault => .error (s.opening.error fault)
  | .ok (id, sig) => do
    let d ← s.rest.foldlM Draft.addLine { opening := s.opening, method := id, signature := sig }
    d.assemble

/-- The bodies of all methods of a text. -/
def bodies (src : List Char) : Except Error (List Body) :=
  match Line.ofText src with
  | [] => .error (.badAssembly 0 .emptyText (String.ofList src))
  | l :: ls =>
    match sections (l :: ls) with
    | (stray :: _, _) => .error (stray.error .outsideMethod)
    | ([], secs) => secs.mapM Section.body

/-- The body of the only method of a text. -/
def body (src : List Char) : Except Error Body := do
  match ← bodies src with
  | [b] => return b
  | bs => throw (.badAssembly 0 (.notOneMethod bs.length) "")

end Graft.Assembly
