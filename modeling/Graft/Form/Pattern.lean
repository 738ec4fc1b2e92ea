import Graft.Form.Instruction
import Graft.Pattern

/-!
# The form of patterns

A pattern is an object that tells its kind under `kind`, or an array that begins with the kind. The parts of a pattern
are patterns in the same form, in which the kind may also be given by its number. Nothing in a pattern may be broken,
even where nobody looks.
-/

namespace Graft.Pattern

/-- An object with a kind and one field. -/
def tagged (kind name : String) (j : Json) : Json := .obj [("kind", .str kind), (name, j)]

mutual

/-- The tree of a pattern. -/
def toJson : Pattern → Json
  | any => .obj [("kind", .str "any")]
  | opcode op => tagged "opcode" "opcode" (Opcode.form.write op)
  | ldcI4 n => tagged "ldc_i4" "value" (.int n.toInt)
  | constant v => tagged "constant" "value" (Value.form.write v)
  | ldarg n => tagged "ldarg" "index" (Form.uint16.write n)
  | and ps => tagged "and" "rules" (.arr (toJsonAll ps))
  | or ps => tagged "or" "rules" (.arr (toJsonAll ps))
  | not p => tagged "not" "rule" (toJson p)

/-- The trees of patterns. -/
def toJsonAll : List Pattern → List Json
  | [] => []
  | p :: ps => toJson p :: toJsonAll ps

end

/-- The only field of a tree without its kind. -/
def field? (name : String) (j : Json) : Option Json :=
  match j.record? [name] 1 with
  | some [field] => field
  | _ => none

/-- A 32-bit number. -/
def halfWord? : Json → Option Int32
  | .int n => if InHalfWord n then some (Int32.ofInt n) else none
  | _ => none

/-- The kinds of patterns in the order of their numbers. -/
def kinds : List String := ["any", "opcode", "ldc_i4", "constant", "ldarg", "and", "or", "not"]

/-- The patterns of an array, where `part?` reads each. -/
def parts? (part? : Json → Option Pattern) : Json → Option (List Pattern)
  | .arr items => items.mapM part?
  | _ => none

/-- The pattern of a tree in which arrays and objects are nested at most `depth` deep. It may be part of another
pattern. -/
def ofJson? (isPart : Bool) : (depth : Nat) → Json → Option Pattern
  | 0, _ => none
  | depth + 1, j =>
    match j.tagged? "kind" with
    | none => none
    | some (kind, j) =>
      match kind.nameOf? kinds isPart with
      | some "any" => (j.record? [] 0).map fun _ => any
      | some "opcode" => ((field? "opcode" j).bind Opcode.form.read).map opcode
      | some "ldc_i4" => ((field? "value" j).bind halfWord?).map ldcI4
      | some "constant" => ((field? "value" j).bind (Value.ofJson? true)).map constant
      | some "ldarg" => ((field? "index" j).bind Form.uint16.read).map ldarg
      | some "and" => ((field? "rules" j).bind (parts? (ofJson? true depth))).map and
      | some "or" => ((field? "rules" j).bind (parts? (ofJson? true depth))).map or
      | some "not" => ((field? "rule" j).bind (ofJson? true depth)).map not
      | _ => none

/-- The form of patterns. -/
def form : Form Pattern where
  write := toJson
  read j := if j.isSound then ofJson? false j.depth j else none

end Graft.Pattern
