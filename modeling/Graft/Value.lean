import Graft.Text.Blank
import Graft.Text.Numeral

/-!
# Values and their types

The values that methods compute with: 32-bit and 64-bit integers, whose arithmetic wraps, and truth values.

* `ValueType.ofText?` reads a type keyword, and `ValueType.keyword` writes it.
* `Value.ofText?` reads a value of a given type, and `Value.text` writes it.
-/

namespace Graft

/-- The type of a value. -/
inductive ValueType where
  | i32
  | i64
  | bool
deriving DecidableEq, Repr, Inhabited

/-- A value of one of the three types. -/
inductive Value where
  | i32 (n : Int32)
  | i64 (n : Int64)
  | bool (b : Bool)
deriving DecidableEq, Inhabited

namespace ValueType

/-- Whether arithmetic and order comparisons apply to the type. -/
def isNumeric : ValueType → Bool
  | i32 => true
  | i64 => true
  | bool => false

/-- The word that stands for the type in every text. -/
def keyword : ValueType → String
  | i32 => "i32"
  | i64 => "i64"
  | bool => "bool"

instance : ToString ValueType := ⟨keyword⟩

/-- Zero, or `false`: the value of a local before the first store to it. -/
def default : ValueType → Value
  | i32 => .i32 0
  | i64 => .i64 0
  | bool => .bool false

/-- The type that a keyword names; blank characters around the keyword do not count. -/
def ofText? (cs : List Char) : Option ValueType :=
  [i32, i64, bool].find? fun t => t.keyword.toList == Text.trim cs

/-- The keywords of a list of types, separated by commas. -/
def joined (types : List ValueType) : String :=
  ", ".intercalate (types.map keyword)

end ValueType

/-- The integers that 64-bit words hold. -/
def InWord (n : Int) : Prop := -0x8000000000000000 ≤ n ∧ n < 0x8000000000000000

instance (n : Int) : Decidable (InWord n) :=
  inferInstanceAs (Decidable (_ ∧ _))

/-- The integers that 32-bit words hold. -/
def InHalfWord (n : Int) : Prop := -0x80000000 ≤ n ∧ n < 0x80000000

instance (n : Int) : Decidable (InHalfWord n) :=
  inferInstanceAs (Decidable (_ ∧ _))

namespace Value

/-- The type of a value. -/
def type : Value → ValueType
  | i32 _ => .i32
  | i64 _ => .i64
  | bool _ => .bool

/-- Whether a conditional branch takes the value as true: `false` and zero are not. -/
def isTruthy : Value → Bool
  | i32 n => n != 0
  | i64 n => n != 0
  | bool b => b

/-- The digits after an optional `0x`, or decimal digits, in both cases with an optional sign of their own; the
number must fit a 64-bit word. -/
def magnitude? : List Char → Option Int
  | '0' :: 'x' :: cs => (Text.Numeral.ofSigned? 16 cs).filter fun n => decide (InWord n)
  | '0' :: 'X' :: cs => (Text.Numeral.ofSigned? 16 cs).filter fun n => decide (InWord n)
  | cs => (Text.Numeral.ofSigned? 10 cs).filter fun n => decide (InWord n)

/-- The integer that a token denotes. A minus sign in front of everything negates what follows. -/
def integer? : List Char → Option Int
  | '-' :: cs => (magnitude? cs).map fun n => -n
  | cs => magnitude? cs

/-- The value of type `t` that a token denotes; blank characters around the token do not count. -/
def ofText? (t : ValueType) (token : List Char) : Option Value :=
  let cs := Text.trim token
  match t with
  | .i32 => ((integer? cs).filter fun n => decide (InHalfWord n)).map fun n => .i32 (Int32.ofInt n)
  | .i64 => (integer? cs).map fun n => .i64 (Int64.ofInt n)
  | .bool => if cs = "true".toList then some (.bool true) else if cs = "false".toList then some (.bool false) else none

/-- The characters of a value's text: decimal digits, or `true` and `false`. -/
def chars : Value → List Char
  | i32 n => Text.Numeral.ofInt n.toInt
  | i64 n => Text.Numeral.ofInt n.toInt
  | bool true => "true".toList
  | bool false => "false".toList

/-- The text of a value. -/
def text (v : Value) : String := String.ofList v.chars

instance : ToString Value := ⟨text⟩

end Value

end Graft
