import Graft.Error

/-!
# Operations on values

Arithmetic wraps around, division goes toward zero, and every operation on two values asks for values of one type.
-/

namespace Graft.Execution

/-- The error for two values that an operation does not take. -/
def mismatch (pos : Nat) (expected : String) (lhs rhs : Value) : Error :=
  .typeMismatch pos (expected ++ " (lhs " ++ lhs.type.keyword ++ ")") rhs.type

/-- A division of 32-bit words, unless the divisor is zero. -/
def guarded32 (pos : Nat) (f : Int32 → Int32 → Int32) (x y : Int32) : Except Error Value :=
  if y = 0 then .error (.divisionByZero pos) else .ok (.i32 (f x y))

/-- A division of 64-bit words, unless the divisor is zero. -/
def guarded64 (pos : Nat) (f : Int64 → Int64 → Int64) (x y : Int64) : Except Error Value :=
  if y = 0 then .error (.divisionByZero pos) else .ok (.i64 (f x y))

/-- The result of `add`, `sub`, `mul`, `div` or `rem` at position `pos`. -/
def arithmetic (pos : Nat) (op : Opcode) : (lhs rhs : Value) → Except Error Value
  | .i32 x, .i32 y =>
    match op with
    | .add => .ok (.i32 (x + y))
    | .sub => .ok (.i32 (x - y))
    | .mul => .ok (.i32 (x * y))
    | .div => guarded32 pos (· / ·) x y
    | _ => guarded32 pos (· % ·) x y
  | .i64 x, .i64 y =>
    match op with
    | .add => .ok (.i64 (x + y))
    | .sub => .ok (.i64 (x - y))
    | .mul => .ok (.i64 (x * y))
    | .div => guarded64 pos (· / ·) x y
    | _ => guarded64 pos (· % ·) x y
  | lhs, rhs => .error (mismatch pos "matching numeric operands" lhs rhs)

/-- The result of `and` or `or` at position `pos`: bit by bit on words. -/
def logical (pos : Nat) (op : Opcode) : (lhs rhs : Value) → Except Error Value
  | .i32 x, .i32 y => .ok (.i32 (if op = .and then x &&& y else x ||| y))
  | .i64 x, .i64 y => .ok (.i64 (if op = .and then x &&& y else x ||| y))
  | .bool x, .bool y => .ok (.bool (if op = .and then x && y else x || y))
  | lhs, rhs => .error (mismatch pos "operands of the same type" lhs rhs)

/-- The result of `not`: all bits of a word flipped. -/
def complement : Value → Value
  | .i32 x => .i32 (~~~x)
  | .i64 x => .i64 (~~~x)
  | .bool x => .bool (!x)

/-- The result of `ceq` at position `pos`. -/
def equality (pos : Nat) (lhs rhs : Value) : Except Error Value :=
  if lhs.type = rhs.type then .ok (.bool (lhs == rhs))
  else .error (mismatch pos "operands of the same type" lhs rhs)

/-- The result of `clt` or `cgt` at position `pos`. -/
def ordering (pos : Nat) (op : Opcode) : (lhs rhs : Value) → Except Error Value
  | .i32 x, .i32 y => .ok (.bool (if op = .clt then decide (x < y) else decide (y < x)))
  | .i64 x, .i64 y => .ok (.bool (if op = .clt then decide (x < y) else decide (y < x)))
  | lhs, rhs => .error (mismatch pos "matching numeric operands" lhs rhs)

end Graft.Execution
