import Graft.Json.Number

/-!
# Reading JSON

The reader is strict: no comments, no commas too many, no signs or zeros too many, no control characters in strings, and
nothing behind the value but blank characters. A text that keeps to this has a tree, in which some parts may be broken.

* `Json.read? limit` reads a text. Arrays and objects that are enclosed by `limit` others are broken.
* A string is broken if an escaped surrogate in it is not half of a pair, and an object if a name in it is.
-/

namespace Graft.Json

/-- The four characters that may stand between the parts of a text. -/
def isSpace (c : Char) : Bool := c == ' ' || c == '\t' || c == '\n' || c == '\r'

/-- The text from its first part on. -/
def skip (cs : List Char) : List Char := cs.dropWhile isSpace

/-- What a character stands for after a backslash. -/
def unescape? (c : Char) : Option Nat :=
  match c with
  | '"' => some 0x22
  | '\\' => some 0x5C
  | '/' => some 0x2F
  | 'b' => some 0x8
  | 'f' => some 0xC
  | 'n' => some 0xA
  | 'r' => some 0xD
  | 't' => some 0x9
  | _ => none

/-- The characters up to the closing quote as numbers, added to the reversed list `acc`, and what follows the quote.
An escape with four digits gives the number that they denote. -/
def units (acc : List Nat) : List Char → Option (List Nat × List Char)
  | [] => none
  | '"' :: cs => some (acc.reverse, cs)
  | '\\' :: 'u' :: a :: b :: c :: d :: cs =>
    match Text.Numeral.ofDigits? 16 [a, b, c, d] with
    | some n => units (n :: acc) cs
    | none => none
  | '\\' :: e :: cs =>
    match unescape? e with
    | some n => units (n :: acc) cs
    | none => none
  | c :: cs => if c.toNat < 0x20 || c == '\\' then none else units (c.toNat :: acc) cs

/-- Whether a number is the first half of a surrogate pair. -/
def isHigh (n : Nat) : Bool := 0xD800 ≤ n && n < 0xDC00

/-- Whether a number is the second half of a surrogate pair. -/
def isLow (n : Nat) : Bool := 0xDC00 ≤ n && n < 0xE000

/-- The characters that numbers stand for; there are none if a surrogate is alone. -/
def ofUnits? : List Nat → Option (List Char)
  | [] => some []
  | [n] => if isHigh n || isLow n then none else some [Char.ofNat n]
  | n :: m :: ns =>
    if isHigh n then
      if isLow m then
        (ofUnits? ns).map fun cs => Char.ofNat (0x10000 + (n - 0xD800) * 0x400 + (m - 0xDC00)) :: cs
      else none
    else if isLow n then none
    else (ofUnits? (m :: ns)).map fun cs => Char.ofNat n :: cs

/-- The string whose opening quote stands before the text, and what follows its closing quote. There is no string if the
characters denote none. -/
def string? (cs : List Char) : Option (Option String × List Char) :=
  (units [] cs).map fun (ns, rest) => ((ofUnits? ns).map String.ofList, rest)

/-- A string, if there is one. -/
def ofString? : Option String → Json
  | some s => str s
  | none => broken

/-- An array, if arrays may be nested `limit` deep where it stands. -/
def ofItems (limit : Nat) (items : List Json) : Json :=
  if limit = 0 then broken else arr items

/-- An object, if objects may be nested `limit` deep where it stands and if all fields have names. -/
def ofFields (limit : Nat) (fields : List (Option String × Json)) : Json :=
  if limit = 0 then broken
  else
    match fields.mapM fun (name, j) => name.map fun name => (name, j) with
    | some fields => obj fields
    | none => broken

mutual

/-- The value at the beginning of a text and what follows it. Arrays and objects may be nested `limit` deep. Each call
inside another takes one unit of `fuel`; a value never needs more of them than it has characters. -/
def value? : (fuel limit : Nat) → List Char → Option (Json × List Char)
  | 0, _, _ => none
  | fuel + 1, limit, cs =>
    match cs with
    | 'n' :: 'u' :: 'l' :: 'l' :: rest => some (null, rest)
    | 't' :: 'r' :: 'u' :: 'e' :: rest => some (bool true, rest)
    | 'f' :: 'a' :: 'l' :: 's' :: 'e' :: rest => some (bool false, rest)
    | '"' :: rest => (string? rest).map fun (s, rest) => (ofString? s, rest)
    | '[' :: rest =>
      match skip rest with
      | ']' :: rest => some (ofItems limit [], rest)
      | rest => (items? fuel (limit - 1) rest).map fun (js, rest) => (ofItems limit js, rest)
    | '{' :: rest =>
      match skip rest with
      | '}' :: rest => some (ofFields limit [], rest)
      | rest => (fields? fuel (limit - 1) rest).map fun (fs, rest) => (ofFields limit fs, rest)
    | cs => (number? (cs.takeWhile isNumeric)).map fun j => (j, cs.dropWhile isNumeric)

/-- The items up to the closing bracket, at least one, and what follows the bracket. -/
def items? : (fuel limit : Nat) → List Char → Option (List Json × List Char)
  | 0, _, _ => none
  | fuel + 1, limit, cs =>
    match value? fuel limit cs with
    | none => none
    | some (j, rest) =>
      match skip rest with
      | ']' :: rest => some ([j], rest)
      | ',' :: rest => (items? fuel limit (skip rest)).map fun (js, rest) => (j :: js, rest)
      | _ => none

/-- The fields up to the closing brace, at least one, and what follows the brace. -/
def fields? : (fuel limit : Nat) → List Char → Option (List (Option String × Json) × List Char)
  | 0, _, _ => none
  | fuel + 1, limit, cs =>
    match cs with
    | '"' :: rest =>
      match string? rest with
      | none => none
      | some (name, rest) =>
        match skip rest with
        | ':' :: rest =>
          match value? fuel limit (skip rest) with
          | none => none
          | some (j, rest) =>
            match skip rest with
            | '}' :: rest => some ([(name, j)], rest)
            | ',' :: rest => (fields? fuel limit (skip rest)).map fun (fs, rest) => ((name, j) :: fs, rest)
            | _ => none
        | _ => none
    | _ => none

end

/-- The tree of a text. -/
def read? (limit : Nat) (s : String) : Option Json :=
  let cs := skip s.toList
  match value? (cs.length + 1) limit cs with
  | some (j, rest) => if (skip rest).isEmpty then some j else none
  | none => none

end Graft.Json
