import Graft.Json.Basic
import Graft.Text.Numeral

/-!
# Writing JSON

* `Json.compact` writes a tree without blank characters.
* `Json.pretty` writes each item and each field on a line of its own, two blanks deeper than what holds it.

Both escape only what has to be escaped in a string, and write nothing for a broken part.
-/

namespace Graft.Json

/-- The four digits of a code unit below 256, after `\u`. -/
private def unitDigits (n : Nat) : List Char :=
  ['0', '0', Text.Numeral.digitChar (n / 16), Text.Numeral.digitChar (n % 16)]

/-- A character as it stands in a string: the quote, the backslash and the control characters are escaped. -/
def escaped (c : Char) : List Char :=
  if c = '"' then ['\\', '"']
  else if c = '\\' then ['\\', '\\']
  else if c = '\n' then ['\\', 'n']
  else if c = '\r' then ['\\', 'r']
  else if c = '\t' then ['\\', 't']
  else if c.toNat = 0x8 then ['\\', 'b']
  else if c.toNat = 0xC then ['\\', 'f']
  else if c.toNat < 0x20 then '\\' :: 'u' :: unitDigits c.toNat
  else [c]

/-- A string with its quotes. -/
def quoted (s : String) : List Char :=
  '"' :: s.toList.flatMap escaped ++ ['"']

/-- The line break before something that stands `level` levels deep; there is none without levels. -/
def lineBreak : (level : Option Nat) → List Char
  | none => []
  | some n => '\n' :: List.replicate (2 * n) ' '

/-- What stands between the name of a field and its value. -/
def colon : (level : Option Nat) → List Char
  | none => [':']
  | some _ => [':', ' ']

mutual

/-- The text of a tree, on one line or laid out at a level. -/
def chars (level : Option Nat) : Json → List Char
  | broken => []
  | null => "null".toList
  | bool true => "true".toList
  | bool false => "false".toList
  | int n => Text.Numeral.ofInt n
  | real token => token.toList
  | str s => quoted s
  | arr [] => ['[', ']']
  | arr (j :: js) =>
    let inner := level.map (· + 1)
    '[' :: lineBreak inner ++ chars inner j ++ charsOfItems inner js ++ lineBreak level ++ [']']
  | obj [] => ['{', '}']
  | obj ((name, j) :: fs) =>
    let inner := level.map (· + 1)
    '{' :: lineBreak inner ++ quoted name ++ colon level ++ chars inner j ++ charsOfFields inner fs ++ lineBreak level ++
      ['}']

/-- The text of the items after the first, with the commas before them. -/
def charsOfItems (level : Option Nat) : List Json → List Char
  | [] => []
  | j :: js => ',' :: lineBreak level ++ chars level j ++ charsOfItems level js

/-- The text of the fields after the first, with the commas before them. -/
def charsOfFields (level : Option Nat) : List (String × Json) → List Char
  | [] => []
  | (name, j) :: fs =>
    ',' :: lineBreak level ++ quoted name ++ colon level ++ chars level j ++ charsOfFields level fs

end

/-- The text without blank characters. -/
def compact (j : Json) : String := String.ofList (j.chars none)

/-- The text with a line for each item and each field. -/
def pretty (j : Json) : String := String.ofList (j.chars (some 0))

end Graft.Json
