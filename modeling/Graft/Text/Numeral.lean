/-!
# Numerals

Reading and writing whole numbers in a base.

* `ofDigits?` reads a nonempty run of digits, and `ofSigned?` reads one after at most one sign.
* `decimal` and `ofInt` write a number with the fewest decimal digits.
-/

namespace Graft.Text.Numeral

/-- The value of a digit in a base of at most sixteen; letters count in either case. -/
def digit? (base : Nat) (c : Char) : Option Nat :=
  let v :=
    if '0' ≤ c ∧ c ≤ '9' then c.toNat - 0x30
    else if 'a' ≤ c ∧ c ≤ 'f' then c.toNat - 0x61 + 10
    else if 'A' ≤ c ∧ c ≤ 'F' then c.toNat - 0x41 + 10
    else 16
  if v < base then some v else none

/-- The number that continues `n` by the digits `cs`. -/
def extend? (base : Nat) (n : Nat) : List Char → Option Nat
  | [] => some n
  | c :: cs => (digit? base c).bind fun d => extend? base (base * n + d) cs

/-- The number that a nonempty run of digits denotes. -/
def ofDigits? (base : Nat) : List Char → Option Nat
  | [] => none
  | c :: cs => extend? base 0 (c :: cs)

/-- The number that a run of digits denotes, with at most one plus sign in front. -/
def ofUnsigned? (base : Nat) : List Char → Option Nat
  | '+' :: cs => ofDigits? base cs
  | cs => ofDigits? base cs

/-- The number that a run of digits denotes, with at most one sign in front. -/
def ofSigned? (base : Nat) : List Char → Option Int
  | '-' :: cs => (ofDigits? base cs).map fun n => -(n : Int)
  | cs => (ofUnsigned? base cs).map Int.ofNat

/-- The character of a decimal or hexadecimal digit, letters in lower case. -/
def digitChar (d : Nat) : Char :=
  if d < 10 then Char.ofNat (0x30 + d) else Char.ofNat (0x61 + (d - 10))

/-- The decimal digits of a number, most significant first. -/
def decimal (n : Nat) : List Char :=
  if n < 10 then [digitChar n] else decimal (n / 10) ++ [digitChar (n % 10)]

/-- The decimal text of an integer, with a minus sign in front of a negative one. -/
def ofInt : Int → List Char
  | .ofNat n => decimal n
  | .negSucc n => '-' :: decimal (n + 1)

/-- The decimal text of a number. -/
def ofNat (n : Nat) : String :=
  String.ofList (decimal n)

end Graft.Text.Numeral
