import Graft.Json.Basic
import Graft.Text.Numeral

/-!
# Reading numbers

A number is a whole part without zeros in front, a fraction and an exponent, both of which may be missing.

* `Json.number?` gives the number that a text denotes. It is broken if it is too large for a double.
* `Json.Decimal.isTooLarge` tells that from the digits, as far as they fit into 64 bits, and the exponent: both the
  digits and the power of ten are rounded to doubles, and so is their product.
-/

namespace Graft.Json

/-- The size of a number: `significand * 10 ^ exponent`. The significand has 64 bits. -/
structure Decimal where
  significand : Nat := 0
  exponent : Int := 0
deriving DecidableEq, Repr

namespace Decimal

/-- The significand with one more digit, if there is room for it. -/
def append? (x : Decimal) (c : Char) : Option Nat :=
  (Text.Numeral.digit? 10 c).bind fun d =>
    let n := 10 * x.significand + d
    if n < UInt64.size then some n else none

/-- The number continued by digits before the point. From the first on for which there is no room, they are taken for
zeros. -/
def whole (x : Decimal) : List Char → Decimal
  | [] => x
  | c :: cs =>
    match x.append? c with
    | some n => whole { x with significand := n } cs
    | none => { x with exponent := x.exponent + (cs.length + 1) }

/-- The number continued by digits behind the point. From the first on for which there is no room, they do not count. -/
def fraction (x : Decimal) : List Char → Decimal
  | [] => x
  | c :: cs =>
    match x.append? c with
    | some n => fraction ⟨n, x.exponent - 1⟩ cs
    | none => x

/-- The nearest number with at most 53 binary digits; of two that are equally near, the one that ends with zero. -/
def toDouble (n : Nat) : Nat :=
  let unit := 1 <<< (n.log2 - 52)
  let q := n / unit
  let r := n % unit
  if 2 * r < unit ∨ 2 * r = unit ∧ q % 2 = 0 then q * unit else (q + 1) * unit

/-- The middle between the largest double and the next power of two. From here on, numbers are rounded to infinity. -/
def doubleBound : Nat := (1 <<< 1024) - (1 <<< 970)

/-- Whether a number is too large for a double. -/
def isTooLarge (x : Decimal) : Bool :=
  x.significand != 0 && 0 ≤ x.exponent &&
    (308 < x.exponent || doubleBound ≤ toDouble x.significand * toDouble (Nat.pow 10 x.exponent.toNat))

end Decimal

/-- The characters of which numbers consist. -/
def isNumeric (c : Char) : Bool :=
  ('0' ≤ c && c ≤ '9') || c == '-' || c == '+' || c == '.' || c == 'e' || c == 'E'

/-- Whether digits denote a number without zeros in front. -/
def isWhole : List Char → Bool
  | ['0'] => true
  | '0' :: _ => false
  | cs => !cs.isEmpty && cs.all Char.isDigit

/-- The exponent that a text is; an empty one is zero. -/
def exponent? : List Char → Option Int
  | [] => some 0
  | e :: cs => if e == 'e' || e == 'E' then Text.Numeral.ofSigned? 10 cs else none

/-- The digits of the fraction and the exponent that a text consists of, each of which may be missing. -/
def tail? : List Char → Option (List Char × Int)
  | '.' :: cs =>
    let digits := cs.takeWhile Char.isDigit
    if digits.isEmpty then none else (exponent? (cs.dropWhile Char.isDigit)).map fun e => (digits, e)
  | cs => (exponent? cs).map fun e => ([], e)

/-- The number that a text without sign denotes. -/
def magnitude? (negative : Bool) (cs : List Char) : Option Json :=
  let whole := cs.takeWhile Char.isDigit
  let tail := cs.dropWhile Char.isDigit
  if !isWhole whole then none
  else
    match tail? tail with
    | none => none
    | some (fraction, exponent) =>
      let digits := (({} : Decimal).whole whole).fraction fraction
      if { digits with exponent := digits.exponent + exponent }.isTooLarge then some broken
      else if tail.isEmpty && !(negative && whole == ['0']) then
        (Text.Numeral.ofDigits? 10 whole).map fun n => int (if negative then -(n : Int) else n)
      else some (real (String.ofList (if negative then '-' :: cs else cs)))

/-- The number that a text denotes. -/
def number? : List Char → Option Json
  | '-' :: cs => magnitude? true cs
  | cs => magnitude? false cs

end Graft.Json
