import Graft.Proofs.Value
import Mathlib.Data.Nat.Digits.Defs
import Mathlib.Tactic.Ring

/-!
# Integer literals

Which texts are read as integers, and as which (`Value.literals_read`). A literal is a sign, the mark of hexadecimal
digits, and digits; the sign and the mark may be missing. The reader takes a minus sign and the mark away by itself and
leaves the rest to a reader of numerals that takes a sign as well. So it accepts a second sign, behind the first one or
behind the mark, and these are the only texts that it should not accept.

* `Literal` is such a text in its parts, with room for the second sign, and `Literal.Proper` is one without it.
* `Text.Numeral.ofDigits?_eq_some_iff` says which number digits denote, and `Value.integer?_eq_some_iff` which number a
  literal denotes.
-/

namespace Graft

/-! ### Digits -/

namespace Text.Numeral

variable {base n : Nat} {cs : List Char} {c : Char}

/-- The number that a digit in a base up to sixteen stands for; sixteen for a character that is no digit. -/
def digitValue (c : Char) : Nat := "0123456789abcdef".toList.idxOf c.toLower

/-- A nonempty text of digits. -/
structure Digits (base : Nat) (cs : List Char) : Prop where
  ne_nil : cs ≠ []
  digit : ∀ c ∈ cs, digitValue c < base

/-- The number that digits denote, the most significant one first. -/
def number (base : Nat) (cs : List Char) : Nat := Nat.ofDigits base (cs.reverse.map digitValue)

/-- The place in the range of a digit is the place among the digits. -/
private theorem range_eq_digitValue (c : Char) :
    (if '0' ≤ c ∧ c ≤ '9' then c.toNat - 0x30
    else if 'a' ≤ c ∧ c ≤ 'f' then c.toNat - 0x61 + 10
    else if 'A' ≤ c ∧ c ≤ 'F' then c.toNat - 0x41 + 10
    else 16) = digitValue c := by
  have hascii : ∀ n < 128, (if '0' ≤ Char.ofNat n ∧ Char.ofNat n ≤ '9' then (Char.ofNat n).toNat - 0x30
      else if 'a' ≤ Char.ofNat n ∧ Char.ofNat n ≤ 'f' then (Char.ofNat n).toNat - 0x61 + 10
      else if 'A' ≤ Char.ofNat n ∧ Char.ofNat n ≤ 'F' then (Char.ofNat n).toNat - 0x41 + 10
      else 16) = digitValue (Char.ofNat n) := by
    decide +kernel
  by_cases hc : c.toNat < 128
  · have hn := hascii c.toNat hc
    rwa [Char.ofNat_toNat] at hn
  · -- no other character is in a range, nor is it a letter that has another case
    have hle {d : Char} (hd : d.toNat < 128) : ¬ c ≤ d := fun h =>
      hc (Nat.lt_of_le_of_lt (UInt32.le_iff_toNat_le.1 h) hd)
    have hlower : c.toLower = c := dif_neg fun h => hle (d := 'Z') (by decide) h.2
    have hall : "0123456789abcdef".toList.all (fun d => d.toNat < 128) = true := by decide
    have hdigits (d : Char) (hd : d ∈ "0123456789abcdef".toList) : d.toNat < 128 :=
      of_decide_eq_true (List.all_eq_true.1 hall d hd)
    rw [if_neg fun h => hle (by decide) h.2, if_neg fun h => hle (by decide) h.2, if_neg fun h => hle (by decide) h.2,
      digitValue, hlower, List.idxOf_eq_length fun h => hc (hdigits c h)]
    rfl

theorem digit?_eq (base : Nat) (c : Char) :
    digit? base c = if digitValue c < base then some (digitValue c) else none := by
  rw [← range_eq_digitValue c]
  rfl

theorem extend?_eq_some_iff {m : Nat} : extend? base n cs = some m ↔
    (∀ c ∈ cs, digitValue c < base) ∧ m = number base cs + base ^ cs.length * n := by
  induction cs generalizing n with
  | nil => simp [extend?, number, eq_comm]
  | cons c cs ih =>
    have hnumber : number base (c :: cs) = number base cs + base ^ cs.length * digitValue c := by
      rw [number, number, List.reverse_cons, List.map_append, Nat.ofDigits_append, List.length_map,
        List.length_reverse, List.map_singleton, Nat.ofDigits_singleton]
    have hsum : number base cs + base ^ cs.length * (base * n + digitValue c) =
        number base (c :: cs) + base ^ (cs.length + 1) * n := by
      rw [hnumber]
      ring
    rw [extend?, digit?_eq, List.forall_mem_cons, List.length_cons, ← hsum]
    by_cases hc : digitValue c < base
    · rw [if_pos hc, Option.bind_some, ih]
      simp only [hc, true_and]
    · rw [if_neg hc]
      constructor
      · intro h
        cases h
      · intro h
        exact absurd h.1.1 hc

theorem ofDigits?_eq_some_iff : ofDigits? base cs = some n ↔ Digits base cs ∧ n = number base cs := by
  cases cs with
  | nil => exact ⟨nofun, fun h => absurd rfl h.1.ne_nil⟩
  | cons c cs =>
    rw [ofDigits?, extend?_eq_some_iff, Nat.mul_zero, Nat.add_zero]
    constructor
    · rintro ⟨hdigits, hn⟩
      exact ⟨⟨List.cons_ne_nil c cs, hdigits⟩, hn⟩
    · rintro ⟨hdigits, hn⟩
      exact ⟨hdigits.digit, hn⟩

theorem Digits.not_mem (h : Digits base cs) (hbase : base ≤ 16) (hc : digitValue c = 16) : c ∉ cs := fun hmem => by
  have := h.digit c hmem
  omega

end Text.Numeral

open Text.Numeral

/-! ### Literals -/

/-- A sign. -/
inductive Sign where
  | plus
  | minus
deriving DecidableEq

namespace Sign

def char : Sign → Char
  | plus => '+'
  | minus => '-'

/-- The text of a sign that may be missing. -/
def chars (s : Option Sign) : List Char := (s.map char).toList

/-- The number behind a sign that may be missing. -/
def apply (s : Option Sign) (n : Int) : Int := if s = some minus then -n else n

theorem digitValue_char (s : Sign) : digitValue s.char = 16 := by
  cases s <;> decide

end Sign

/-- How the digits of a literal are marked. -/
inductive Radix where
  | decimal
  | hex (upper : Bool)
deriving DecidableEq

namespace Radix

def base : Radix → Nat
  | decimal => 10
  | hex _ => 16

def mark : Radix → List Char
  | decimal => []
  | hex false => ['0', 'x']
  | hex true => ['0', 'X']

theorem base_le (r : Radix) : r.base ≤ 16 := by
  cases r with
  | decimal => decide
  | hex upper => exact Nat.le_refl 16

end Radix

/-- The parts of a literal: a sign, the mark of the digits, another sign, and the digits. -/
structure Literal where
  front : Option Sign
  radix : Radix
  behind : Option Sign
  digits : List Char

namespace Literal

variable {l : Literal}

def chars (l : Literal) : List Char := Sign.chars l.front ++ (l.radix.mark ++ (Sign.chars l.behind ++ l.digits))

/-- The number behind the mark. -/
def magnitude (l : Literal) : Int := Sign.apply l.behind (number l.radix.base l.digits)

def value (l : Literal) : Int := Sign.apply l.front l.magnitude

/-- A literal as it should be: at most one sign, in front of everything, and digits. -/
structure Proper (l : Literal) : Prop where
  digits : Digits l.radix.base l.digits
  behind : l.behind = none

/-- A literal as it is read. A plus sign is taken by the reader of numerals only, so that nothing but decimal digits can
follow it. If there is nothing in front of a sign, it counts as the one in front. -/
structure Readable (l : Literal) : Prop where
  digits : Digits l.radix.base l.digits
  plus : l.front = some .plus → l.radix = .decimal ∧ l.behind = none
  bare : l.front = none → l.radix = .decimal → l.behind = none

/-- A proper literal has no sign but at its beginning. -/
theorem Proper.not_mem_tail (h : l.Proper) (s : Sign) : s.char ∉ l.chars.tail := by
  have hdigits : s.char ∉ l.digits := h.digits.not_mem l.radix.base_le s.digitValue_char
  have hmark : s.char ∉ l.radix.mark := by
    rcases l.radix with _ | _ | _ <;> cases s <;> decide
  have hrest : s.char ∉ l.radix.mark ++ l.digits := by
    rw [List.mem_append, not_or]
    exact ⟨hmark, hdigits⟩
  unfold chars
  rw [h.behind]
  rcases l.front with _ | s'
  · exact fun hmem => hrest (List.mem_of_mem_tail hmem)
  · exact hrest

/-- A literal that is read is proper, in whatever parts, unless it has a sign behind the first one or behind the mark. -/
theorem Readable.exists_proper_iff (h : l.Readable) : (∃ l' : Literal, l'.Proper ∧ l'.chars = l.chars) ↔ l.behind = none := by
  constructor
  · rintro ⟨l', hproper, hchars⟩
    rcases hbehind : l.behind with _ | s
    · rfl
    · refine absurd ?_ (hproper.not_mem_tail s)
      rw [hchars, chars, hbehind]
      rcases hfront : l.front with _ | s'
      · rcases hradix : l.radix with _ | _ | _
        · cases (h.bare hfront hradix).symm.trans hbehind
        · exact List.mem_cons_of_mem _ List.mem_cons_self
        · exact List.mem_cons_of_mem _ List.mem_cons_self
      · exact List.mem_append_right l.radix.mark (List.mem_append_left l.digits (List.mem_singleton_self s.char))
  · exact fun hbehind => ⟨l, ⟨h.digits, hbehind⟩, rfl⟩

end Literal

/-! ### Reading -/

namespace Text.Numeral

theorem ofSigned?_eq_some_iff {base : Nat} {cs : List Char} {z : Int} (hbase : base ≤ 16) : ofSigned? base cs = some z ↔
    ∃ s ds, cs = Sign.chars s ++ ds ∧ Digits base ds ∧ z = Sign.apply s (number base ds) := by
  constructor
  · intro h
    unfold ofSigned? at h
    split at h
    · rename_i cs
      obtain ⟨z, hz, rfl⟩ := Option.map_eq_some_iff.1 h
      obtain ⟨n, hn, hnz⟩ := Option.bind_eq_some_iff.1 hz
      obtain rfl := Option.some.inj hnz
      obtain ⟨hdigits, rfl⟩ := ofDigits?_eq_some_iff.1 hn
      exact ⟨some .minus, cs, rfl, hdigits, rfl⟩
    · unfold ofUnsigned? at h
      split at h
      · rename_i cs _
        obtain ⟨n, hn, rfl⟩ := Option.map_eq_some_iff.1 h
        obtain ⟨hdigits, rfl⟩ := ofDigits?_eq_some_iff.1 hn
        exact ⟨some .plus, cs, rfl, hdigits, rfl⟩
      · obtain ⟨n, hn, rfl⟩ := Option.map_eq_some_iff.1 h
        obtain ⟨hdigits, rfl⟩ := ofDigits?_eq_some_iff.1 hn
        exact ⟨none, _, rfl, hdigits, rfl⟩
  · rintro ⟨s, ds, rfl, hdigits, rfl⟩
    have hread : ofDigits? base ds = some (number base ds) := ofDigits?_eq_some_iff.2 ⟨hdigits, rfl⟩
    rcases s with _ | _ | _
    · show ofSigned? base ds = _
      have hsign (s : Sign) (cs : List Char) : ds ≠ s.char :: cs := fun h =>
        hdigits.not_mem hbase s.digitValue_char (h ▸ List.mem_cons_self)
      unfold ofSigned?
      split
      · exact absurd rfl (hsign .minus _)
      · unfold ofUnsigned?
        split
        · exact absurd rfl (hsign .plus _)
        · rw [hread]
          rfl
    · show (ofDigits? base ds).map Int.ofNat = _
      rw [hread]
      rfl
    · show ((ofDigits? base ds).bind fun n => some (n : Int)).map (fun n => -n) = _
      rw [hread]
      rfl

end Text.Numeral

namespace Value

variable {cs token : List Char} {z : Int} {v : Value}

/-- The text begins with the mark of hexadecimal digits. -/
private def Marked (cs : List Char) : Prop := ∃ upper ds, cs = (Radix.hex upper).mark ++ ds

private theorem magnitude?_mark {r : Radix} (h : r = .decimal → ¬ Marked cs) :
    magnitude? (r.mark ++ cs) = (ofSigned? r.base cs).filter fun n => decide (InWord n) := by
  rcases r with _ | _ | _
  · show magnitude? cs = _
    unfold magnitude?
    split
    · exact absurd ⟨false, _, rfl⟩ (h rfl)
    · exact absurd ⟨true, _, rfl⟩ (h rfl)
    · rfl
  · rfl
  · rfl

theorem magnitude?_eq_some_iff : magnitude? cs = some z ↔ ∃ (r : Radix) (s : Option Sign) (ds : List Char),
    cs = r.mark ++ (Sign.chars s ++ ds) ∧ Digits r.base ds ∧ z = Sign.apply s (number r.base ds) ∧ InWord z := by
  have hsigned (r : Radix) (cs : List Char) :
      ((ofSigned? r.base cs).filter fun n => decide (InWord n)) = some z ↔ ∃ s ds, cs = Sign.chars s ++ ds ∧
        Digits r.base ds ∧ z = Sign.apply s (number r.base ds) ∧ InWord z := by
    rw [Option.filter_eq_some_iff, ofSigned?_eq_some_iff r.base_le, decide_eq_true_iff]
    constructor
    · rintro ⟨⟨s, ds, hcs, hdigits, hz⟩, hword⟩
      exact ⟨s, ds, hcs, hdigits, hz, hword⟩
    · rintro ⟨s, ds, hcs, hdigits, hz, hword⟩
      exact ⟨⟨s, ds, hcs, hdigits, hz⟩, hword⟩
  constructor
  · intro h
    obtain ⟨r, rest, rfl, hr⟩ : ∃ (r : Radix) (rest : List Char), cs = r.mark ++ rest ∧ (r = .decimal → ¬ Marked rest) := by
      by_cases hmarked : Marked cs
      · obtain ⟨upper, ds, rfl⟩ := hmarked
        exact ⟨.hex upper, ds, rfl, nofun⟩
      · exact ⟨.decimal, cs, rfl, fun _ => hmarked⟩
    rw [magnitude?_mark hr, hsigned] at h
    obtain ⟨s, ds, rfl, hread⟩ := h
    exact ⟨r, s, ds, rfl, hread⟩
  · rintro ⟨r, s, ds, rfl, hdigits, hread⟩
    rw [magnitude?_mark, hsigned]
    · exact ⟨s, ds, rfl, hdigits, hread⟩
    · -- neither a sign nor a digit is the letter of the mark
      rintro rfl ⟨upper, ds', hcs⟩
      have hletter : (if upper then 'X' else 'x') ∈ (Sign.chars s ++ ds).tail := by
        rw [hcs]
        cases upper <;> exact List.mem_cons_self
      have hvalue : digitValue (if upper then 'X' else 'x') = 16 := by
        cases upper <;> decide
      rcases s with _ | s
      · exact hdigits.not_mem (by decide) hvalue (List.mem_of_mem_tail hletter)
      · exact hdigits.not_mem (by decide) hvalue hletter

private theorem integer?_of_head (h : cs.head? ≠ some '-') : integer? cs = magnitude? cs := by
  unfold integer?
  split
  · exact absurd rfl h
  · rfl

theorem integer?_eq_some_iff : integer? cs = some z ↔
    ∃ l : Literal, l.Readable ∧ l.chars = cs ∧ InWord l.magnitude ∧ l.value = z := by
  constructor
  · intro h
    by_cases hhead : cs.head? = some '-'
    · obtain ⟨cs, rfl⟩ : ∃ rest, cs = '-' :: rest := List.head?_eq_some_iff.1 hhead
      obtain ⟨m, hm, rfl⟩ := Option.map_eq_some_iff.1 h
      obtain ⟨r, s, ds, rfl, hdigits, rfl, hword⟩ := magnitude?_eq_some_iff.1 hm
      exact ⟨⟨some .minus, r, s, ds⟩, ⟨hdigits, nofun, nofun⟩, rfl, hword, rfl⟩
    · rw [integer?_of_head hhead] at h
      obtain ⟨r, s, ds, rfl, hdigits, rfl, hword⟩ := magnitude?_eq_some_iff.1 h
      cases r with
      | decimal =>
        rcases s with _ | _ | _
        · exact ⟨⟨none, .decimal, none, ds⟩, ⟨hdigits, nofun, fun _ _ => rfl⟩, rfl, hword, rfl⟩
        · exact ⟨⟨some .plus, .decimal, none, ds⟩, ⟨hdigits, fun _ => ⟨rfl, rfl⟩, nofun⟩, rfl, hword, rfl⟩
        · exact absurd rfl hhead
      | hex upper => exact ⟨⟨none, .hex upper, s, ds⟩, ⟨hdigits, nofun, nofun⟩, rfl, hword, rfl⟩
  · rintro ⟨⟨front, r, s, ds⟩, hread, rfl, hword, rfl⟩
    have hmagnitude : magnitude? (r.mark ++ (Sign.chars s ++ ds)) = some (Sign.apply s (number r.base ds)) :=
      magnitude?_eq_some_iff.2 ⟨r, s, ds, rfl, hread.digits, rfl, hword⟩
    rcases front with _ | _ | _
    · -- the sign behind is not in front, and a digit is no sign
      have hhead : (r.mark ++ (Sign.chars s ++ ds)).head? ≠ some '-' := by
        rcases r with _ | _ | _
        · obtain rfl : s = none := hread.bare rfl rfl
          exact fun h => hread.digits.not_mem (Radix.base_le .decimal) (by decide) (List.mem_of_head? h)
        · exact nofun
        · exact nofun
      exact (integer?_of_head hhead).trans hmagnitude
    · obtain ⟨rfl, rfl⟩ : r = .decimal ∧ s = none := hread.plus rfl
      have hplus : magnitude? ('+' :: ds) = some (number 10 ds : Int) :=
        magnitude?_eq_some_iff.2 ⟨.decimal, some .plus, ds, rfl, hread.digits, rfl, hword⟩
      have hhead : ('+' :: ds).head? ≠ some '-' := by
        rw [List.head?_cons]
        decide
      exact (integer?_of_head hhead).trans hplus
    · show (magnitude? (r.mark ++ (Sign.chars s ++ ds))).map (fun n => -n) = _
      rw [hmagnitude]
      rfl

/-! ### Values -/

/-- The integer that a value is. -/
def integer : Value → Option Int
  | i32 n => some n.toInt
  | i64 n => some n.toInt
  | bool _ => none

/-- The digits denote the least integer of a word, and a minus sign in front of them and their own sign turns it into one
that does not fit. -/
def Overflows (token : List Char) : Prop := ∃ n, integer? (Text.trim token) = some n ∧ ¬ InWord n

/-- A token is a literal that is read as a value. -/
structure Denotes (l : Literal) (token : List Char) (v : Value) : Prop where
  readable : l.Readable
  chars : l.chars = Text.trim token
  fits : InWord l.magnitude
  value : v.integer = some l.value

theorem ofText?_eq_some_iff (exact : ¬ Overflows token) (numeric : v.type.isNumeric = true) :
    ofText? v.type token = some v ↔ ∃ l, Denotes l token v := by
  have hread : ofText? v.type token = some v ↔ ∃ n, integer? (Text.trim token) = some n ∧ v.integer = some n := by
    cases v with
    | i32 k =>
      simp only [ofText?, type, integer, Option.map_eq_some_iff, Option.filter_eq_some_iff, decide_eq_true_iff, i32.injEq,
        Option.some.injEq]
      constructor
      · rintro ⟨n, ⟨hn, hhalf⟩, rfl⟩
        exact ⟨n, hn, Int32.toInt_ofInt_of_le hhalf.1 hhalf.2⟩
      · rintro ⟨n, hn, rfl⟩
        exact ⟨k.toInt, ⟨hn, InHalfWord.of_toInt k⟩, k.ofInt_toInt⟩
    | i64 k =>
      simp only [ofText?, type, integer, Option.map_eq_some_iff, i64.injEq, Option.some.injEq]
      constructor
      · rintro ⟨n, hn, rfl⟩
        have hword : InWord n := by_contra fun h => exact ⟨n, hn, h⟩
        exact ⟨n, hn, Int64.toInt_ofInt_of_le hword.1 hword.2⟩
      · rintro ⟨n, hn, rfl⟩
        exact ⟨k.toInt, hn, k.ofInt_toInt⟩
    | bool b => cases numeric
  rw [hread]
  constructor
  · rintro ⟨n, hn, hv⟩
    obtain ⟨l, hreadable, hchars, hfits, rfl⟩ := integer?_eq_some_iff.1 hn
    exact ⟨l, hreadable, hchars, hfits, hv⟩
  · rintro ⟨l, h⟩
    exact ⟨l.value, integer?_eq_some_iff.2 ⟨l, h.readable, h.chars, h.fits, rfl⟩, h.value⟩

open Assembly in
/-- A token is read as an integer, in a row of assembly and among arguments as well, exactly if it is a literal with this
value that fits a word. The literal is a proper one, unless there is a second sign in it. -/
theorem literals_read (exact : ¬ Overflows token) (numeric : v.type.isNumeric = true) :
    (ofText? v.type token = some v ↔ ∃ l, Denotes l token v) ∧
    (∀ l, Denotes l token v → ((∃ l' : Literal, l'.Proper ∧ l'.chars = Text.trim token) ↔ l.behind = none)) ∧
    (∀ (op : Opcode) (labels : List (List Char × Nat)) (line : Line), op.operandKind = .immediate v.type →
      (Draft.instruction labels ⟨op, some token, line⟩ = .ok ⟨op, [.immediate v]⟩ ↔ ∃ l, Denotes l token v)) ∧
    ∀ (ts : List ValueType) (words : List String) (vs : List Value) (k : Nat), readArguments ts words = .ok vs →
      ts[k]? = some v.type → words[k]? = some (String.ofList token) → (vs[k]? = some v ↔ ∃ l, Denotes l token v) := by
  have hread := ofText?_eq_some_iff exact numeric
  refine ⟨hread, fun l hl => ?_, fun op labels line kind => ?_, fun ts words vs k hargs ht hword => ?_⟩
  · rw [← hl.chars]
    exact hl.readable.exists_proper_iff
  · rw [← hread, Draft.instruction]
    simp only [kind]
    split
    · rename_i v' hv'
      simp [hv']
    · rename_i hnone
      simp [hnone]
  · rw [← hread]
    unfold readArguments at hargs
    split at hargs
    · have hpair : (ts.zip words)[k]? = some (v.type, String.ofList token) := List.getElem?_zip_eq_some.2 ⟨ht, hword⟩
      obtain ⟨v', hv', htext⟩ := exists_getElem?_of_forall₂ (denoted_of_readValues hargs) hpair
      rw [String.toList_ofList] at htext
      rw [hv', htext]
    · cases hargs

/-- The literal with two signs. -/
def twice : Literal := ⟨some .minus, .decimal, some .minus, ['5']⟩

private theorem denotes_twice : Denotes twice "--5".toList (.i32 5) where
  readable := by
    refine ⟨⟨List.cons_ne_nil _ _, List.forall_mem_singleton.2 ?_⟩, nofun, nofun⟩
    decide
  chars := by decide
  fits := by decide
  value := by decide

private theorem exact_twice : ¬ Overflows "--5".toList := by
  rintro ⟨n, hn, hword⟩
  have hfive : integer? (Text.trim "--5".toList) = some 5 := by decide
  obtain rfl := Option.some.inj (hfive.symm.trans hn)
  exact hword (by decide)

/-- A literal with two signs is read, and it is no proper one. -/
theorem literals_read_twice : ¬ Overflows "--5".toList ∧ (i32 5).type.isNumeric = true ∧
    ofText? .i32 "--5".toList = some (.i32 5) ∧ ¬ ∃ l : Literal, l.Proper ∧ l.chars = "--5".toList := by
  obtain ⟨hread, hproper, -⟩ := literals_read (v := .i32 5) exact_twice rfl
  refine ⟨exact_twice, rfl, hread.2 ⟨twice, denotes_twice⟩, ?_⟩
  intro h
  have hbehind : twice.behind = none := (hproper twice denotes_twice).1 h
  cases hbehind

/-- Not every token that is read as an integer is a literal as it should be. -/
theorem not_literals_proper : ¬ ∀ (token : List Char) (v : Value), ¬ Overflows token → v.type.isNumeric = true →
    ofText? v.type token = some v → ∃ l : Literal, l.Proper ∧ l.chars = Text.trim token ∧ v.integer = some l.value := by
  intro h
  have hread : ofText? (i32 5).type "--5".toList = some (.i32 5) := by decide
  obtain ⟨l, hproper, hchars, -⟩ := h "--5".toList (.i32 5) exact_twice rfl hread
  have hbehind : twice.behind = none := denotes_twice.readable.exists_proper_iff.1 ⟨l, hproper, hchars⟩
  cases hbehind

end Value

end Graft
