import Graft.Json.Reader
import Graft.Json.Writer
import Graft.Proofs.Text.Tokens
import Mathlib.Data.List.TakeWhile

/-!
# Strings and numbers

Strings and whole numbers of up to 64 bits are read as what they were written for (`string?_quoted`, `number?_ofInt`).
-/

namespace Graft.Json

open Text.Numeral

variable {c : Char} {cs rest : List Char} {n : Nat}

/-! ### Strings -/

private theorem escaped_control : ∀ n < 0x20, ofDigits? 16 ['0', '0', digitChar (n / 16), digitChar (n % 16)] = some n := by
  decide

/-- A written character is read as its number, whatever follows. -/
private theorem units_escaped (acc : List Nat) (c : Char) (rest : List Char) :
    units acc (escaped c ++ rest) = units (c.toNat :: acc) rest := by
  unfold escaped
  split
  · subst c
    rfl
  split
  · subst c
    rfl
  split
  · subst c
    rfl
  split
  · subst c
    rfl
  split
  · subst c
    rfl
  split
  · rename_i hc
    rw [hc]
    rfl
  split
  · rename_i hc
    rw [hc]
    rfl
  split
  · rename_i hc
    show units acc ('\\' :: 'u' :: '0' :: '0' :: digitChar (c.toNat / 16) :: digitChar (c.toNat % 16) :: rest) = _
    rw [units, escaped_control c.toNat hc]
  · rename_i hquote hslash _ _ _ _ _ hcontrol
    show units acc (c :: rest) = _
    rw [units]
    · simp [hcontrol, hslash]
    · exact hquote
    · intro _ _ _ _ _ hc
      exact absurd hc hslash
    · intro _ _ hc
      exact absurd hc hslash

private theorem units_flatMap_escaped (acc : List Nat) (cs rest : List Char) :
    units acc (cs.flatMap escaped ++ '"' :: rest) = some (acc.reverse ++ cs.map Char.toNat, rest) := by
  induction cs generalizing acc with
  | nil =>
    rw [List.flatMap_nil, List.nil_append, units, List.map_nil, List.append_nil]
  | cons c cs ih =>
    rw [List.flatMap_cons, List.append_assoc, units_escaped, ih, List.reverse_cons, List.append_assoc, List.map_cons,
      List.singleton_append]

/-- The number of a character is no half of a surrogate pair. -/
private theorem not_surrogate (c : Char) : isHigh c.toNat = false ∧ isLow c.toNat = false := by
  have hvalid : c.toNat < 0xD800 ∨ 0xDFFF < c.toNat ∧ c.toNat < 0x110000 := c.valid
  simp only [isHigh, isLow, Bool.and_eq_false_iff, decide_eq_false_iff_not]
  omega

private theorem ofUnits?_map_toNat (cs : List Char) : ofUnits? (cs.map Char.toNat) = some cs := by
  induction cs with
  | nil => rfl
  | cons c cs ih =>
    obtain ⟨hhigh, hlow⟩ := not_surrogate c
    cases cs with
    | nil => simp [ofUnits?, hhigh, hlow]
    | cons d cs =>
      rw [List.map_cons] at ih
      simp [ofUnits?, hhigh, hlow, ih]

/-- A string is read as it was written. -/
theorem string?_quoted (s : String) (rest : List Char) :
    ∃ inner, quoted s ++ rest = '"' :: inner ∧ string? inner = some (some s, rest) := by
  refine ⟨s.toList.flatMap escaped ++ '"' :: rest, ?_, ?_⟩
  · simp [quoted]
  · rw [string?, units_flatMap_escaped, Option.map_some, List.reverse_nil, List.nil_append]
    dsimp only
    rw [ofUnits?_map_toNat, Option.map_some, String.ofList_toList]

/-! ### Numbers -/

/-- The numbers that are written: those that fit into 64 bits, with or without a sign. -/
def Fits64 (z : Int) : Prop := -0x8000000000000000 ≤ z ∧ z < 0x10000000000000000

private theorem le_of_extend? {k m : Nat} (h : extend? 10 k cs = some m) : k ≤ m := by
  induction cs generalizing k with
  | nil => exact Nat.le_of_eq (Option.some.inj h)
  | cons c cs ih =>
    obtain ⟨d, -, hrest⟩ := Option.bind_eq_some_iff.1 h
    have := ih hrest
    omega

/-- Digits that denote a number of 64 bits fit into the significand. -/
private theorem whole_of_extend? {k m : Nat} {e : Int} (h : extend? 10 k cs = some m) (hm : m < UInt64.size) :
    (⟨k, e⟩ : Decimal).whole cs = ⟨m, e⟩ := by
  induction cs generalizing k with
  | nil =>
    obtain rfl := Option.some.inj h
    rfl
  | cons c cs ih =>
    obtain ⟨d, hd, hrest⟩ := Option.bind_eq_some_iff.1 h
    have hroom : 10 * k + d < UInt64.size := Nat.lt_of_le_of_lt (le_of_extend? hrest) hm
    have happend : (⟨k, e⟩ : Decimal).append? c = some (10 * k + d) := by
      simp only [Decimal.append?, hd, Option.bind_some, if_pos hroom]
    rw [Decimal.whole, happend]
    exact ih hrest

/-- Rounding to 53 digits at most doubles a number. -/
private theorem toDouble_le (hn : n ≠ 0) : Decimal.toDouble n ≤ 2 * n := by
  have hunit : 1 <<< (n.log2 - 52) ≤ n := by
    rw [Nat.one_shiftLeft]
    exact Nat.le_trans (Nat.pow_le_pow_right (by omega) (Nat.sub_le _ _)) (Nat.log2_self_le hn)
  have hquotient : n / (1 <<< (n.log2 - 52)) * (1 <<< (n.log2 - 52)) ≤ n := Nat.div_mul_le_self ..
  unfold Decimal.toDouble
  dsimp only
  split
  · omega
  · rw [Nat.succ_mul]
    omega

private theorem isTooLarge_eq_false (hn : n < UInt64.size) : (⟨n, 0⟩ : Decimal).isTooLarge = false := by
  have hbound : 2 * UInt64.size ≤ Decimal.doubleBound := by decide
  have hone : Decimal.toDouble (Nat.pow 10 (0 : Int).toNat) = 1 := by decide
  unfold Decimal.isTooLarge
  by_cases hzero : n = 0
  · subst hzero
    rfl
  · have hsmall := toDouble_le hzero
    have hnot : ¬ Decimal.doubleBound ≤ Decimal.toDouble n := by omega
    simp only [hone, Nat.mul_one, decide_eq_false hnot]
    simp

private theorem digits_spec : ∀ c ∈ "0123456789".toList, c.isDigit = true ∧ isNumeric c = true ∧ c ≠ '-' :=
  List.all_iff_forall_prop.1 (by decide)

private theorem digitChar_ne_zero : ∀ d < 10, digitChar d = '0' → d = 0 := by decide

/-- A numeral has no zeros in front. -/
private theorem eq_zero_of_decimal (h : decimal n = '0' :: cs) : n = 0 ∧ cs = [] := by
  induction n using Nat.strongRecOn generalizing cs with
  | ind n ih =>
    rw [decimal] at h
    split at h
    · rename_i hn
      obtain ⟨hdigit, rfl⟩ := List.cons.inj h
      exact ⟨digitChar_ne_zero n hn hdigit, rfl⟩
    · rename_i hn
      obtain ⟨d, ds, hd⟩ := List.exists_cons_of_ne_nil (decimal_ne_nil (n / 10))
      rw [hd, List.cons_append] at h
      obtain ⟨rfl, -⟩ := List.cons.inj h
      obtain ⟨hzero, -⟩ := ih (n / 10) (by omega) hd
      omega

private theorem isWhole_decimal (n : Nat) : isWhole (decimal n) = true := by
  unfold isWhole
  split
  · rfl
  · rename_i cs hne heq
    obtain ⟨-, rfl⟩ := eq_zero_of_decimal heq
    exact (hne rfl).elim
  · simp only [Bool.and_eq_true, Bool.not_eq_true', List.isEmpty_eq_false_iff, List.all_eq_true]
    exact ⟨decimal_ne_nil n, fun c hc => (digits_spec c (mem_decimal hc)).1⟩

private theorem magnitude?_decimal (negative : Bool) (hn : n < UInt64.size) (hzero : negative = true → n ≠ 0) :
    magnitude? negative (decimal n) = some (int (if negative then -(n : Int) else n)) := by
  have hdigits : ∀ c ∈ decimal n, c.isDigit = true := fun c hc => (digits_spec c (mem_decimal hc)).1
  have hwhole : (decimal n).takeWhile Char.isDigit = decimal n := List.takeWhile_eq_self_iff.2 hdigits
  have htail : (decimal n).dropWhile Char.isDigit = [] := List.dropWhile_eq_nil_iff.2 hdigits
  have hvalue : ({} : Decimal).whole (decimal n) = ⟨n, 0⟩ := whole_of_extend? (extend?_decimal n) hn
  have hsign : (negative && decimal n == ['0']) = false := by
    cases negative with
    | false => rfl
    | true =>
      refine beq_false_of_ne fun heq => ?_
      exact hzero rfl (eq_zero_of_decimal heq).1
  have hlarge : (⟨n, (0 : Int) + 0⟩ : Decimal).isTooLarge = false := isTooLarge_eq_false hn
  unfold magnitude?
  simp only [hwhole, htail, isWhole_decimal, tail?, exponent?, Option.map_some, hvalue, Decimal.fraction, hlarge, hsign,
    ofDigits?_decimal]
  rfl

/-- A number of 64 bits is read as it was written. -/
theorem number?_ofInt {z : Int} (hz : Fits64 z) : number? (ofInt z) = some (int z) := by
  obtain ⟨hlow, hhigh⟩ := hz
  cases z with
  | ofNat n =>
    have hn : n < UInt64.size := by
      have : ((n : Nat) : Int) < 2 ^ 64 := hhigh
      simp only [UInt64.size]
      omega
    have hplain : number? (decimal n) = magnitude? false (decimal n) := by
      unfold number?
      split
      · rename_i cs heq
        have hminus : '-' ∈ decimal n := heq ▸ List.mem_cons_self
        exact absurd rfl (digits_spec _ (mem_decimal hminus)).2.2
      · rfl
    rw [ofInt, hplain, magnitude?_decimal false hn nofun]
    rfl
  | negSucc n =>
    have hn : n + 1 < UInt64.size := by
      have : -2 ^ 63 ≤ Int.negSucc n := hlow
      simp only [UInt64.size]
      omega
    show magnitude? true (decimal (n + 1)) = _
    rw [magnitude?_decimal true hn fun _ => Nat.succ_ne_zero n]
    rfl

/-- A written number is made of the characters of numbers. -/
theorem numeric_ofInt (z : Int) : ∀ c ∈ ofInt z, isNumeric c = true := by
  have hdecimal (n : Nat) (c : Char) (hc : c ∈ decimal n) : isNumeric c = true := (digits_spec c (mem_decimal hc)).2.1
  intro c hc
  cases z with
  | ofNat n => exact hdecimal n c hc
  | negSucc n =>
    rcases List.mem_cons.1 hc with rfl | hc
    · rfl
    · exact hdecimal (n + 1) c hc

theorem ofInt_ne_nil (z : Int) : ofInt z ≠ [] := by
  cases z with
  | ofNat n => exact decimal_ne_nil n
  | negSucc n => exact List.cons_ne_nil _ _

end Graft.Json
