import Graft.Proofs.Text.Pieces
import Graft.Text.Numeral
import Mathlib.Data.Bool.AllAny

/-!
# Tokens and numerals

* `Token` says that a text is made of characters that mean nothing to the readers of lines.
* `ofDigits?_decimal` reads a numeral back, and `decimal_inj` says that different numbers have different numerals.
-/

namespace Graft.Text

/-! ### Tokens -/

/-- The characters that the tokens of a listing are made of. -/
def plain : List Char := "abcdefghijklmnopqrstuvwxyz0123456789.-@L".toList

/-- The characters that end or divide texts. -/
def marks : List Char := ['/', '#', '\n', '\r', ':', '(', ')', ',']

/-- A nonempty text of plain characters. -/
structure Token (cs : List Char) : Prop where
  ne_nil : cs ≠ []
  plain : ∀ c ∈ cs, c ∈ Text.plain

-- a bounded quantifier over characters is decided by way of `List.all`, for there is an instance that goes through all
-- characters there are
instance (cs : List Char) : Decidable (Token cs) :=
  decidable_of_iff (cs ≠ [] ∧ cs.all fun c => decide (c ∈ plain))
    ⟨fun h => ⟨h.1, List.all_iff_forall_prop.1 h.2⟩, fun h => ⟨h.ne_nil, List.all_iff_forall_prop.2 h.plain⟩⟩

theorem plain_spec : ∀ c ∈ plain, isBlank c = false ∧ c ∉ marks := List.all_iff_forall_prop.1 (by decide)

variable {cs ds : List Char} {c : Char}

namespace Token

theorem not_blank (h : Token cs) (hc : c ∈ cs) : isBlank c = false := (plain_spec c (h.plain c hc)).1

theorem not_mem (h : Token cs) (hc : c ∈ marks) : c ∉ cs := fun hmem => (plain_spec c (h.plain c hmem)).2 hc

theorem trimmed (h : Token cs) : Trimmed cs :=
  ⟨fun _ hc => h.not_blank (List.mem_of_head? hc), fun _ hc => h.not_blank (List.mem_of_getLast? hc)⟩

theorem append (h : Token cs) (h' : Token ds) : Token (cs ++ ds) := by
  refine ⟨List.append_ne_nil_of_left_ne_nil h.ne_nil ds, fun c hc => ?_⟩
  rcases List.mem_append.1 hc with hc | hc
  · exact h.plain c hc
  · exact h'.plain c hc

theorem words_pair (h : Token cs) (h' : Token ds) : words (cs ++ ' ' :: ds) = [cs, ds] := by
  have hblank (c : Char) (hc : (' ' :: ds).head? = some c) : isBlank c = true := by
    obtain rfl : ' ' = c := Option.some.inj hc
    rfl
  rw [words_append h.ne_nil (fun _ hc => h.not_blank hc) hblank, words_blank rfl,
    words_of_not_blank h'.ne_nil fun _ hc => h'.not_blank hc]

theorem words_eq (h : Token cs) : words cs = [cs] := words_of_not_blank h.ne_nil fun _ hc => h.not_blank hc

end Token

namespace Numeral

variable {n m : Nat}

/-! ### Digits -/

private theorem digitChar_spec : ∀ d < 10, digitChar d ∈ "0123456789".toList ∧ digit? 10 (digitChar d) = some d := by
  decide

theorem decimal_ne_nil (n : Nat) : decimal n ≠ [] := by
  rw [decimal]
  split
  · exact List.cons_ne_nil _ _
  · exact List.append_ne_nil_of_right_ne_nil _ (List.cons_ne_nil _ _)

/-- A numeral is made of digits. -/
theorem mem_decimal (hc : c ∈ decimal n) : c ∈ "0123456789".toList := by
  induction n using Nat.strongRecOn with
  | ind n ih =>
    rw [decimal] at hc
    split at hc
    · rename_i hn
      exact List.mem_singleton.1 hc ▸ (digitChar_spec n hn).1
    · rcases List.mem_append.1 hc with hc | hc
      · exact ih (n / 10) (by omega) hc
      · exact List.mem_singleton.1 hc ▸ (digitChar_spec (n % 10) (by omega)).1

theorem token_decimal (n : Nat) : Token (decimal n) := by
  have hdigits : Token "0123456789".toList := by decide
  exact ⟨decimal_ne_nil n, fun c hc => hdigits.plain c (mem_decimal hc)⟩

/-! ### Reading numerals -/

private theorem extend?_append (base k : Nat) (cs ds : List Char) :
    extend? base k (cs ++ ds) = (extend? base k cs).bind fun k => extend? base k ds := by
  induction cs generalizing k with
  | nil => rfl
  | cons c cs ih =>
    rw [List.cons_append, extend?, extend?, Option.bind_assoc]
    refine congrArg _ (funext fun d => ?_)
    exact ih _

theorem extend?_decimal (n : Nat) : extend? 10 0 (decimal n) = some n := by
  have hdigit {k d : Nat} (hd : d < 10) : extend? 10 k [digitChar d] = some (10 * k + d) := by
    rw [extend?, (digitChar_spec d hd).2]
    rfl
  induction n using Nat.strongRecOn with
  | ind n ih =>
    rw [decimal]
    split
    · rename_i hn
      rw [hdigit hn, Nat.mul_zero, Nat.zero_add]
    · rw [extend?_append, ih (n / 10) (by omega), Option.bind_some, hdigit (by omega), Nat.div_add_mod]

/-- A numeral denotes the number that it was written for. -/
theorem ofDigits?_decimal (n : Nat) : ofDigits? 10 (decimal n) = some n := by
  have hextend := extend?_decimal n
  cases hn : decimal n with
  | nil => exact absurd hn (decimal_ne_nil n)
  | cons c cs =>
    rw [hn] at hextend
    exact hextend

theorem decimal_inj (h : decimal n = decimal m) : n = m := by
  have hread := ofDigits?_decimal n
  rw [h, ofDigits?_decimal] at hread
  exact (Option.some.inj hread).symm

/-- A numeral has no sign in front. -/
theorem ofUnsigned?_decimal (n : Nat) : ofUnsigned? 10 (decimal n) = some n := by
  unfold ofUnsigned?
  split
  · rename_i cs hn
    have hplus : '+' ∈ decimal n := hn ▸ List.mem_cons_self
    exact absurd (mem_decimal hplus) (by decide)
  · exact ofDigits?_decimal n

theorem ofSigned?_decimal (n : Nat) : ofSigned? 10 (decimal n) = some (n : Int) := by
  unfold ofSigned?
  split
  · rename_i cs hn
    have hminus : '-' ∈ decimal n := hn ▸ List.mem_cons_self
    exact absurd (mem_decimal hminus) (by decide)
  · rw [ofUnsigned?_decimal]
    rfl

theorem token_ofInt (z : Int) : Token (ofInt z) := by
  have hminus : Token ['-'] := by decide
  cases z with
  | ofNat n => exact token_decimal n
  | negSucc n => exact hminus.append (token_decimal (n + 1))

end Numeral

end Graft.Text
