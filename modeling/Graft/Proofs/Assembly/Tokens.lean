import Graft.Assembly.Listing
import Graft.Assembly.Reader
import Graft.Proofs.Failure
import Graft.Proofs.Text.Tokens

/-!
# Tokens of listings

What a listing writes for an opcode, a value, a slot or a list of types is a token, or is made of tokens, and is read
back as what it was written for (`ofText?_mnemonic`, `ofText?_chars`, `slot?_decimal`, `readTypes_typeList`).
-/

namespace Graft

open Text

/-! ### Opcodes -/

namespace Opcode

private theorem all_spec : ∀ op ∈ all, Token op.mnemonic.toList ∧ op.mnemonic.toList.head? ≠ some '.' ∧
    ofText? op.mnemonic.toList = some op := by
  decide

private theorem mem_all (op : Opcode) : op ∈ all := by
  cases op <;> decide

theorem token_mnemonic (op : Opcode) : Token op.mnemonic.toList := (all_spec op (mem_all op)).1

theorem head?_mnemonic (op : Opcode) : op.mnemonic.toList.head? ≠ some '.' := (all_spec op (mem_all op)).2.1

theorem ofText?_mnemonic (op : Opcode) : ofText? op.mnemonic.toList = some op := (all_spec op (mem_all op)).2.2

end Opcode

/-! ### Values -/

theorem InHalfWord.of_toInt (n : Int32) : InHalfWord n.toInt := by
  have hlow := n.le_toInt
  have hhigh := n.toInt_lt
  unfold InHalfWord
  omega

theorem InWord.of_toInt (n : Int64) : InWord n.toInt := by
  have hlow := n.le_toInt
  have hhigh := n.toInt_lt
  unfold InWord
  omega

namespace Value

open Numeral

theorem type_of_ofText? {t : ValueType} {token : List Char} {v : Value} (h : ofText? t token = some v) : v.type = t := by
  unfold ofText? at h
  dsimp only at h
  split at h
  · obtain ⟨n, -, rfl⟩ := Option.map_eq_some_iff.1 h
    rfl
  · obtain ⟨n, -, rfl⟩ := Option.map_eq_some_iff.1 h
    rfl
  · split at h
    · exact Option.some.inj h ▸ rfl
    · split at h
      · exact Option.some.inj h ▸ rfl
      · cases h

theorem token_chars (v : Value) : Token v.chars := by
  cases v with
  | i32 n => exact token_ofInt _
  | i64 n => exact token_ofInt _
  | bool b => cases b <;> decide

private theorem magnitude?_decimal {n : Nat} (hn : InWord n) : magnitude? (decimal n) = some (n : Int) := by
  have hbase {c : Char} {cs : List Char} (h : decimal n = '0' :: c :: cs) : c ∈ "0123456789".toList :=
    mem_decimal (n := n) (h ▸ List.mem_cons_of_mem _ List.mem_cons_self)
  unfold magnitude?
  -- a numeral in another base would have a letter behind the zero
  split
  · rename_i h
    exact absurd (hbase h) (by decide)
  · rename_i h
    exact absurd (hbase h) (by decide)
  · rw [ofSigned?_decimal, Option.filter_some, if_pos (decide_eq_true hn)]

/-- The text of an integer is read back if its magnitude fits a word. -/
private theorem integer?_ofInt {z : Int} (hz : InWord z) (hmin : z ≠ -0x8000000000000000) :
    integer? (ofInt z) = some z := by
  cases z with
  | ofNat n =>
    unfold integer?
    split
    · rename_i h
      have hminus : '-' ∈ decimal n := (show decimal n = _ from h) ▸ List.mem_cons_self
      exact absurd (mem_decimal hminus) (by decide)
    · exact magnitude?_decimal hz
  | negSucc n =>
    have hn : InWord ((n + 1 : Nat) : Int) := by
      unfold InWord at hz ⊢
      omega
    show (magnitude? (decimal (n + 1))).map (fun n => -n) = _
    rw [magnitude?_decimal hn]
    rfl

/-- The text of a value is read back as the value, with the exception of the least 64-bit integer. -/
theorem ofText?_chars {v : Value} (hmin : v ≠ .i64 Int64.minValue) : ofText? v.type v.chars = some v := by
  have htrim : trim v.chars = v.chars := v.token_chars.trimmed.trim_eq
  cases v with
  | i32 n =>
    have hhalf := InHalfWord.of_toInt n
    have hlow := hhalf.1
    have hword : InWord n.toInt := by
      unfold InHalfWord at hhalf
      unfold InWord
      omega
    have hread : integer? (chars (.i32 n)) = some n.toInt := integer?_ofInt hword (by omega)
    simp only [ofText?, type, htrim, hread, Option.filter_some, decide_eq_true hhalf, if_true, Option.map_some,
      Int32.ofInt_toInt]
  | i64 n =>
    have hne : n.toInt ≠ -0x8000000000000000 := by
      intro h
      refine hmin (congrArg Value.i64 (Int64.toInt_inj.1 ?_))
      rw [h]
      rfl
    have hread : integer? (chars (.i64 n)) = some n.toInt := integer?_ofInt (InWord.of_toInt n) hne
    simp only [ofText?, type, htrim, hread, Option.map_some, Int64.ofInt_toInt]
  | bool b => cases b <;> decide

end Value

namespace Assembly

open Numeral

theorem slot?_decimal (n : UInt16) : Draft.slot? (decimal n.toNat) = some n := by
  have hsize : n.toNat < UInt16.size := n.toNat_lt
  rw [Draft.slot?, ofUnsigned?_decimal, Option.filter_some, if_pos (decide_eq_true hsize), Option.map_some,
    UInt16.ofNat_toNat]

/-! ### Labels -/

/-- The name of the label at a position. -/
def labelName (pos : Nat) : List Char := 'L' :: decimal pos

theorem labelAt_eq (pos : Nat) : labelAt pos = '@' :: labelName pos := rfl

theorem labelName_inj {p q : Nat} (h : labelName p = labelName q) : p = q := decimal_inj (List.cons.inj h).2

theorem token_labelAt (pos : Nat) : Token (labelAt pos) := by
  have hmark : Token ['@', 'L'] := by decide
  exact hmark.append (token_decimal pos)

/-! ### Types -/

theorem token_keyword (t : ValueType) : Token t.keyword.toList := by
  cases t <;> decide

theorem ofText?_keyword (t : ValueType) : ValueType.ofText? t.keyword.toList = some t := by
  cases t <;> decide

private theorem joined_singleton (t : ValueType) : (ValueType.joined [t]).toList = t.keyword.toList := by
  simp [ValueType.joined]

private theorem joined_cons (t u : ValueType) (ts : List ValueType) : (ValueType.joined (t :: u :: ts)).toList =
    t.keyword.toList ++ ',' :: ' ' :: (ValueType.joined (u :: ts)).toList := by
  simp [ValueType.joined, String.toList_intercalate, List.intercalate]

/-- The parts of a list of keywords between its commas. -/
private theorem partsAt_joined (t : ValueType) (ts : List ValueType) :
    partsAt ',' (ValueType.joined (t :: ts)).toList =
      t.keyword.toList :: ts.map fun t => ' ' :: t.keyword.toList := by
  have hcomma (t : ValueType) : ',' ∉ t.keyword.toList := (token_keyword t).not_mem (by decide)
  induction ts generalizing t with
  | nil =>
    rw [joined_singleton, partsAt_of_not_mem (hcomma t)]
    rfl
  | cons u ts ih =>
    have hblank (cs ds : List Char) (css : List (List Char)) (h : partsAt ',' cs = ds :: css) :
        partsAt ',' (' ' :: cs) = (' ' :: ds) :: css := by
      rw [partsAt, if_neg (by decide), h]
    rw [joined_cons, partsAt_append (hcomma t), hblank _ _ _ (ih u)]
    rfl

/-- The characters of a list of types. -/
theorem mem_typeList {ts : List ValueType} {c : Char} (hc : c ∈ typeList ts) :
    c ∈ plain ∨ c ∈ ['(', ')', ',', ' '] := by
  have hjoined (ts : List ValueType) (hc : c ∈ (ValueType.joined ts).toList) : c ∈ plain ∨ c ∈ [',', ' '] := by
    cases ts with
    | nil => cases hc
    | cons t ts =>
      induction ts generalizing t with
      | nil =>
        rw [joined_singleton] at hc
        exact .inl ((token_keyword t).plain c hc)
      | cons u ts ih =>
        rw [joined_cons, List.mem_append, List.mem_cons, List.mem_cons] at hc
        rcases hc with hc | rfl | rfl | hc
        · exact .inl ((token_keyword t).plain c hc)
        · exact .inr (by decide)
        · exact .inr (by decide)
        · exact ih u hc
  rw [typeList, List.mem_append, List.mem_cons, List.mem_singleton] at hc
  rcases hc with (rfl | hc) | rfl
  · exact .inr (by decide)
  · rcases hjoined ts hc with hc | hc
    · exact .inl hc
    · exact .inr (List.mem_cons_of_mem _ (List.mem_cons_of_mem _ hc))
  · exact .inr (by decide)

/-- A list of types neither ends its line nor begins a comment. -/
theorem not_mem_typeList {c : Char} (hc : c ∈ ['/', '#', '\n']) (ts : List ValueType) : c ∉ typeList ts := by
  intro hmem
  rcases mem_typeList hmem with hplain | hsign
  · exact (plain_spec c hplain).2 (List.mem_append_left ['\r', ':', '(', ')', ','] hc)
  · have hsigns : ∀ c ∈ ['(', ')', ',', ' '], c ∉ ['/', '#', '\n'] := List.all_iff_forall_prop.1 (by decide)
    exact hsigns c hsign hc

theorem trimmed_typeList (ts : List ValueType) : Trimmed (typeList ts) := by
  constructor
  · intro c hc
    obtain rfl : '(' = c := Option.some.inj hc
    rfl
  · intro c hc
    rw [typeList, List.getLast?_append, List.getLast?_singleton, Option.some_or, Option.some.injEq] at hc
    subst hc
    rfl

/-- The words between the parentheses of a list of types, the blank parts left out. -/
private theorem words_joined (ts : List ValueType) :
    (((partsAt ',' (ValueType.joined ts).toList).map trim).filter fun w => !w.isEmpty) =
      ts.map fun t => t.keyword.toList := by
  have hnonempty (t : ValueType) : (!t.keyword.toList.isEmpty) = true := by cases t <;> decide
  cases ts with
  | nil => decide
  | cons t ts =>
    have hparts : (partsAt ',' (ValueType.joined (t :: ts)).toList).map trim =
        (t :: ts).map fun t => t.keyword.toList := by
      have hblank (t : ValueType) : trim (' ' :: t.keyword.toList) = t.keyword.toList :=
        trim_append isBlank_space (token_keyword t).trimmed
      rw [partsAt_joined, List.map_cons, (token_keyword t).trimmed.trim_eq, List.map_map, List.map_cons]
      exact congrArg _ (List.map_congr_left fun t _ => hblank t)
    rw [hparts]
    refine List.filter_eq_self.2 fun w hw => ?_
    obtain ⟨t', -, rfl⟩ := List.mem_map.1 hw
    exact hnonempty t'

/-- A list of types is read back, whatever blank characters stand in front of it. -/
theorem readTypes_typeList {pre : List Char} (hpre : ∀ c ∈ pre, isBlank c = true) (ts : List ValueType) :
    readTypes (pre ++ typeList ts) = .ok ts := by
  have hopen : after? ['('] (typeList ts) = some ((ValueType.joined ts).toList ++ [')']) := after?_append ['('] _
  have hinner : (after? ['('] (trim (pre ++ typeList ts))).bind (before? ')') = some (ValueType.joined ts).toList := by
    rw [trim_append hpre (trimmed_typeList ts), hopen, Option.bind_some, before?_append]
  rw [readTypes, hinner]
  dsimp only
  rw [words_joined]
  refine mapM_eq_ok_iff.2 (List.forall₂_map_left_iff.2 (List.forall₂_same.2 fun t _ => ?_))
  rw [ofText?_keyword]

end Assembly

end Graft
