import Graft.Command.Selection
import Graft.Proofs.Assembly.Tokens

/-!
# Texts of values

Values are written in listings and results, and read in listings and arguments (`Value.text_reads_back`). The one value
that is written and not read is the least 64-bit integer: a sign is set apart from the digits behind it, and these
digits alone denote an integer that does not fit a word.

* `Value.ofText?_text` reads the text of one value.
* `Value.instruction_constant` reads the row that loads a constant, and `Value.readValues_texts` a list of arguments.
-/

namespace Graft.Value

/-- The least 64-bit integer as a value. -/
def least : Value := .i64 Int64.minValue

/-- The text of the least integer is no text of an integer. -/
private theorem ofText?_least : ofText? least.type least.text.toList = none := by decide +kernel

theorem ofText?_text (v : Value) : ofText? v.type v.text.toList = if v = least then none else some v := by
  by_cases hv : v = least
  · rw [if_pos hv, hv]
    exact ofText?_least
  · rw [if_neg hv, text, String.toList_ofList]
    exact ofText?_chars hv

/-- With the sign behind the mark of its base, the least integer is read. -/
example : ofText? .i64 "0x-8000000000000000".toList = some (.i64 Int64.minValue) := by decide +kernel

open Assembly in
/-- The row that a listing has for the load of a constant is read as that instruction, or its operand is refused. -/
theorem instruction_constant {op : Opcode} {v : Value} (kind : op.operandKind = .immediate v.type) (b : Body)
    (labels : List (List Char × Nat)) (l : Line) :
    Draft.instruction labels ⟨op, some (operandText b (.immediate v)), l⟩ =
      if v = least then .error (l.error (.badImmediate v.text v.type)) else .ok ⟨op, [.immediate v]⟩ := by
  have hread : ofText? v.type (operandText b (.immediate v)) = if v = least then none else some v := by
    rw [← ofText?_text, text, String.toList_ofList]
    rfl
  simp only [Draft.instruction, kind, hread]
  by_cases hv : v = least
  · rw [if_pos hv, if_pos hv]
    rfl
  · rw [if_neg hv, if_neg hv]

/-- The texts of values are read one by one, up to the first that is refused. -/
theorem readValues_texts (vs : List Value) (place : Nat) :
    readValues place (vs.map type) (vs.map text) =
      if least ∈ vs then .error (.badArgument (place + vs.idxOf least) least.text least.type) else .ok vs := by
  induction vs generalizing place with
  | nil => rfl
  | cons v vs ih =>
    rw [List.map_cons, List.map_cons, readValues, ofText?_text]
    by_cases hv : v = least
    · subst hv
      rw [if_pos rfl, if_pos List.mem_cons_self, List.idxOf_cons_self]
      rfl
    · rw [if_neg hv]
      dsimp only
      rw [ih]
      by_cases hvs : least ∈ vs
      · rw [if_pos hvs, if_pos (List.mem_cons_of_mem v hvs), List.idxOf_cons_ne vs hv, Nat.add_right_comm,
          Nat.add_assoc]
        rfl
      · have hmem : least ∉ v :: vs := fun h => hvs ((List.mem_cons.1 h).resolve_left (Ne.symm hv))
        rw [if_neg hvs, if_neg hmem]
        rfl

/-- What is read from texts are the values that the texts denote. -/
theorem denoted_of_readValues {place : Nat} {ts : List ValueType} {words : List String} {vs : List Value}
    (h : readValues place ts words = .ok vs) :
    List.Forall₂ (fun p v => ofText? p.1 p.2.toList = some v) (ts.zip words) vs := by
  induction ts generalizing place words vs with
  | nil =>
    obtain rfl := Except.ok.inj h
    exact .nil
  | cons t ts ih =>
    cases words with
    | nil =>
      obtain rfl := Except.ok.inj h
      exact .nil
    | cons word words =>
      unfold readValues at h
      split at h
      · cases h
      · rename_i v hv
        obtain ⟨rest, hrest, rfl⟩ := map_eq_ok.1 h
        exact .cons hv (ih hrest)

open Assembly in
/-- The text of a value is read back as the value, in the row of a listing and in a list of arguments as well. There is
one exception, and it is refused everywhere. -/
theorem text_reads_back (v : Value) (vs : List Value) :
    ofText? v.type v.text.toList = (if v = least then none else some v) ∧
    (∀ (op : Opcode) (b : Body) (labels : List (List Char × Nat)) (l : Line), op.operandKind = .immediate v.type →
      Draft.instruction labels ⟨op, some (operandText b (.immediate v)), l⟩ =
        if v = least then .error (l.error (.badImmediate v.text v.type)) else .ok ⟨op, [.immediate v]⟩) ∧
    readArguments (vs.map type) (vs.map text) =
      if least ∈ vs then .error (.badArgument (vs.idxOf least) least.text least.type) else .ok vs := by
  refine ⟨ofText?_text v, fun op b labels l kind => instruction_constant kind b labels l, ?_⟩
  rw [readArguments, if_pos (by rw [List.length_map, List.length_map]), readValues_texts, Nat.zero_add]

open Assembly in
/-- The integer after the least one is read back from the row that loads it, and from an argument in front of the
largest. -/
theorem text_reads_back_next : Opcode.ldcI8.operandKind = .immediate .i64 ∧
    Draft.instruction [] ⟨.ldcI8, some "-9223372036854775807".toList, ⟨2, [], []⟩⟩ =
      .ok ⟨.ldcI8, [.immediate (.i64 (Int64.minValue + 1))]⟩ ∧
    readArguments [.i64, .i32] ["-9223372036854775807", "2147483647"] =
      .ok [.i64 (Int64.minValue + 1), .i32 Int32.maxValue] := by
  obtain ⟨-, hrow, hargs⟩ :=
    text_reads_back (.i64 (Int64.minValue + 1)) [.i64 (Int64.minValue + 1), .i32 Int32.maxValue]
  have htoken : operandText default (.immediate (.i64 (Int64.minValue + 1))) = "-9223372036854775807".toList := by
    decide +kernel
  have htexts : [.i64 (Int64.minValue + 1), .i32 Int32.maxValue].map text = ["-9223372036854775807", "2147483647"] := by
    decide +kernel
  have hreadable : least ∉ [.i64 (Int64.minValue + 1), .i32 Int32.maxValue] := by decide
  have hne : i64 (Int64.minValue + 1) ≠ least := by decide
  refine ⟨rfl, ?_, ?_⟩
  · rw [← htoken, hrow .ldcI8 default [] ⟨2, [], []⟩ rfl, if_neg hne]
  · rw [htexts, if_neg hreadable] at hargs
    exact hargs

/-- Not every value is read back from its text. -/
theorem not_text_reads_back : ¬ ∀ v : Value, ofText? v.type v.text.toList = some v := by
  intro h
  cases (h least).symm.trans ofText?_least

end Graft.Value
