import Graft.Form.Instruction
import Graft.Proofs.Assembly.Headers
import Graft.Proofs.Assembly.Tokens
import Graft.Proofs.Form.Basic

/-!
# Forms of instructions read what they write

Values, types, opcodes and signatures are always read from what is written for them. For methods, operands, instructions
and violations this holds of those that were read: a method may have a name that ends elsewhere, and a number of an
instruction may have more than 32 bits.
-/

namespace Graft

open Json

/-! ### Types, opcodes and values -/

theorem ValueType.ofKeyword?_keyword (t : ValueType) : ofKeyword? t.keyword = some t := by
  cases t <;> decide

theorem ValueType.returns_form (t : ValueType) : form.Returns t 0 :=
  ⟨ofKeyword?_keyword t, .str _, Nat.le_refl 0⟩

theorem Opcode.returns_form (op : Opcode) : form.Returns op 0 :=
  ⟨ofText?_mnemonic op, .str _, Nat.le_refl 0⟩

theorem InWord.fits64 {z : Int} (h : InWord z) : Fits64 z := by
  unfold InWord at h
  unfold Fits64
  omega

theorem InHalfWord.fits64 {z : Int} (h : InHalfWord z) : Fits64 z := by
  unfold InHalfWord at h
  unfold Fits64
  omega

namespace Value

/-- What stands for a value next to its type. -/
private def content : Value → Json
  | i32 n => .int n.toInt
  | i64 n => .int n.toInt
  | bool b => .bool b

private theorem ofContent?_content (v : Value) : ofContent? v.type (content v) = some v := by
  cases v with
  | i32 n =>
    show (if InHalfWord n.toInt then some (i32 (Int32.ofInt n.toInt)) else none) = _
    rw [if_pos (.of_toInt n), Int32.ofInt_toInt]
  | i64 n =>
    show (if InWord n.toInt then some (i64 (Int64.ofInt n.toInt)) else none) = _
    rw [if_pos (.of_toInt n), Int64.ofInt_toInt]
  | bool b => rfl

private theorem write_form (v : Value) : form.write v = .obj (["type", "value"].zip [.str v.type.keyword, content v]) := by
  cases v <;> rfl

/-- A value is read from its form, in a pattern as elsewhere. -/
theorem ofJson?_write (inPattern : Bool) (v : Value) : ofJson? inPattern (form.write v) = some v := by
  have hrecord : (form.write v).record? _ 2 = _ := record?_zip (write_form v) (by decide) rfl
  have htype : ValueType.ofJson? inPattern (.str v.type.keyword) = some v.type := ValueType.ofKeyword?_keyword _
  rw [write_form] at hrecord ⊢
  simp only [ofJson?, hrecord, List.map_cons, List.map_nil, htype, Option.bind_some, ofContent?_content]

theorem returns_form (v : Value) : form.Returns v 1 := by
  refine Form.returns_obj (write_form v) (ofJson?_write false v) fun j hj => ?_
  rcases List.mem_cons.1 hj with rfl | hj
  · exact ⟨.str _, Nat.le_refl 0⟩
  · obtain rfl := List.mem_singleton.1 hj
    cases v with
    | i32 n => exact ⟨.int (InHalfWord.of_toInt n).fits64, Nat.le_refl 0⟩
    | i64 n => exact ⟨.int (InWord.of_toInt n).fits64, Nat.le_refl 0⟩
    | bool b => exact ⟨.bool b, Nat.le_refl 0⟩

end Value

/-! ### Numbers -/

namespace Form

theorem returns_natural {least bound n : Nat} (hlow : least ≤ n) (hhigh : n < bound) (hbound : bound ≤ UInt64.size) :
    (natural least bound).Returns n 0 := by
  refine ⟨?_, .int ⟨?_, ?_⟩, Nat.le_refl 0⟩
  · show (if (least : Int) ≤ n ∧ (n : Int) < bound then some (n : Int).toNat else none) = _
    rw [if_pos ⟨Int.ofNat_le.2 hlow, Int.ofNat_lt.2 hhigh⟩, Int.toNat_natCast]
  · omega
  · have hsize : UInt64.size = 2 ^ 64 := rfl
    omega

theorem roundTrips_natural {least bound : Nat} (hbound : bound ≤ UInt64.size) : (natural least bound).RoundTrips 0 := by
  intro j n h
  cases j with
  | int z =>
    change (if (least : Int) ≤ z ∧ z < bound then some z.toNat else none) = some n at h
    split at h
    · obtain rfl := Option.some.inj h
      exact (returns_natural (by omega) (by omega) hbound).mono (Nat.zero_le _)
    · cases h
  | _ => cases h

theorem returns_uint16 (n : UInt16) : uint16.Returns n 0 := by
  have hsize : UInt16.size ≤ UInt64.size := by decide
  obtain ⟨hread, hplain, hdepth⟩ := returns_natural (Nat.zero_le n.toNat) n.toNat_lt hsize
  refine ⟨?_, hplain, hdepth⟩
  have hnumber : (natural 0 UInt16.size).read (.int n.toNat) = some n.toNat := hread
  simp only [uint16, hnumber, Option.map_some, UInt16.ofNat_toNat]

theorem returns_string (s : String) (d : Nat) : string.Returns s d := ⟨rfl, .str s, Nat.zero_le d⟩

end Form

theorem InstrId.roundTrips_form : form.RoundTrips 0 := by
  intro j t h
  obtain ⟨n, hn, rfl⟩ := Option.map_eq_some_iff.1 h
  obtain ⟨hread, hplain, hdepth⟩ := Form.roundTrips_natural (by decide) _ _ hn
  refine ⟨?_, hplain, hdepth⟩
  have hnumber : (Form.natural 0 UInt32.size).read (.int n) = some n := hread
  simp only [form, hnumber, Option.map_some]

/-! ### Methods and signatures -/

/-- A method that was read is read again from its written form, without the blanks that were around it. -/
theorem MethodId.roundTrips_form : form.RoundTrips 0 := by
  intro j id h
  cases j with
  | str s =>
    change ofText? s.toList = some id at h
    refine ⟨?_, .str _, Nat.zero_le _⟩
    show ofText? id.text.toList = some id
    rw [← h, text_of_ofText? h, ofText?, ofText?, (Text.trimmed_trim _).trim_eq]
  | _ => cases h

theorem Signature.returns_form (s : Signature) : form.Returns s 2 := by
  have hparams := Form.returns_list fun t (_ : t ∈ s.params) => t.returns_form
  have hlocals := Form.returns_list fun t (_ : t ∈ s.locals) => t.returns_form
  have hreturns := Form.nullable_writeNullable (a := s.returns) rfl fun t _ => t.returns_form
  have hwrite : form.write s = .obj (["params", "locals", "returns"].zip [ValueType.form.list.write s.params,
    ValueType.form.list.write s.locals, ValueType.form.writeNullable s.returns]) := rfl
  refine Form.returns_record 3 hwrite (by decide) rfl (fun j hrecord => ?_) fun j hj => ?_
  · simp only [form, hrecord, List.map_cons, List.map_nil, Form.required_some, Form.optional_some, hparams.read,
      hlocals.read, hreturns.1]
    rfl
  · simp only [List.mem_cons, List.not_mem_nil, or_false] at hj
    rcases hj with rfl | rfl | rfl
    · exact hparams.field
    · exact hlocals.field
    · exact ⟨hreturns.2.1, Nat.le_succ_of_le hreturns.2.2⟩

/-! ### Operands and instructions -/

namespace Operand

/-- An operand is written under the name of its kind. -/
private theorem returns_form {o : Operand} {name : String} {j : Json} {d : Nat}
    (hwrite : form.write o = .obj [(name, j)]) (hread : form.read (.obj [(name, j)]) = some o) (hplain : j.Plain)
    (hdepth : j.depth ≤ d) : form.Returns o (d + 1) := by
  have hfields : form.write o = .obj ([name].zip [j]) := hwrite
  refine Form.returns_obj hfields (hwrite ▸ hread) fun k hk => ?_
  obtain rfl := List.mem_singleton.1 hk
  exact ⟨hplain, hdepth⟩

/-- An operand that was read is read again; the number of a label may have been read from more than 32 bits. -/
theorem roundTrips_form : form.RoundTrips 2 := by
  intro j o h
  refine Form.Returns.mono (d := 2) ?_ (Nat.le_max_left ..)
  unfold form at h
  dsimp only at h
  split at h
  · obtain ⟨v, -, rfl⟩ := Option.map_eq_some_iff.1 h
    have hv := v.returns_form
    exact returns_form rfl (by simp only [form, hv.read, Option.map_some]) hv.plain hv.depth
  · obtain ⟨t, ht, rfl⟩ := Option.map_eq_some_iff.1 h
    have ht := InstrId.roundTrips_form _ _ ht
    exact returns_form rfl (by simp only [form, ht.read, Option.map_some]) ht.plain (Nat.zero_le 1)
  · obtain ⟨n, -, rfl⟩ := Option.map_eq_some_iff.1 h
    have hn := Form.returns_uint16 n
    exact returns_form rfl (by simp only [form, hn.read, Option.map_some]) hn.plain (Nat.zero_le 1)
  · obtain ⟨n, -, rfl⟩ := Option.map_eq_some_iff.1 h
    have hn := Form.returns_uint16 n
    exact returns_form rfl (by simp only [form, hn.read, Option.map_some]) hn.plain (Nat.zero_le 1)
  · cases h

end Operand

namespace Instruction

theorem returns_form {i : Instruction} {d : Nat} (hoperands : Operand.form.list.Returns i.operands d) :
    form.Returns i (d + 1) := by
  have hop := i.op.returns_form.mono (Nat.zero_le d)
  have hwrite : form.write i = .obj (["op", "operands"].zip [Opcode.form.write i.op,
    Operand.form.list.write i.operands]) := rfl
  refine Form.returns_record 2 hwrite (by decide) rfl (fun j hrecord => ?_) fun j hj => ?_
  · simp only [form, hrecord, List.map_cons, List.map_nil, Form.required_some, hop.read, hoperands.read]
    rfl
  · simp only [List.mem_cons, List.not_mem_nil, or_false] at hj
    rcases hj with rfl | rfl
    · exact hop.field
    · exact hoperands.field

theorem roundTrips_form : form.RoundTrips 4 := by
  intro j i h
  unfold form at h
  dsimp only at h
  split at h
  · rename_i hrecord
    obtain ⟨n, hn, hfields⟩ := exists_depth_of_record? hrecord
    obtain ⟨op, -, h⟩ := Option.bind_eq_some_iff.1 h
    obtain ⟨operands, hoperands, h⟩ := Option.bind_eq_some_iff.1 h
    obtain rfl := Option.some.inj h
    have hoperands := Operand.roundTrips_form.list.required (hfields _ (by simp)) hoperands
    exact (returns_form hoperands).mono (by omega)
  · cases h

end Instruction

namespace Violation

theorem returns_form {v : Violation} {d : Nat} (hposition : ∀ n ∈ v.position, (Form.natural 0 UInt64.size).Returns n d) :
    form.Returns v (d + 1) := by
  have hposition := Form.nullable_writeNullable rfl hposition
  have hmessage := Form.returns_string v.message d
  have hwrite : form.write v = .obj (["position", "message"].zip
    [(Form.natural 0 UInt64.size).writeNullable v.position, Form.string.write v.message]) := rfl
  refine Form.returns_record 2 hwrite (by decide) rfl (fun j hrecord => ?_) fun j hj => ?_
  · simp only [form, hrecord, List.map_cons, List.map_nil, Form.required_some, hposition.1, hmessage.read]
    rfl
  · simp only [List.mem_cons, List.not_mem_nil, or_false] at hj
    rcases hj with rfl | rfl
    · exact hposition.2
    · exact hmessage.field

theorem roundTrips_form : form.RoundTrips 1 := by
  intro j v h
  unfold form at h
  dsimp only at h
  split at h
  · rename_i hrecord
    obtain ⟨n, hn, hfields⟩ := exists_depth_of_record? hrecord
    obtain ⟨position, hposition, h⟩ := Option.bind_eq_some_iff.1 h
    obtain ⟨message, -, h⟩ := Option.bind_eq_some_iff.1 h
    obtain rfl := Option.some.inj h
    have hposition := (Form.roundTrips_natural (Nat.le_refl _)).nullable (hfields _ (by simp)) hposition
    exact (returns_form hposition).mono (by omega)
  · cases h

end Violation

end Graft
