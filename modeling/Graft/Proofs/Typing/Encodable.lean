import Graft.Proofs.Body.CanonicalBytes
import Graft.Proofs.Typing.Exactness

/-!
# Encodings of bodies whose operands resolve

If the operands of all instructions have the right shape and all labels resolve, a number that is too large for its field
is all that can keep a body from being encoded.

* `Body.extents` are the numbers that are written in an encoding, with their fields, in the order in which they are written.
* `Limited` says of a computation that it fails exactly with the first of some numbers that does not fit its field.
  `Body.limited_encode` says so of encodings.
* `Body.encode_of_verify` gives the bounds that decide whether a body with which nothing is wrong can be encoded.
-/

namespace Graft

/-- The error is about a number that does not fit its field. -/
inductive Error.Oversized : Error → Prop
  | field {name : String} {width n : Nat} (large : Encoding.capacity width ≤ n) : Oversized (.tooLarge name n)

namespace Encoding

open Typing

/-- A number and the field that it is written in: its name and its width in bytes. -/
structure Extent where
  name : String
  width : Nat
  size : Nat
deriving DecidableEq, Repr

namespace Extent

/-- The number fits its field. -/
def Fits (m : Extent) : Prop := m.size < capacity m.width

instance (m : Extent) : Decidable m.Fits := inferInstanceAs (Decidable (_ < _))

/-- The number of bytes of a text. -/
def ofText (s : String) : Extent := ⟨"string", 2, s.utf8ByteSize⟩

/-- The number of types of a list. -/
def ofTypes (ts : List ValueType) : Extent := ⟨"type list", 1, ts.length⟩

/-- The error for the first of some numbers that does not fit its field. -/
def overflow? (ms : List Extent) : Option Error := (ms.find? fun m => ¬m.Fits).map fun m => .tooLarge m.name m.size

theorem overflow?_append (ms ns : List Extent) : overflow? (ms ++ ns) = (overflow? ms).or (overflow? ns) := by
  rw [overflow?, List.find?_append, Option.map_or]
  rfl

theorem overflow?_eq_some_iff {ms : List Extent} {err : Error} : overflow? ms = some err ↔
    ∃ before m after, ms = before ++ m :: after ∧ (∀ k ∈ before, k.Fits) ∧ ¬m.Fits ∧ err = .tooLarge m.name m.size := by
  simp only [overflow?, Option.map_eq_some_iff, List.find?_eq_some_iff_append, decide_eq_true_eq, Bool.not_eq_true',
    decide_eq_false_iff_not, not_not]
  constructor
  · rintro ⟨m, ⟨hm, before, after, hms, hbefore⟩, rfl⟩
    exact ⟨before, m, after, hms, hbefore, hm, rfl⟩
  · rintro ⟨before, m, after, hms, hbefore, hm, rfl⟩
    exact ⟨m, ⟨hm, before, after, hms, hbefore⟩, rfl⟩

theorem overflow?_eq_none_iff {ms : List Extent} : overflow? ms = none ↔ ∀ m ∈ ms, m.Fits := by
  simp [overflow?]

end Extent

/-- A computation that fails exactly if one of some numbers does not fit its field, with the error for the first such
number. -/
structure Limited {α : Type} (x : Except Error α) (ms : List Extent) : Prop where
  error : ∀ err, x = .error err ↔ Extent.overflow? ms = some err

section Limited

variable {α β : Type} {b : Body} {x : Except Error α} {ms ns : List Extent}

theorem limited_ok (a : α) : Limited (.ok a) [] := ⟨fun _ => ⟨nofun, nofun⟩⟩

theorem limited_field (name : String) (width n : Nat) : Limited (field name width n) [⟨name, width, n⟩] := by
  refine ⟨fun err => ?_⟩
  by_cases hn : n < capacity width
  · simp [field, Extent.overflow?, Extent.Fits, hn]
  · simp [field, Extent.overflow?, Extent.Fits, hn, Nat.le_of_not_lt hn]

/-- What comes later fails only if what comes first does not. -/
theorem Limited.bind {g : α → Except Error β} (hx : Limited x ms) (hg : ∀ a, x = .ok a → Limited (g a) ns) :
    Limited (x >>= g) (ms ++ ns) := by
  refine ⟨fun err => ?_⟩
  rw [Extent.overflow?_append]
  cases x with
  | error err' =>
    rw [(hx.error err').1 rfl, Option.some_or, Option.some.injEq]
    exact ⟨Except.error.inj, congrArg Except.error⟩
  | ok a =>
    have hnone : Extent.overflow? ms = none := by
      rw [Option.eq_none_iff_forall_ne_some]
      intro err' herr'
      cases (hx.error err').2 herr'
    rw [hnone, Option.none_or]
    exact (hg a rfl).error err

theorem Limited.exists_ok_iff (hx : Limited x ms) : (∃ a, x = .ok a) ↔ ∀ m ∈ ms, m.Fits := by
  rw [← Extent.overflow?_eq_none_iff, Option.eq_none_iff_forall_ne_some]
  constructor
  · rintro ⟨a, rfl⟩ err herr
    cases (hx.error err).2 herr
  · intro hfits
    cases x with
    | error err => exact absurd ((hx.error err).1 rfl) (hfits err)
    | ok a => exact ⟨a, rfl⟩

theorem limited_text (s : String) : Limited (text s) [.ofText s] :=
  (limited_field "string" 2 _).bind fun _ _ => limited_ok _

theorem limited_types (ts : List ValueType) : Limited (types ts) [.ofTypes ts] :=
  (limited_field ..).bind fun _ _ => limited_ok _

theorem limited_binding (x : Binding) : Limited (binding x) [.ofText x.name] :=
  (limited_text x.name).bind fun _ _ => limited_ok _

theorem limited_concat {f : α → Except Error (List UInt8)} {g : α → List Extent} {as : List α}
    (hf : ∀ a ∈ as, Limited (f a) (g a)) : Limited (concat f as) (as.flatMap g) := by
  induction as with
  | nil => exact limited_ok _
  | cons a as ih =>
    have hrest : Limited (concat f as) (as.flatMap g) := ih fun c hc => hf c (List.mem_cons_of_mem a hc)
    rw [List.flatMap_cons, ← List.append_nil (as.flatMap g)]
    exact (hf a List.mem_cons_self).bind fun _ _ => hrest.bind fun _ _ => limited_ok _

theorem limited_concat_nil {f : α → Except Error (List UInt8)} {as : List α} (hf : ∀ a ∈ as, Limited (f a) []) :
    Limited (concat f as) [] := by
  have hconcat : Limited (concat f as) (as.flatMap fun _ => []) := limited_concat hf
  rwa [List.flatMap_eq_nil_iff.2 fun _ _ => rfl] at hconcat

private theorem limited_operand {i : Instruction} (hform : Formed b i) (hlength : b.length < capacity 4) (pos : Nat)
    {o : Operand} (ho : o ∈ i.operands) : Limited (operand b pos o) [] := by
  rcases hasShape_cases hform.shape with ⟨-, hi⟩ | ⟨v, -, hi⟩ | ⟨n, -, hi⟩ | ⟨t, -, hi⟩ | ⟨n, -, hi⟩
  all_goals rw [hi] at ho
  · cases ho
  · exact List.mem_singleton.1 ho ▸ limited_ok _
  · exact List.mem_singleton.1 ho ▸ limited_ok _
  · -- labels of instructions that are formed resolve, to positions that fit if the number of instructions does
    obtain rfl := List.mem_singleton.1 ho
    have hlabel : i.label? = some t := by rw [Instruction.label?, hi]
    obtain ⟨p, hp⟩ := Option.isSome_iff_exists.1 (positionOf?_isSome.2 (hform.named t hlabel))
    have hlt : p < capacity 4 := by
      have hp' : p < b.length := (List.findIdx?_eq_some_iff_getElem.1 hp).1
      omega
    have hfield : field "branch target" 4 p = .ok (littleEndian 4 p) := if_pos hlt
    simp only [operand, hp, hfield]
    exact limited_ok _
  · exact List.mem_singleton.1 ho ▸ limited_ok _

private theorem limited_instruction {i : Instruction} (hform : Formed b i) (hlength : b.length < capacity 4) (pos : Nat) :
    Limited (instruction b pos i) [] := by
  have hfew : i.operands.length < 256 := Nat.lt_of_le_of_lt hform.length_operands (by decide)
  have hoperands : Limited (concat (operand b pos) i.operands) [] :=
    limited_concat_nil fun o ho => limited_operand hform hlength pos ho
  unfold instruction
  rw [if_pos hfew]
  exact hoperands.bind fun _ _ => limited_ok _

end Limited

end Encoding

namespace Body

open Encoding

/-- The numbers that are written in an encoding, in the order in which they are written. -/
def extents (b : Body) : List Extent :=
  .ofText b.method.declaringType :: .ofText b.method.name :: .ofTypes b.signature.params ::
    .ofTypes b.signature.locals :: ⟨"external table", 2, b.externals.size⟩ ::
    (b.externals.toList.map (fun x => .ofText x.name) ++ [⟨"instruction count", 4, b.length⟩])

variable {b : Body}

/-- If the operands of all instructions have the right shape and all labels resolve, then only numbers that do not fit keep
a body from being encoded, and the first of them is reported. -/
theorem limited_encode (hform : ∀ i ∈ b.instrs, Typing.Formed b i) : Limited b.encode b.extents := by
  have hcode (hlength : b.length < capacity 4) :
      Limited (concat (fun i : Instruction × Nat => instruction b i.2 i.1) b.instrs.zipIdx) [] :=
    limited_concat_nil fun i hi => limited_instruction (hform i.1 (List.fst_mem_of_mem_zipIdx hi)) hlength i.2
  have hexternals : Limited (concat binding b.externals.toList) (b.externals.toList.map fun x => .ofText x.name) := by
    rw [List.map_eq_flatMap]
    exact limited_concat fun x _ => limited_binding x
  show Limited b.encode ([_] ++ ([_] ++ ([_] ++ ([_] ++ ([_] ++ (_ ++ ([_] ++ ([] ++ []))))))))
  exact (limited_text _).bind fun _ _ => (limited_text _).bind fun _ _ => (limited_types _).bind fun _ _ =>
    (limited_types _).bind fun _ _ => (limited_field ..).bind fun _ _ => hexternals.bind fun _ _ =>
      (limited_field ..).bind fun c hc => (hcode (field_eq_ok.1 hc).1).bind fun _ _ => limited_ok _

/-- A body whose operands have the right shape and whose labels resolve can be encoded, unless a number does not fit its
field. -/
theorem oversized_of_encode (hform : ∀ i ∈ b.instrs, Typing.Formed b i) {err : Error} (h : b.encode = .error err) :
    err.Oversized := by
  obtain ⟨-, m, -, -, -, hm, rfl⟩ := Extent.overflow?_eq_some_iff.1 (((limited_encode hform).error err).1 h)
  exact .field (Nat.le_of_not_lt hm)

/-- A body with which nothing is wrong can be encoded exactly if these numbers are within their bounds. Otherwise the first
of them that is not, in the order in which they are written, is reported; no label and no operands are. -/
theorem encode_of_verify (h : b.verify = .ok ()) :
    ((∃ bytes, b.encode = .ok bytes) ↔ b.method.declaringType.utf8ByteSize ≤ 65535 ∧
      b.method.name.utf8ByteSize ≤ 65535 ∧ b.signature.params.length ≤ 255 ∧ b.signature.locals.length ≤ 255 ∧
      b.externals.size ≤ 65535 ∧ (∀ x ∈ b.externals, x.name.utf8ByteSize ≤ 65535) ∧ b.length ≤ 4294967295) ∧
    (∀ err, b.encode = .error err ↔ ∃ before m after, b.extents = before ++ m :: after ∧ (∀ k ∈ before, k.Fits) ∧
      ¬m.Fits ∧ err = .tooLarge m.name m.size) ∧
    (∀ label pos, b.encode ≠ .error (.unresolvedLabel label pos)) ∧ ∀ op pos, b.encode ≠ .error (.badOperands op pos) := by
  have hw := Typing.wellTyped_of_findings (Typing.verify_eq_ok.1 h)
  have hform (i : Instruction) (hi : i ∈ b.instrs) : Typing.Formed b i := (hw.fits i hi).formed
  have hlimited := limited_encode hform
  refine ⟨?_, fun err => (hlimited.error err).trans Extent.overflow?_eq_some_iff, fun label pos herr => ?_,
    fun op pos herr => ?_⟩
  · rw [hlimited.exists_ok_iff]
    have hcapacity : capacity 1 = 256 ∧ capacity 2 = 65536 ∧ capacity 4 = 4294967296 := by decide
    simp only [extents, List.forall_mem_cons, List.forall_mem_append, List.forall_mem_map, Extent.Fits, Extent.ofText,
      Extent.ofTypes, hcapacity, Array.mem_toList_iff, Nat.lt_succ_iff, List.not_mem_nil, false_imp_iff, implies_true,
      and_true]
  · cases oversized_of_encode hform herr
  · cases oversized_of_encode hform herr

/-- A method with more parameters and more locals than the counts of their lists can hold. -/
def sprawling : Body where
  method := ⟨"A", "sprawl"⟩
  signature := ⟨List.replicate 256 .i32, List.replicate 300 .bool, none⟩
  entries := [⟨⟨0⟩, .ldloc, [.index 299]⟩, ⟨⟨1⟩, .pop, []⟩, ⟨⟨2⟩, .ret, []⟩]
  nextId := 3

/-- Nothing is wrong with the method, and its encoding fails with the parameters, which are written first. -/
theorem encode_of_verify_sprawling : sprawling.verify = .ok () ∧ (¬∃ bytes, sprawling.encode = .ok bytes) ∧
    sprawling.encode = .error (.tooLarge "type list" 256) := by
  have hverify : sprawling.verify = .ok () := by decide +kernel
  obtain ⟨hok, herror, -, -⟩ := encode_of_verify hverify
  refine ⟨hverify, fun hbytes => ?_, (herror _).2 ?_⟩
  · exact absurd (hok.1 hbytes).2.2.1 (by decide +kernel)
  · refine ⟨[.ofText "A", .ofText "sprawl"], .ofTypes sprawling.signature.params,
      [.ofTypes sprawling.signature.locals, ⟨"external table", 2, 0⟩, ⟨"instruction count", 4, 3⟩], ?_, ?_, ?_, ?_⟩
    · rfl
    · decide +kernel
    · decide +kernel
    · exact congrArg (Error.tooLarge "type list") List.length_replicate.symm

end Body

end Graft
