import Graft.Proofs.Typing.Control

/-!
# Operands that fit

The first stage of verification finds nothing exactly if the operands of all instructions fit
(`operandFindings_eq_nil`).  The other lemmas say what an instruction that fits resolves to in its body.
-/

namespace Graft.Typing

variable {b : Body} {i : Instruction}

private theorem operandKind_eq_label {op : Opcode} : op.operandKind = .label ↔ op.isBranch = true := by
  cases op <;> simp [Opcode.isBranch, Opcode.operandKind]

theorem positionOf?_isSome {t : InstrId} : (b.positionOf? t).isSome = true ↔ t ∈ b.entries.map Entry.id := by
  simp [Body.positionOf?, List.findIdx?_isSome]

/-- The shapes of operands that opcodes take. -/
theorem hasShape_cases (h : i.hasShape = true) :
    (i.op.operandKind = .none ∧ i.operands = []) ∨
    (∃ v, i.op.operandKind = .immediate v.type ∧ i.operands = [.immediate v]) ∨
    (∃ n, i.op.operandKind = .index ∧ i.operands = [.index n]) ∨
    (∃ t, i.op.operandKind = .label ∧ i.operands = [.label t]) ∨
    (∃ n, i.op.operandKind = .external ∧ i.operands = [.external n]) := by
  unfold Instruction.hasShape at h
  split at h
  · rename_i hk ho; exact .inl ⟨hk, ho⟩
  · rename_i t v hk ho
    have hv : v.type = t := by simpa using h
    exact .inr (.inl ⟨v, by rw [hk, hv], ho⟩)
  · rename_i n hk ho; exact .inr (.inr (.inl ⟨n, hk, ho⟩))
  · rename_i t hk ho; exact .inr (.inr (.inr (.inl ⟨t, hk, ho⟩)))
  · rename_i n hk ho; exact .inr (.inr (.inr (.inr ⟨n, hk, ho⟩)))
  · simp at h

/-- An instruction of the right shape that holds a constant loads it. -/
theorem operandKind_of_immediate? (h : i.hasShape = true) {v : Value} (hv : i.immediate? = some v) :
    i.op.operandKind = .immediate v.type := by
  obtain ⟨op, operands⟩ := i
  rcases hasShape_cases h with ⟨-, ho⟩ | ⟨w, hk, ho⟩ | ⟨n, -, ho⟩ | ⟨t, -, ho⟩ | ⟨n, -, ho⟩ <;> dsimp only at ho <;>
    subst ho
  · cases hv
  · obtain rfl : w = v := Option.some.inj hv
    exact hk
  · cases hv
  · cases hv
  · cases hv

theorem Fits.hasShape (h : Fits b i) : i.hasShape = true := by
  cases h with
  | plain kind => simp [Instruction.hasShape, kind]
  | constant kind => simp [Instruction.hasShape, kind]
  | argument kind => rcases kind with rfl | rfl <;> rfl
  | localVar kind => rcases kind with rfl | rfl <;> rfl
  | external => rfl
  | branch kind => simp [Instruction.hasShape, operandKind_eq_label.2 kind]

/-- The first stage has nothing to say about an instruction exactly if its operands fit. -/
theorem operandCause?_eq_none : operandCause? b i = none ↔ Fits b i := by
  obtain ⟨op, operands⟩ := i
  constructor
  · intro h
    unfold operandCause? at h
    split at h
    · simp at h
    · rename_i hs
      rw [Bool.not_eq_true, Bool.not_eq_false'] at hs
      rcases hasShape_cases hs with ⟨hk, ho⟩ | ⟨v, hk, ho⟩ | ⟨n, hk, ho⟩ | ⟨t, hk, ho⟩ | ⟨n, hk, ho⟩ <;>
        dsimp only at hk ho <;> subst ho
      · exact .plain hk
      · exact .constant hk
      · cases op <;> simp [Opcode.operandKind] at hk <;> simp at h
        · exact .argument (.inl rfl) h
        · exact .argument (.inr rfl) h
        · exact .localVar (.inl rfl) h
        · exact .localVar (.inr rfl) h
      · have hb := operandKind_eq_label.1 hk
        refine .branch hb (positionOf?_isSome.1 ?_)
        cases op <;> simp [Opcode.operandKind] at hk <;> exact Option.isSome_iff_ne_none.2 (by simpa using h)
      · cases op <;> simp [Opcode.operandKind] at hk
        exact .external (by simpa using h)
  · intro h
    have hs := h.hasShape
    unfold operandCause?
    rw [hs]
    cases h with
    | plain kind => cases op <;> rfl
    | constant kind => cases op <;> rfl
    | argument kind bound => rcases kind with rfl | rfl <;> simp [bound]
    | localVar kind bound => rcases kind with rfl | rfl <;> simp [bound]
    | external bound => simp [bound]
    | branch kind named =>
      have hp := positionOf?_isSome.2 named
      cases op <;> simp [hp]

/-- The first stage finds nothing exactly if the operands of all instructions fit. -/
theorem operandFindings_eq_nil : operandFindings b = [] ↔ ∀ i ∈ b.instrs, Fits b i := by
  simp only [operandFindings, List.filterMap_eq_nil_iff, Option.map_eq_none_iff, operandCause?_eq_none]
  constructor
  · intro h i hi
    obtain ⟨n, hn, rfl⟩ := List.mem_iff_getElem.1 hi
    exact h (b.instrs[n], n) (by simp [List.mem_zipIdx_iff_getElem?, hn])
  · rintro h ⟨i, n⟩ hm
    exact h i (List.fst_mem_of_mem_zipIdx hm)

/-! ### What operands resolve to -/

/-- What the rule of an instruction looks up is there: the constant that it loads, the type of its slot, or the external
value that it takes. -/
def resolves (b : Body) (i : Instruction) : Bool :=
  match i.op with
  | .ldcI4 | .ldcI8 | .ldcBool => i.immediate?.isSome
  | .ldarg | .starg => (i.slot?.bind fun n => b.signature.params[n]?).isSome
  | .ldloc | .stloc => (i.slot?.bind fun n => b.signature.locals[n]?).isSome
  | .call => (b.binding? i).isSome
  | _ => true

theorem Fits.resolves (h : Fits b i) : resolves b i = true := by
  cases h with
  | @plain op kind => cases op <;> first | rfl | cases kind
  | @constant op v kind => cases op <;> first | rfl | cases kind
  | argument kind bound => rcases kind with rfl | rfl <;> simp [Typing.resolves, Instruction.slot?, bound]
  | localVar kind bound => rcases kind with rfl | rfl <;> simp [Typing.resolves, Instruction.slot?, bound]
  | external bound => simp [Typing.resolves, Body.binding?, Instruction.external?, bound]
  | @branch op t kind => cases op <;> first | rfl | cases kind

/-- The operands of an instruction have the right shape, and a label among them resolves. Slots and rows may be missing. -/
structure Formed (b : Body) (i : Instruction) : Prop where
  shape : i.hasShape = true
  named : ∀ t, i.label? = some t → t ∈ b.entries.map Entry.id

theorem Fits.formed (h : Fits b i) : Formed b i := by
  refine ⟨h.hasShape, fun t ht => ?_⟩
  cases h with
  | branch kind named => exact Option.some.inj ht ▸ named
  | _ => cases ht

/-- The label of a branch that fits resolves. -/
theorem Fits.target (h : Fits b i) (hb : i.op.isBranch = true) :
    ∃ t p, i.label? = some t ∧ b.positionOf? t = some p ∧ b.target? i = some p := by
  cases h with
  | plain kind => rw [operandKind_eq_label.2 hb] at kind; cases kind
  | constant kind => rw [operandKind_eq_label.2 hb] at kind; cases kind
  | argument kind => rcases kind with rfl | rfl <;> cases hb
  | localVar kind => rcases kind with rfl | rfl <;> cases hb
  | external => cases hb
  | branch kind named =>
    obtain ⟨p, hp⟩ := Option.isSome_iff_exists.1 (positionOf?_isSome.2 named)
    exact ⟨_, p, rfl, hp, hp⟩

/-- Only branches have labels. -/
theorem Fits.label?_eq_none (h : Fits b i) (hb : i.op.isBranch = false) : i.label? = none := by
  cases h with
  | branch kind => rw [kind] at hb; cases hb
  | _ => rfl

theorem Formed.length_operands (h : Formed b i) : i.operands.length ≤ 1 := by
  rcases hasShape_cases h.shape with ⟨-, ho⟩ | ⟨_, -, ho⟩ | ⟨_, -, ho⟩ | ⟨_, -, ho⟩ | ⟨_, -, ho⟩ <;> simp [ho]

theorem Fits.length_operands (h : Fits b i) : i.operands.length ≤ 1 := h.formed.length_operands

theorem Fits.mem_of_label? (h : Fits b i) {t : InstrId} (ht : i.label? = some t) : t ∈ b.entries.map Entry.id :=
  h.formed.named t ht

theorem Fits.lt_of_external? (h : Fits b i) {n : Nat} (hn : i.external? = some n) : n < b.externals.size := by
  cases h with
  | external bound => exact Option.some.inj hn ▸ bound
  | _ => cases hn

theorem Fits.op_of_immediate? (h : Fits b i) {v : Value} (hv : i.immediate? = some v) :
    i.op = .ldcI4 ∨ i.op = .ldcI8 ∨ i.op = .ldcBool := by
  cases h with
  | @constant op v' kind => cases op <;> simp [Opcode.operandKind] at kind ⊢
  | _ => cases hv

end Graft.Typing
