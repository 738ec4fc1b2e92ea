import Graft.Proofs.Failure
import Graft.Proofs.Typing.Worklist

/-!
# What can be found in a body

If all operands have the right shape, all labels resolve and no external value is called, there is not much left that can
be wrong with a body (`findings_remaining`).

* `Cause.OfFlow` are the rules about control and stacks, and `FlowRule` their kinds.
* `next_stack` says that an instruction whose operands fit breaks no rule but those about its stack, and
  `flowFindings_ofFlow` that only rules about control and stacks are found to be broken in the second stage.
-/

namespace Graft.Typing

variable {b : Body} {i : Instruction} {s : Stack} {op : Opcode}

/-- The kinds of rules about control and stacks. -/
inductive FlowRule where
  /-- Control does not run past the last instruction. -/
  | fallOff
  /-- An instruction finds on its stack what it takes. -/
  | stack
  /-- All paths into a block bring the same stack. -/
  | merge
deriving DecidableEq, Repr

/-- The kind of a rule, if it is about control or stacks. -/
def Cause.flowRule? : Cause → Option FlowRule
  | fallsOff _ => some .fallOff
  | underflow _ | unexpected .. | notNumeric .. | notComparable .. | notAlike .. | leftOver _ => some .stack
  | disagreement .. => some .merge
  | emptyBody | badOperands _ | noArgument .. | noLocal .. | noExternal _ | noTarget _ => none

/-- The rules about control and stacks. -/
def Cause.OfFlow : Cause → Prop
  | fallsOff _ | underflow _ | unexpected .. | notNumeric .. | notComparable .. | notAlike .. | leftOver _
  | disagreement .. => True
  | emptyBody | badOperands _ | noArgument .. | noLocal .. | noExternal _ | noTarget _ => False

theorem Cause.ofFlow_of_flowRule? {c : Cause} {r : FlowRule} (h : c.flowRule? = some r) : c.OfFlow := by
  cases c <;> trivial

/-! ### Rules that instructions break -/

private theorem pop_stack : FailsOnly (fun c => c.flowRule? = some .stack) (pop op s) := by
  cases s with
  | nil => exact failsOnly_error rfl
  | cons t s => exact failsOnly_ok _

private theorem popTwo_stack : FailsOnly (fun c => c.flowRule? = some .stack) (popTwo op s) :=
  pop_stack.bind fun _ => pop_stack.bind fun _ => failsOnly_ok _

private theorem popExpecting_stack {t : ValueType} : FailsOnly (fun c => c.flowRule? = some .stack) (popExpecting op t s) := by
  refine pop_stack.bind fun ⟨found, s⟩ => ?_
  dsimp only
  split
  · exact failsOnly_ok _
  · exact failsOnly_error rfl

/-- A comparison of two types goes well, or breaks a rule about stacks. -/
private theorem guard_stack {p : Prop} [Decidable p] {s : Stack} {c : Cause} (hc : c.flowRule? = some .stack) :
    FailsOnly (fun c : Cause => c.flowRule? = some .stack) (if p then pure s else throw c) := by
  split
  · exact failsOnly_ok _
  · exact failsOnly_error hc

/-- The slot that an instruction names has a type, if it resolves. -/
private theorem slotType_stack {types : List ValueType} (h : (i.slot?.bind fun n => types[n]?).isSome = true) :
    FailsOnly (fun c => c.flowRule? = some .stack) (slotType i types) := by
  obtain ⟨t, ht⟩ := Option.isSome_iff_exists.1 h
  rw [slotType, ht]
  exact failsOnly_ok t

/-- An instruction whose operands fit breaks no rule but those about stacks. -/
theorem next_stack (h : Fits b i) : FailsOnly (fun c => c.flowRule? = some .stack) (next b i s) := by
  have hresolves := h.resolves
  unfold resolves at hresolves
  unfold next
  split
  case h_1 | h_2 => exact failsOnly_ok _
  case h_3 hop | h_4 hop | h_5 hop =>
    simp only [hop] at hresolves
    obtain ⟨v, hv⟩ := Option.isSome_iff_exists.1 hresolves
    rw [hv]
    exact failsOnly_ok _
  case h_6 hop | h_7 hop =>
    simp only [hop] at hresolves
    exact (slotType_stack hresolves).bind fun _ => failsOnly_ok _
  case h_8 hop | h_9 hop =>
    simp only [hop] at hresolves
    exact (slotType_stack hresolves).bind fun _ => popExpecting_stack
  case h_10 hop =>
    simp only [hop] at hresolves
    obtain ⟨x, hx⟩ := Option.isSome_iff_exists.1 hresolves
    rw [hx]
    exact failsOnly_ok _
  case h_11 | h_12 | h_13 | h_14 | h_15 | h_16 | h_17 | h_18 | h_19 | h_20 =>
    exact popTwo_stack.bind fun _ => guard_stack rfl
  case h_21 | h_22 | h_23 | h_24 | h_25 => exact pop_stack.bind fun _ => failsOnly_ok _
  case h_26 =>
    cases b.signature.returns with
    | none => exact guard_stack rfl
    | some t => exact popExpecting_stack.bind fun _ => guard_stack rfl

/-! ### Findings -/

/-- A list of instructions stops at one of them that breaks a rule. -/
theorem cause_of_through {is : List Instruction} {pos : Nat} {f : Finding} (h : through b pos is s = .error f) :
    ∃ i ∈ is, ∃ s', next b i s' = .error f.cause := by
  induction is generalizing pos s with
  | nil => cases h
  | cons i is ih =>
    unfold through at h
    split at h
    · obtain ⟨i', hi', hnext⟩ := ih h
      exact ⟨i', List.mem_cons_of_mem i hi', hnext⟩
    · rename_i c hc
      obtain rfl := Except.error.inj h
      exact ⟨i, List.mem_cons_self, s, hc⟩

/-- What is found when a block is looked at is about stacks. -/
private theorem flowRule?_of_mem_visit (hfits : ∀ i ∈ b.instrs, Fits b i) {f : Flow} {k : Block}
    (hf : ∀ x ∈ f.findings, x.cause.flowRule? = some .stack ∨ x.cause.flowRule? = some .merge) :
    ∀ x ∈ (Flow.visit b k f).findings, x.cause.flowRule? = some .stack ∨ x.cause.flowRule? = some .merge := by
  refine Flow.visit_keeps
    (P := fun f => ∀ x ∈ f.findings, x.cause.flowRule? = some .stack ∨ x.cause.flowRule? = some .merge) hf ?_ ?_
  · intro finding hfinding x hx
    obtain ⟨i, hi, s', hnext⟩ := cause_of_through hfinding
    have hmem : i ∈ b.instrs := List.mem_of_mem_drop (List.mem_of_mem_take hi)
    rcases List.mem_append.1 hx with hx | hx
    · exact hf x hx
    · obtain rfl := List.mem_singleton.1 hx
      exact .inl ((next_stack (hfits i hmem)).error _ hnext)
  · intro g s q _ hg x hx
    rcases Flow.join_cases s g q with ⟨-, hjoin⟩ | ⟨_, -, -, hjoin⟩ | ⟨first, -, -, -, hjoin⟩ <;> rw [hjoin] at hx
    · exact hg x hx
    · exact hg x hx
    · rcases List.mem_append.1 hx with hx | hx
      · exact hg x hx
      · obtain rfl := List.mem_singleton.1 hx
        exact .inr rfl

/-- What is found when stacks are carried along the blocks is about stacks. -/
theorem flowRule?_of_mem_drain (hne : b.entries ≠ []) (hfits : ∀ i ∈ b.instrs, Fits b i) :
    ∀ x ∈ (Flow.drain b (blocks b) (blocks b).length { entries := [(0, [])], queue := [0] }).findings,
      x.cause.flowRule? = some .stack ∨ x.cause.flowRule? = some .merge := by
  have hstart : ∀ x ∈ ({ entries := [(0, [])], queue := [0] } : Flow).findings,
      x.cause.flowRule? = some .stack ∨ x.cause.flowRule? = some .merge := List.forall_mem_nil _
  exact (Flow.drain_induction
    (P := fun f => ∀ x ∈ f.findings, x.cause.flowRule? = some .stack ∨ x.cause.flowRule? = some .merge)
    (Flow.Tracked.start hne) hstart fun f p rest k s hP _ _ _ _ => flowRule?_of_mem_visit hfits hP).1

theorem flowRule?_of_mem_fallOffFindings : ∀ x ∈ fallOffFindings b, x.cause.flowRule? = some .fallOff := by
  intro x hx
  obtain ⟨k, -, hk⟩ := List.mem_filterMap.1 hx
  split at hk
  · exact Option.some.inj hk ▸ rfl
  · cases hk

/-- The second stage finds only that rules about control and stacks are broken. -/
theorem flowFindings_ofFlow (hne : b.entries ≠ []) (hfits : ∀ i ∈ b.instrs, Fits b i) :
    ∀ f ∈ flowFindings b, f.cause.OfFlow := by
  intro f hf
  rcases List.mem_append.1 hf with hf | hf
  · exact Cause.ofFlow_of_flowRule? (flowRule?_of_mem_fallOffFindings f hf)
  · exact (flowRule?_of_mem_drain hne hfits f hf).elim Cause.ofFlow_of_flowRule? Cause.ofFlow_of_flowRule?

/-- What may be wrong with a body whose operands have the right shape, whose labels resolve and which calls no external
value: it is empty, an instruction names a slot that there is not, or a rule about control or stacks is broken. -/
inductive Remaining (b : Body) : Finding → Prop
  | empty (none : b.entries = []) : Remaining b ⟨.none, .emptyBody⟩
  | argument {pos : Nat} {op : Opcode} {n : UInt16} (here : b.instr? pos = some ⟨op, [.index n]⟩)
      (kind : op = .ldarg ∨ op = .starg) (missing : b.signature.params.length ≤ n.toNat) :
      Remaining b ⟨some pos, .noArgument n.toNat b.signature.params.length⟩
  | localVar {pos : Nat} {op : Opcode} {n : UInt16} (here : b.instr? pos = some ⟨op, [.index n]⟩)
      (kind : op = .ldloc ∨ op = .stloc) (missing : b.signature.locals.length ≤ n.toNat) :
      Remaining b ⟨some pos, .noLocal n.toNat b.signature.locals.length⟩
  | flow {f : Finding} (cause : f.cause.OfFlow) : Remaining b f

private theorem operandCause?_remaining (hform : Formed b i) (hcall : i.op ≠ .call) {pos : Nat} (here : b.instr? pos = some i)
    {c : Cause} (hc : operandCause? b i = some c) : Remaining b ⟨some pos, c⟩ := by
  obtain ⟨op, operands⟩ := i
  rcases hasShape_cases hform.shape with ⟨hk, ho⟩ | ⟨v, hk, ho⟩ | ⟨n, hk, ho⟩ | ⟨t, hk, ho⟩ | ⟨n, hk, ho⟩
  all_goals dsimp only at hk ho; subst ho
  · cases (operandCause?_eq_none.2 (.plain hk)).symm.trans hc
  · cases (operandCause?_eq_none.2 (.constant hk)).symm.trans hc
  · -- the slot of an argument or a local
    have hop : (op = .ldarg ∨ op = .starg) ∨ op = .ldloc ∨ op = .stloc := by
      revert hk
      cases op <;> decide
    rcases hop with hop | hop
    · by_cases hn : n.toNat < b.signature.params.length
      · cases (operandCause?_eq_none.2 (.argument hop hn)).symm.trans hc
      · have hcause : operandCause? b ⟨op, [.index n]⟩ = some (.noArgument n.toNat b.signature.params.length) := by
          rcases hop with rfl | rfl
          all_goals exact if_neg hn
        obtain rfl := Option.some.inj (hcause.symm.trans hc)
        exact .argument here hop (Nat.le_of_not_lt hn)
    · by_cases hn : n.toNat < b.signature.locals.length
      · cases (operandCause?_eq_none.2 (.localVar hop hn)).symm.trans hc
      · have hcause : operandCause? b ⟨op, [.index n]⟩ = some (.noLocal n.toNat b.signature.locals.length) := by
          rcases hop with rfl | rfl
          all_goals exact if_neg hn
        obtain rfl := Option.some.inj (hcause.symm.trans hc)
        exact .localVar here hop (Nat.le_of_not_lt hn)
  · have hbranch : op.isBranch = true := by
      revert hk
      cases op <;> simp [Opcode.operandKind, Opcode.isBranch]
    cases (operandCause?_eq_none.2 (.branch hbranch (hform.named t rfl))).symm.trans hc
  · have hop : op = .call := by
      revert hk
      cases op <;> simp [Opcode.operandKind]
    exact absurd hop hcall

/-- Nothing else can be found in such a body. -/
theorem findings_remaining (hform : ∀ i ∈ b.instrs, Formed b i ∧ i.op ≠ .call) : ∀ f ∈ b.findings, Remaining b f := by
  intro f hf
  unfold Body.findings at hf
  split at hf
  · rename_i hempty
    obtain rfl := List.mem_singleton.1 hf
    exact .empty (List.isEmpty_iff.1 hempty)
  · rename_i hempty
    split at hf
    · rename_i hnil
      have hne : b.entries ≠ [] := fun hnil => hempty (List.isEmpty_iff.2 hnil)
      exact .flow (flowFindings_ofFlow hne (operandFindings_eq_nil.1 hnil) f hf)
    · obtain ⟨⟨i, pos⟩, hi, hcause⟩ := List.mem_filterMap.1 hf
      obtain ⟨c, hc, rfl⟩ := Option.map_eq_some_iff.1 hcause
      have hget : b.instrs[pos]? = some i := List.mem_zipIdx_iff_getElem?.1 hi
      obtain ⟨hformed, hcall⟩ := hform i (List.mem_of_getElem? hget)
      exact operandCause?_remaining hformed hcall (b.instrs_getElem? pos ▸ hget) hc

end Graft.Typing
