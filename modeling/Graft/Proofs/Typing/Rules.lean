import Graft.Proofs.Failure
import Graft.Typing.Stack

/-!
# Rules of the typed stack

`StackRule` gives the rule of every opcode as a relation between the stack before an instruction and the stack behind
it; the rules are those that `next` carries out (`next_eq_ok`).
-/

namespace Graft.Typing

variable {b : Body} {i : Instruction} {op : Opcode} {s s' : Stack}

/-- The stacks before and behind an instruction, the top first. -/
inductive StackRule (b : Body) (i : Instruction) : Stack → Stack → Prop
  | stay {s : Stack} (op : i.op = .nop ∨ i.op = .br) : StackRule b i s s
  | constant {v : Value} {s : Stack} (op : i.op = .ldcI4 ∨ i.op = .ldcI8 ∨ i.op = .ldcBool)
      (value : i.immediate? = some v) : StackRule b i s (v.type :: s)
  | ldarg {t : ValueType} {s : Stack} (op : i.op = .ldarg)
      (slot : i.slot?.bind (fun n => b.signature.params[n]?) = some t) : StackRule b i s (t :: s)
  | ldloc {t : ValueType} {s : Stack} (op : i.op = .ldloc)
      (slot : i.slot?.bind (fun n => b.signature.locals[n]?) = some t) : StackRule b i s (t :: s)
  | starg {t : ValueType} {s : Stack} (op : i.op = .starg)
      (slot : i.slot?.bind (fun n => b.signature.params[n]?) = some t) : StackRule b i (t :: s) s
  | stloc {t : ValueType} {s : Stack} (op : i.op = .stloc)
      (slot : i.slot?.bind (fun n => b.signature.locals[n]?) = some t) : StackRule b i (t :: s) s
  | call {x : Binding} {s : Stack} (op : i.op = .call) (row : b.binding? i = some x) : StackRule b i s (x.type :: s)
  | arithmetic {t : ValueType} {s : Stack}
      (op : i.op = .add ∨ i.op = .sub ∨ i.op = .mul ∨ i.op = .div ∨ i.op = .rem) (numeric : t.isNumeric = true) :
      StackRule b i (t :: t :: s) (t :: s)
  | logical {t : ValueType} {s : Stack} (op : i.op = .and ∨ i.op = .or) : StackRule b i (t :: t :: s) (t :: s)
  | equality {t : ValueType} {s : Stack} (op : i.op = .ceq) : StackRule b i (t :: t :: s) (.bool :: s)
  | ordering {t : ValueType} {s : Stack} (op : i.op = .clt ∨ i.op = .cgt) (numeric : t.isNumeric = true) :
      StackRule b i (t :: t :: s) (.bool :: s)
  | complement {t : ValueType} {s : Stack} (op : i.op = .not) : StackRule b i (t :: s) (t :: s)
  | dup {t : ValueType} {s : Stack} (op : i.op = .dup) : StackRule b i (t :: s) (t :: t :: s)
  | drop {t : ValueType} {s : Stack} (op : i.op = .pop ∨ i.op = .brtrue ∨ i.op = .brfalse) : StackRule b i (t :: s) s
  | ret (op : i.op = .ret) : StackRule b i b.signature.returns.toList []

/-! ### The parts of a rule -/

private theorem pop_eq_ok {t : ValueType} {r : Stack} : pop op s = .ok (t, r) ↔ s = t :: r := by
  cases s <;> simp [pop]

private theorem popTwo_eq_ok {lhs rhs : ValueType} {r : Stack} :
    popTwo op s = .ok (lhs, rhs, r) ↔ s = rhs :: lhs :: r := by
  rcases s with _ | ⟨x, _ | ⟨y, s⟩⟩ <;> simp [popTwo, pop, bind, Except.bind, pure, Except.pure]
  exact and_left_comm

private theorem popExpecting_eq_ok {t : ValueType} : popExpecting op t s = .ok s' ↔ s = t :: s' := by
  cases s with
  | nil => simp [popExpecting, pop, bind, Except.bind]
  | cons x s =>
    by_cases h : x = t <;>
      simp [popExpecting, pop, bind, Except.bind, pure, Except.pure, throw, throwThe, MonadExceptOf.throw, h]

private theorem slotType_eq_ok {types : List ValueType} {t : ValueType} :
    slotType i types = .ok t ↔ i.slot?.bind (fun n => types[n]?) = some t := by
  unfold slotType
  cases i.slot?.bind fun n => types[n]? <;> simp

/-- A rule reads the opcode and the first operand of an instruction, its external value and the signature. -/
theorem next_congr {b' : Body} {i' : Instruction} (hop : i.op = i'.op) (himmediate : i.immediate? = i'.immediate?)
    (hslot : i.slot? = i'.slot?) (hbinding : b.binding? i = b'.binding? i') (hsignature : b.signature = b'.signature)
    (s : Stack) : next b i s = next b' i' s := by
  simp only [next, slotType, hop, himmediate, hslot, hbinding, hsignature]

/-! ### The rules that are carried out -/

theorem rule_of_next (h : next b i s = .ok s') : StackRule b i s s' := by
  unfold next at h
  split at h
  case h_1 hop | h_2 hop => exact Except.ok.inj h ▸ .stay (by simp [hop])
  case h_3 hop | h_4 hop | h_5 hop =>
    split at h
    · rename_i v hv
      exact Except.ok.inj h ▸ .constant (by simp [hop]) hv
    · cases h
  case h_6 hop =>
    obtain ⟨t, ht, h⟩ := bind_eq_ok.1 h
    exact Except.ok.inj h ▸ .ldarg hop (slotType_eq_ok.1 ht)
  case h_7 hop =>
    obtain ⟨t, ht, h⟩ := bind_eq_ok.1 h
    exact Except.ok.inj h ▸ .ldloc hop (slotType_eq_ok.1 ht)
  case h_8 hop =>
    obtain ⟨t, ht, h⟩ := bind_eq_ok.1 h
    exact popExpecting_eq_ok.1 h ▸ .starg hop (slotType_eq_ok.1 ht)
  case h_9 hop =>
    obtain ⟨t, ht, h⟩ := bind_eq_ok.1 h
    exact popExpecting_eq_ok.1 h ▸ .stloc hop (slotType_eq_ok.1 ht)
  case h_10 hop =>
    split at h
    · rename_i x hx
      exact Except.ok.inj h ▸ .call hop hx
    · cases h
  case h_11 hop | h_12 hop | h_13 hop | h_14 hop | h_15 hop =>
    obtain ⟨⟨lhs, rhs, r⟩, hp, hif⟩ := bind_eq_ok.1 h
    obtain rfl := popTwo_eq_ok.1 hp
    dsimp only at hif
    split at hif
    · rename_i hc
      obtain ⟨hnum, rfl⟩ := hc
      exact Except.ok.inj hif ▸ .arithmetic (by simp [hop]) hnum
    · cases hif
  case h_16 hop | h_17 hop =>
    obtain ⟨⟨lhs, rhs, r⟩, hp, hif⟩ := bind_eq_ok.1 h
    obtain rfl := popTwo_eq_ok.1 hp
    dsimp only at hif
    split at hif
    · rename_i hc
      subst hc
      exact Except.ok.inj hif ▸ .logical (by simp [hop])
    · cases hif
  case h_18 hop =>
    obtain ⟨⟨lhs, rhs, r⟩, hp, hif⟩ := bind_eq_ok.1 h
    obtain rfl := popTwo_eq_ok.1 hp
    dsimp only at hif
    split at hif
    · rename_i hc
      subst hc
      exact Except.ok.inj hif ▸ .equality hop
    · cases hif
  case h_19 hop | h_20 hop =>
    obtain ⟨⟨lhs, rhs, r⟩, hp, hif⟩ := bind_eq_ok.1 h
    obtain rfl := popTwo_eq_ok.1 hp
    dsimp only at hif
    split at hif
    · rename_i hc
      obtain ⟨hnum, rfl⟩ := hc
      exact Except.ok.inj hif ▸ .ordering (by simp [hop]) hnum
    · cases hif
  case h_21 hop =>
    obtain ⟨⟨t, r⟩, hp, h⟩ := bind_eq_ok.1 h
    exact pop_eq_ok.1 hp ▸ Except.ok.inj h ▸ .complement hop
  case h_22 hop =>
    obtain ⟨⟨t, r⟩, hp, h⟩ := bind_eq_ok.1 h
    exact pop_eq_ok.1 hp ▸ Except.ok.inj h ▸ .dup hop
  case h_23 hop | h_24 hop | h_25 hop =>
    obtain ⟨⟨t, r⟩, hp, h⟩ := bind_eq_ok.1 h
    exact pop_eq_ok.1 hp ▸ Except.ok.inj h ▸ .drop (by simp [hop])
  case h_26 hop =>
    -- below the value that is returned the stack has to be empty
    have hempty : ∀ r : Stack, (if r.isEmpty then Except.ok r else Except.error (Cause.leftOver r)) = .ok s' →
        r = [] ∧ s' = [] := by
      rintro (_ | ⟨t, r⟩) hr
      · exact ⟨rfl, (Except.ok.inj hr).symm⟩
      · cases hr
    suffices hs : s = b.signature.returns.toList ∧ s' = [] from hs.1 ▸ hs.2 ▸ .ret hop
    cases hret : b.signature.returns with
    | none =>
      rw [hret] at h
      exact hempty s h
    | some t =>
      rw [hret] at h
      obtain ⟨r, hpop, hr⟩ := bind_eq_ok.1 h
      obtain ⟨rfl, hs'⟩ := hempty r hr
      exact ⟨popExpecting_eq_ok.1 hpop, hs'⟩

theorem StackRule.next (h : StackRule b i s s') : next b i s = .ok s' := by
  cases h with
  | stay op => rcases op with op | op <;> simp [Typing.next, op]
  | constant op value => rcases op with op | op | op <;> simp [Typing.next, op, value]
  | ldarg op slot => simp [Typing.next, op, slotType_eq_ok.2 slot, bind, Except.bind, pure, Except.pure]
  | ldloc op slot => simp [Typing.next, op, slotType_eq_ok.2 slot, bind, Except.bind, pure, Except.pure]
  | starg op slot => simp [Typing.next, op, slotType_eq_ok.2 slot, popExpecting_eq_ok, bind, Except.bind]
  | stloc op slot => simp [Typing.next, op, slotType_eq_ok.2 slot, popExpecting_eq_ok, bind, Except.bind]
  | call op row => simp [Typing.next, op, row]
  | arithmetic op numeric =>
    rcases op with op | op | op | op | op <;>
      simp [Typing.next, op, popTwo_eq_ok.2 rfl, numeric, bind, Except.bind, pure, Except.pure]
  | logical op =>
    rcases op with op | op <;> simp [Typing.next, op, popTwo_eq_ok.2 rfl, bind, Except.bind, pure, Except.pure]
  | equality op => simp [Typing.next, op, popTwo_eq_ok.2 rfl, bind, Except.bind, pure, Except.pure]
  | ordering op numeric =>
    rcases op with op | op <;>
      simp [Typing.next, op, popTwo_eq_ok.2 rfl, numeric, bind, Except.bind, pure, Except.pure]
  | complement op => simp [Typing.next, op, pop, bind, Except.bind, pure, Except.pure]
  | dup op => simp [Typing.next, op, pop, bind, Except.bind, pure, Except.pure]
  | drop op =>
    rcases op with op | op | op <;> simp [Typing.next, op, pop, bind, Except.bind, pure, Except.pure]
  | ret op =>
    cases hr : b.signature.returns with
    | none => simp [Typing.next, op, hr, bind, Except.bind, pure, Except.pure]
    | some t => simp [Typing.next, op, hr, popExpecting, pop, bind, Except.bind, pure, Except.pure]

/-- An instruction takes one stack to another exactly if its rule does. -/
theorem next_eq_ok : next b i s = .ok s' ↔ StackRule b i s s' := ⟨rule_of_next, StackRule.next⟩

end Graft.Typing
