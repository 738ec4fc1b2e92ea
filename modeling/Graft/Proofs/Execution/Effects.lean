import Graft.Body.Effect
import Graft.Execution.Step
import Graft.Proofs.Typing.Operands
import Graft.Proofs.Typing.Rules

/-!
# Stack effects

An instruction whose operands fit has a stack effect, and both the rules of the typed stack and the steps of a run do what
it says (`exists_effect_of_operandCause?`).

* `Effect.Moves` says how an effect changes a stack, of types or of values.
* `moves_of_rule` compares effects with rules, and `performs_step` with steps.
-/

namespace Graft

/-- A stack and what comes of it by an effect: some elements at the top give way to others, and the rest stays. The function
`type` tells the types of the elements. -/
inductive Effect.Moves {α : Type} (e : Effect) (type : α → ValueType) : (before after : List α) → Prop
  | mk (taken put rest : List α) (pops : taken.length = e.pops) (pushes : put.length = e.pushes)
      (pushed : ∀ t, e.type = some t → put.map type = [t]) : Moves e type (taken ++ rest) (put ++ rest)

namespace Effect

variable {α : Type} {e : Effect} {type : α → ValueType} {s s' : List α}

theorem Moves.pops_le (h : e.Moves type s s') : e.pops ≤ s.length := by
  obtain ⟨taken, put, rest, pops, -, -⟩ := h
  rw [List.length_append, pops]
  exact Nat.le_add_right ..

/-- An effect that only puts an element on the stack. -/
theorem moves_put {t : ValueType} {a : α} (ha : type a = t) (s : List α) : Moves ⟨0, 1, some t⟩ type s (a :: s) := by
  refine .mk [] [a] s rfl rfl fun t' ht' => ?_
  obtain rfl := Option.some.inj ht'
  rw [List.map_singleton, ha]

/-- An effect that takes the element at the top and tells no type. -/
theorem moves_top {a : α} {rest : List α} (put : List α) (hs : s = a :: rest) (hpops : e.pops = 1)
    (hpushes : e.pushes = put.length) (htype : e.type = none) : e.Moves type s (put ++ rest) := by
  subst hs
  exact .mk [a] put rest hpops.symm hpushes.symm fun t ht => nomatch htype.symm.trans ht

end Effect

namespace Typing

variable {b : Body} {i : Instruction} {s s' : Stack}

/-- An instruction whose operands fit has an effect. -/
theorem Fits.exists_effect (h : Fits b i) : ∃ e, b.effect? i = some e := by
  cases h with
  | @plain op kind => cases op <;> first | exact ⟨_, rfl⟩ | cases kind
  | @constant op v kind => cases op <;> first | exact ⟨_, rfl⟩ | cases kind
  | argument kind bound =>
    rcases kind with rfl | rfl
    · exact ⟨_, congrArg (Option.map _) (List.getElem?_eq_getElem bound)⟩
    · exact ⟨_, rfl⟩
  | localVar kind bound =>
    rcases kind with rfl | rfl
    · exact ⟨_, congrArg (Option.map _) (List.getElem?_eq_getElem bound)⟩
    · exact ⟨_, rfl⟩
  | external bound => exact ⟨_, congrArg (Option.map _) (Array.getElem?_eq_getElem bound)⟩
  | @branch op t kind named => cases op <;> first | exact ⟨_, rfl⟩ | cases kind

theorem effect?_call {x : Binding} (hop : i.op = .call) (hx : b.binding? i = some x) :
    b.effect? i = some ⟨0, 1, some x.type⟩ := by
  simp only [Body.effect?, hop, hx]
  rfl

/-- A rule of the typed stack does what the effect of the instruction says. -/
theorem moves_of_rule (h : StackRule b i s s') : ∃ e, b.effect? i = some e ∧ e.Moves id s s' := by
  cases h with
  | stay op =>
    refine ⟨⟨0, 0, none⟩, ?_, .mk [] [] s rfl rfl nofun⟩
    rcases op with op | op <;> rw [Body.effect?, op]
  | @constant v _ op value =>
    refine ⟨⟨0, 1, some v.type⟩, ?_, Effect.moves_put (rfl : id v.type = v.type) s⟩
    rcases op with op | op | op <;> simp only [Body.effect?, op, value] <;> rfl
  | @ldarg t _ op slot =>
    refine ⟨⟨0, 1, some t⟩, ?_, Effect.moves_put (rfl : id t = t) s⟩
    simp only [Body.effect?, op, slot]
    rfl
  | @ldloc t _ op slot =>
    refine ⟨⟨0, 1, some t⟩, ?_, Effect.moves_put (rfl : id t = t) s⟩
    simp only [Body.effect?, op, slot]
    rfl
  | @call x _ op row => exact ⟨⟨0, 1, some x.type⟩, effect?_call op row, Effect.moves_put (rfl : id x.type = x.type) s⟩
  | @starg t _ op slot => exact ⟨⟨1, 0, none⟩, by rw [Body.effect?, op], .mk [t] [] s' rfl rfl nofun⟩
  | @stloc t _ op slot => exact ⟨⟨1, 0, none⟩, by rw [Body.effect?, op], .mk [t] [] s' rfl rfl nofun⟩
  | @arithmetic t r op numeric =>
    refine ⟨⟨2, 1, none⟩, ?_, .mk [t, t] [t] r rfl rfl nofun⟩
    rcases op with op | op | op | op | op <;> rw [Body.effect?, op]
  | @logical t r op =>
    refine ⟨⟨2, 1, none⟩, ?_, .mk [t, t] [t] r rfl rfl nofun⟩
    rcases op with op | op <;> rw [Body.effect?, op]
  | @equality t r op =>
    refine ⟨⟨2, 1, some .bool⟩, ?_, .mk [t, t] [.bool] r rfl rfl fun _ h => Option.some.inj h ▸ rfl⟩
    rw [Body.effect?, op]
  | @ordering t r op numeric =>
    refine ⟨⟨2, 1, some .bool⟩, ?_, .mk [t, t] [.bool] r rfl rfl fun _ h => Option.some.inj h ▸ rfl⟩
    rcases op with op | op <;> rw [Body.effect?, op]
  | @complement t r op => exact ⟨⟨1, 1, none⟩, by rw [Body.effect?, op], .mk [t] [t] r rfl rfl nofun⟩
  | @dup t r op => exact ⟨⟨1, 2, none⟩, by rw [Body.effect?, op], .mk [t] [t, t] r rfl rfl nofun⟩
  | @drop t _ op =>
    refine ⟨⟨1, 0, none⟩, ?_, .mk [t] [] s' rfl rfl nofun⟩
    rcases op with op | op | op <;> rw [Body.effect?, op]
  | ret op =>
    refine ⟨⟨if b.signature.returns.isSome then 1 else 0, 0, none⟩, by rw [Body.effect?, op], ?_⟩
    -- nothing stays below the value that is returned
    rw [← List.append_nil b.signature.returns.toList]
    refine .mk b.signature.returns.toList [] [] ?_ rfl nofun
    cases b.signature.returns <;> rfl

end Typing

namespace Execution

variable {σ : Type} {b : Body} {i : Instruction} {e : Effect} {f : Frame}

/-- What a step of an instruction from the frame `f` comes to is what the effect of the instruction says. The value that is
returned is taken from the stack. -/
def Outcome.Performs (e : Effect) (f : Frame) : Outcome → Prop
  | .running g => e.Moves Value.type f.stack g.stack
  | .returned v => v.toList <+: f.stack ∧ v.toList.length = e.pops ∧ e.pushes = 0
  | .failed _ => True

private theorem performs_jump (c : Cell) {vs : List Value} (h : e.Moves Value.type f.stack vs) :
    (f.jump c vs).Performs e f := by
  unfold Frame.jump
  split
  · exact h
  · trivial

/-- The value of a slot has the type that the slot is declared to have. -/
private theorem performs_load (c : Cell) {slots : List Value} {t : ValueType}
    (ht : (c.instr.slot?.bind fun n => (slots.map Value.type)[n]?) = some t) :
    (f.load c slots).Performs ⟨0, 1, some t⟩ f := by
  obtain ⟨n, hn, htn⟩ := Option.bind_eq_some_iff.1 ht
  rw [List.getElem?_map, Option.map_eq_some_iff] at htn
  obtain ⟨v, hv, hvt⟩ := htn
  unfold Frame.load
  rw [hn, Option.bind_some, hv]
  exact Effect.moves_put hvt f.stack

private theorem performs_binary {operation : Value → Value → Except Error Value} (hpops : e.pops = 2)
    (hpushes : e.pushes = 1) (h : ∀ v w r, operation v w = .ok r → ∀ t, e.type = some t → r.type = t) :
    (f.binary operation).Performs e f := by
  unfold Frame.binary
  split
  · rename_i rhs lhs vs hstack
    split
    · rename_i r hr
      have hmoves : e.Moves Value.type ([rhs, lhs] ++ vs) ([r] ++ vs) :=
        .mk [rhs, lhs] [r] vs hpops.symm hpushes.symm fun t ht => by rw [List.map_singleton, h lhs rhs r hr t ht]
      show e.Moves Value.type f.stack (r :: vs)
      rwa [hstack]
    · trivial
  · trivial

private theorem type_equality {pos : Nat} {v w r : Value} (h : equality pos v w = .ok r) : r.type = .bool := by
  unfold equality at h
  split at h
  · exact Except.ok.inj h ▸ rfl
  · cases h

private theorem type_ordering {pos : Nat} {op : Opcode} {v w r : Value} (h : ordering pos op v w = .ok r) :
    r.type = .bool := by
  unfold ordering at h
  split at h
  · exact Except.ok.inj h ▸ rfl
  · exact Except.ok.inj h ▸ rfl
  · cases h

/-- An instruction other than `call` does what its effect says. -/
private theorem performs_act (he : b.effect? i = some e) (hargs : f.args.map Value.type = b.signature.params)
    (hlocals : f.locals.map Value.type = b.signature.locals) :
    (Cell.act b.signature.returns.isSome ⟨i, b.target? i, b.binding? i⟩ f).Performs e f := by
  obtain ⟨op, operands⟩ := i
  unfold Cell.act
  cases op with
  | nop =>
    obtain rfl := Option.some.inj he
    exact .mk [] [] f.stack rfl rfl nofun
  | br =>
    obtain rfl := Option.some.inj he
    exact performs_jump _ (.mk [] [] f.stack rfl rfl nofun)
  | ldcI4 | ldcI8 | ldcBool =>
    obtain ⟨v, hv, rfl⟩ := Option.map_eq_some_iff.1 he
    dsimp only
    rw [hv]
    exact Effect.moves_put rfl f.stack
  | ldarg =>
    obtain ⟨t, ht, rfl⟩ := Option.map_eq_some_iff.1 he
    exact performs_load _ (hargs ▸ ht)
  | ldloc =>
    obtain ⟨t, ht, rfl⟩ := Option.map_eq_some_iff.1 he
    exact performs_load _ (hlocals ▸ ht)
  | call => trivial
  | starg | stloc =>
    obtain rfl := Option.some.inj he
    dsimp only
    split
    · rename_i v vs hstack
      split
      · exact Effect.moves_top [] hstack rfl rfl rfl
      · trivial
    · trivial
  | add | sub | mul | div | rem | and | or =>
    obtain rfl := Option.some.inj he
    exact performs_binary rfl rfl fun _ _ _ _ _ => nofun
  | ceq =>
    obtain rfl := Option.some.inj he
    exact performs_binary rfl rfl fun v w r hr t ht => Option.some.inj ht ▸ type_equality hr
  | clt | cgt =>
    obtain rfl := Option.some.inj he
    exact performs_binary rfl rfl fun v w r hr t ht => Option.some.inj ht ▸ type_ordering hr
  | not =>
    obtain rfl := Option.some.inj he
    dsimp only
    split
    · rename_i v vs hstack
      exact Effect.moves_top [complement v] hstack rfl rfl rfl
    · trivial
  | dup =>
    obtain rfl := Option.some.inj he
    dsimp only
    split
    · rename_i v vs hstack
      exact Effect.moves_top [v, v] hstack rfl rfl rfl
    · trivial
  | pop =>
    obtain rfl := Option.some.inj he
    dsimp only
    split
    · rename_i v vs hstack
      exact Effect.moves_top [] hstack rfl rfl rfl
    · trivial
  | brtrue =>
    obtain rfl := Option.some.inj he
    dsimp only
    split
    · rename_i v vs hstack
      have hmoves : Effect.Moves ⟨1, 0, none⟩ Value.type f.stack vs := Effect.moves_top [] hstack rfl rfl rfl
      split
      · exact performs_jump _ hmoves
      · exact hmoves
    · trivial
  | brfalse =>
    obtain rfl := Option.some.inj he
    dsimp only
    split
    · rename_i v vs hstack
      have hmoves : Effect.Moves ⟨1, 0, none⟩ Value.type f.stack vs := Effect.moves_top [] hstack rfl rfl rfl
      split
      · exact hmoves
      · exact performs_jump _ hmoves
    · trivial
  | ret =>
    obtain rfl := Option.some.inj he
    dsimp only
    split
    · split
      · rename_i v vs hstack
        exact ⟨hstack ▸ List.prefix_append [v] vs, rfl, rfl⟩
      · trivial
    · exact ⟨List.nil_prefix, rfl, rfl⟩

/-- A step of an instruction does what the effect of the instruction says. -/
theorem performs_step (read : Source → σ → Value × σ) (he : b.effect? i = some e)
    (hargs : f.args.map Value.type = b.signature.params) (hlocals : f.locals.map Value.type = b.signature.locals) (t : σ) :
    (Cell.step read b.signature.returns.isSome ⟨i, b.target? i, b.binding? i⟩ f t).1.Performs e f := by
  unfold Cell.step
  split
  · rename_i x hop hx
    dsimp only at hop hx ⊢
    obtain rfl := Option.some.inj (he.symm.trans (Typing.effect?_call hop hx))
    split
    · rename_i htype
      exact Effect.moves_put htype f.stack
    · trivial
  · exact performs_act he hargs hlocals

/-- An instruction whose operands fit has an effect. What the rules of the typed stack make of a stack and what a step of a
run makes of one is what the effect says: the values that it takes are there, those below them stay as they are, and those
that it puts are on top of them, with the type that it tells. -/
theorem exists_effect_of_operandCause? (h : Typing.operandCause? b i = none) : ∃ e, b.effect? i = some e ∧
    (∀ s s', Typing.next b i s = .ok s' → e.Moves id s s') ∧
    (∀ s, s.length < e.pops → ∃ c, Typing.next b i s = .error c) ∧
    ∀ {σ : Type} (read : Source → σ → Value × σ) (f : Frame) (t : σ), f.args.map Value.type = b.signature.params →
      f.locals.map Value.type = b.signature.locals →
        (Cell.step read b.signature.returns.isSome ⟨i, b.target? i, b.binding? i⟩ f t).1.Performs e f := by
  obtain ⟨e, he⟩ := (Typing.operandCause?_eq_none.1 h).exists_effect
  have hmoves (s s' : Typing.Stack) (hnext : Typing.next b i s = .ok s') : e.Moves id s s' := by
    obtain ⟨e', he', hmoves⟩ := Typing.moves_of_rule (Typing.rule_of_next hnext)
    obtain rfl := Option.some.inj (he.symm.trans he')
    exact hmoves
  refine ⟨e, he, hmoves, fun s hs => ?_, fun read f t hargs hlocals => performs_step read he hargs hlocals t⟩
  cases hnext : Typing.next b i s with
  | ok s' => exact absurd (hmoves s s' hnext).pops_le (Nat.not_le.2 hs)
  | error c => exact ⟨c, rfl⟩

/-- A body that tells whether an argument is less than an answer of a feed. -/
def below : Body where
  method := ⟨"Feed", "below"⟩
  signature := ⟨[.i32], [.i64], some .bool⟩
  entries := [⟨⟨0⟩, .ldarg, [.index 0]⟩, ⟨⟨1⟩, .call, [.external 0]⟩, ⟨⟨2⟩, .clt, []⟩, ⟨⟨3⟩, .ret, []⟩]
  externals := #[⟨"numbers", .i32, .feed 0⟩]
  nextId := 4

/-- `clt` takes the two values at the top, and a frame goes on with a flag in their place. -/
theorem exists_effect_below : Typing.operandCause? below ⟨.clt, []⟩ = none ∧
    Typing.next below ⟨.clt, []⟩ [.i32, .i32, .i64] = .ok [.bool, .i64] ∧
    Effect.Moves ⟨2, 1, some .bool⟩ id [.i32, .i32, .i64] [.bool, .i64] ∧
    (∃ c, Typing.next below ⟨.clt, []⟩ [.i32] = .error c) ∧
    (Cell.step (σ := Unit) (fun _ s => (.i32 0, s)) true ⟨⟨.clt, []⟩, none, none⟩
      ⟨2, [.i32 7, .i32 3, .i64 1], [.i32 3], [.i64 0]⟩ ()).1 =
        .running ⟨3, [.bool true, .i64 1], [.i32 3], [.i64 0]⟩ ∧
    Outcome.Performs ⟨2, 1, some .bool⟩ ⟨2, [.i32 7, .i32 3, .i64 1], [.i32 3], [.i64 0]⟩
      (.running ⟨3, [.bool true, .i64 1], [.i32 3], [.i64 0]⟩) := by
  have hfits : Typing.operandCause? below ⟨.clt, []⟩ = none := rfl
  have hnext : Typing.next below ⟨.clt, []⟩ [.i32, .i32, .i64] = .ok [.bool, .i64] := rfl
  obtain ⟨e, he, hmoves, hfails, hperforms⟩ := exists_effect_of_operandCause? hfits
  obtain rfl : ⟨2, 1, some .bool⟩ = e := Option.some.inj he
  exact ⟨hfits, hnext, hmoves _ _ hnext, hfails [.i32] (by decide), rfl,
    hperforms (fun _ s => (.i32 0, s)) ⟨2, [.i32 7, .i32 3, .i64 1], [.i32 3], [.i64 0]⟩ () rfl rfl⟩

end Execution

end Graft
