import Graft.Proofs.Execution.Steps
import Graft.Proofs.Typing.Exactness
import Graft.Proofs.Typing.Rules
import Graft.Providers

/-!
# Verification is sound

A run of a body with which nothing is wrong gives a result of the declared type, unless it divides by zero or makes too
many steps (`run_of_violations_eq_nil`).

* `Frame.Typed` is the invariant: the types of the values in a frame are those that an assignment gives to the position.
* `Sound` says what a step from such a frame may come to, and `step_sound` that it comes to nothing else.
* `faithful_read` says that settings and feeds are sources as the result asks for them.
-/

namespace Graft.Execution

open Typing

variable {σ : Type} {b : Body} {f : Frame} {i : Instruction} {s : Stack}

/-- Sources that answer with values of the declared types as long as `P` holds of their state, which asking them
keeps. -/
def Faithful (read : Source → σ → Value × σ) (P : σ → Prop) (b : Body) : Prop :=
  ∀ x ∈ b.externals, ∀ s, P s → (read x.source s).1.type = x.type ∧ P (read x.source s).2

/-- The types of the values in a frame are those that the assignment `T` and the signature tell, and control reaches the
position of the frame. -/
structure Frame.Typed (b : Body) (T : Nat → Stack) (f : Frame) : Prop where
  reachable : Reachable b f.pos
  stack : f.stack.map Value.type = T f.pos
  args : f.args.map Value.type = b.signature.params
  locals : f.locals.map Value.type = b.signature.locals

/-- What a step of an instruction may come to that leaves values of types `s` on the stack. -/
def Sound (b : Body) (f : Frame) (s : Stack) : Outcome → Prop
  | .running g => Edge b f.pos g.pos ∧ g.stack.map Value.type = s ∧ g.args.map Value.type = b.signature.params ∧
      g.locals.map Value.type = b.signature.locals
  | .returned v => v.map Value.type = b.signature.returns
  | .failed e => e = .divisionByZero f.pos

/-! ### Settings and feeds -/

/-- The source that an external value is taken from is there and holds values of the declared type only. -/
def Supplied (x : Binding) (p : Providers) : Prop :=
  match x.source with
  | .setting key => ∃ v, p.settings.get? key = some v ∧ v.current.type = x.type
  | .feed n => ∃ f, p.feeds[n]? = some f ∧ f.type = x.type ∧ ∀ v ∈ f.answers, v.type = f.type

/-- What is left of a feed after an answer has the type of the feed, as the answer has. -/
private theorem next_typed {f : Feed} (h : ∀ v ∈ f.answers, v.type = f.type) :
    f.next.1.type = f.type ∧ f.next.2.type = f.type ∧ ∀ v ∈ f.next.2.answers, v.type = f.type := by
  unfold Feed.next
  split
  · exact ⟨by cases f.type <;> rfl, rfl, h⟩
  · rename_i v hv
    exact ⟨h v (hv ▸ List.mem_cons_self), rfl, h⟩
  · rename_i v rest _ hv
    exact ⟨h v (hv ▸ List.mem_cons_self), rfl, fun w hw => h w (hv ▸ List.mem_cons_of_mem v hw)⟩

private theorem read_setting {key : String} {p : Providers} {v : Setting} (hv : p.settings.get? key = some v) :
    p.read (.setting key) = (v.current, p) := by
  simp only [Providers.read, hv]

private theorem read_feed {n : Nat} {p : Providers} {f : Feed} (hf : p.feeds[n]? = some f) :
    p.read (.feed n) = (f.next.1, { p with feeds := p.feeds.setIfInBounds n f.next.2 }) := by
  simp only [Providers.read, hf]

/-- Settings and feeds that hold values of the declared types are faithful sources. -/
theorem faithful_read (b : Body) : Faithful Providers.read (fun p => ∀ x ∈ b.externals, Supplied x p) b := by
  intro x hx p hp
  have hsupply := hp x hx
  unfold Supplied at hsupply
  cases hsource : x.source with
  | setting key =>
    rw [hsource] at hsupply
    obtain ⟨v, hv, ht⟩ := hsupply
    rw [read_setting hv]
    exact ⟨ht, hp⟩
  | feed n =>
    rw [hsource] at hsupply
    obtain ⟨f, hf, ht, hanswers⟩ := hsupply
    obtain ⟨hvalue, htype, hrest⟩ := next_typed hanswers
    rw [read_feed hf]
    refine ⟨hvalue.trans ht, fun y hy => ?_⟩
    have hother := hp y hy
    unfold Supplied at hother ⊢
    cases hm : y.source with
    | setting key => simpa only [hm] using hother
    | feed m =>
      rw [hm] at hother
      obtain ⟨g, hg, hgt, hganswers⟩ := hother
      -- the two external values may be taken from one feed
      by_cases hnm : n = m
      · subst hnm
        obtain rfl := Option.some.inj (hf.symm.trans hg)
        exact ⟨f.next.2, Array.getElem?_setIfInBounds_self_of_lt (Array.getElem?_eq_some_iff.1 hf).1,
          htype.trans hgt, fun v hv => (hrest v hv).trans htype.symm⟩
      · exact ⟨g, (Array.getElem?_setIfInBounds_ne hnm).trans hg, hgt, hganswers⟩

/-! ### Operations on values -/

/-- An operation on two values of one type has a value of type `t`, or divides by zero at `pos`. -/
def Gives (pos : Nat) (t : ValueType) (r : Except Error Value) : Prop :=
  (∃ v, r = .ok v ∧ v.type = t) ∨ r = .error (.divisionByZero pos)

private theorem gives_ok {pos : Nat} {t : ValueType} {v : Value} (h : v.type = t) : Gives pos t (.ok v) :=
  .inl ⟨v, rfl, h⟩

private theorem guarded32_gives {pos : Nat} {g : Int32 → Int32 → Int32} {x y : Int32} :
    Gives pos .i32 (guarded32 pos g x y) := by
  unfold guarded32
  split
  · exact .inr rfl
  · exact gives_ok rfl

private theorem guarded64_gives {pos : Nat} {g : Int64 → Int64 → Int64} {x y : Int64} :
    Gives pos .i64 (guarded64 pos g x y) := by
  unfold guarded64
  split
  · exact .inr rfl
  · exact gives_ok rfl

private theorem arithmetic_gives {pos : Nat} {op : Opcode} {x y : Value} (hxy : x.type = y.type)
    (hnum : x.type.isNumeric = true) : Gives pos x.type (arithmetic pos op x y) := by
  cases x <;> cases y <;> try cases hxy
  · unfold arithmetic
    dsimp only
    split
    · exact gives_ok rfl
    · exact gives_ok rfl
    · exact gives_ok rfl
    · exact guarded32_gives
    · exact guarded32_gives
  · unfold arithmetic
    dsimp only
    split
    · exact gives_ok rfl
    · exact gives_ok rfl
    · exact gives_ok rfl
    · exact guarded64_gives
    · exact guarded64_gives
  · cases hnum

private theorem logical_gives {pos : Nat} {op : Opcode} {x y : Value} (hxy : x.type = y.type) :
    Gives pos x.type (logical pos op x y) := by
  cases x <;> cases y <;> first | exact gives_ok rfl | cases hxy

private theorem equality_gives {pos : Nat} {x y : Value} (hxy : x.type = y.type) :
    Gives pos .bool (equality pos x y) := by
  rw [equality, if_pos hxy]
  exact gives_ok rfl

private theorem ordering_gives {pos : Nat} {op : Opcode} {x y : Value} (hxy : x.type = y.type)
    (hnum : x.type.isNumeric = true) : Gives pos .bool (ordering pos op x y) := by
  cases x <;> cases y <;> first | exact gives_ok rfl | (cases hxy <;> cases hnum)

private theorem type_complement (v : Value) : (complement v).type = v.type := by
  cases v <;> rfl

/-! ### Moves of a frame -/

private theorem goOn_sound (hi : b.instr? f.pos = some i) (hgo : i.op.isTerminal = false)
    (hargs : f.args.map Value.type = b.signature.params) (hlocals : f.locals.map Value.type = b.signature.locals)
    {vs : List Value} (hvs : vs.map Value.type = s) : Sound b f s (f.goOn vs) :=
  ⟨.next hi hgo, hvs, hargs, hlocals⟩

private theorem jump_sound (hi : b.instr? f.pos = some i) (hfit : Fits b i) (hbranch : i.op.isBranch = true)
    (hargs : f.args.map Value.type = b.signature.params) (hlocals : f.locals.map Value.type = b.signature.locals)
    {vs : List Value} (hvs : vs.map Value.type = s) :
    Sound b f s (f.jump ⟨i, b.target? i, b.binding? i⟩ vs) := by
  obtain ⟨t, p, -, -, hp⟩ := hfit.target hbranch
  simp only [Frame.jump, hp]
  exact ⟨.jump hi hbranch hp, hvs, hargs, hlocals⟩

private theorem binary_sound (hi : b.instr? f.pos = some i) (hgo : i.op.isTerminal = false)
    (hargs : f.args.map Value.type = b.signature.params) (hlocals : f.locals.map Value.type = b.signature.locals)
    {t t' : ValueType} (hstack : f.stack.map Value.type = t :: t :: s) {operation : Value → Value → Except Error Value}
    (hop : ∀ x y : Value, x.type = t → y.type = t → Gives f.pos t' (operation x y)) :
    Sound b f (t' :: s) (f.binary operation) := by
  obtain ⟨y, ys, hys, rfl, htail⟩ := List.map_eq_cons_iff.1 hstack
  obtain ⟨x, vs, rfl, hx, hvs⟩ := List.map_eq_cons_iff.1 htail
  simp only [Frame.binary, hys]
  rcases hop x y hx rfl with ⟨v, hv, ht⟩ | he
  · rw [hv]
    exact goOn_sound hi hgo hargs hlocals (by rw [List.map_cons, ht, hvs])
  · rw [he]
    rfl

private theorem load_sound (hi : b.instr? f.pos = some i) (hgo : i.op.isTerminal = false)
    (hargs : f.args.map Value.type = b.signature.params) (hlocals : f.locals.map Value.type = b.signature.locals)
    {slots : List Value} {types : List ValueType} (hslots : slots.map Value.type = types) {t : ValueType}
    (ht : i.slot?.bind (fun n => types[n]?) = some t) (hstack : f.stack.map Value.type = s) :
    Sound b f (t :: s) (f.load ⟨i, b.target? i, b.binding? i⟩ slots) := by
  obtain ⟨n, hn, htn⟩ := Option.bind_eq_some_iff.1 ht
  rw [← hslots, List.getElem?_map, Option.map_eq_some_iff] at htn
  obtain ⟨v, hv, rfl⟩ := htn
  simp only [Frame.load, hn, Option.bind_some, hv]
  exact goOn_sound hi hgo hargs hlocals (by rw [List.map_cons, hstack])

/-- Storing a value of the type of the slot keeps the types of all slots. -/
private theorem stored?_types {slots : List Value} {types : List ValueType} (hslots : slots.map Value.type = types)
    {v : Value} (ht : i.slot?.bind (fun n => types[n]?) = some v.type) :
    ∃ slots', Frame.stored? ⟨i, b.target? i, b.binding? i⟩ slots v = some slots' ∧ slots'.map Value.type = types := by
  obtain ⟨n, hn, htn⟩ := Option.bind_eq_some_iff.1 ht
  have hlt : n < slots.length := by
    have := (List.getElem?_eq_some_iff.1 htn).1
    rwa [← hslots, List.length_map] at this
  refine ⟨slots.set n v, by simp only [Frame.stored?, hn, if_pos hlt], ?_⟩
  obtain ⟨hn', htn'⟩ := List.getElem?_eq_some_iff.1 htn
  rw [List.map_set, hslots, ← htn', List.set_getElem_self]

/-! ### One step -/

/-- An instruction other than `call` that fits does what its rule says. -/
private theorem act_sound (hi : b.instr? f.pos = some i) (hfit : Fits b i) (hcall : i.op ≠ .call)
    (hargs : f.args.map Value.type = b.signature.params) (hlocals : f.locals.map Value.type = b.signature.locals)
    (hrule : StackRule b i (f.stack.map Value.type) s) :
    Sound b f s (Cell.act b.signature.returns.isSome ⟨i, b.target? i, b.binding? i⟩ f) := by
  generalize hstack : f.stack.map Value.type = r at hrule
  cases hrule with
  | stay op =>
    rcases op with op | op <;> simp only [Cell.act, op]
    · exact goOn_sound hi (by rw [op]; rfl) hargs hlocals hstack
    · exact jump_sound hi hfit (by rw [op]; rfl) hargs hlocals hstack
  | constant op value =>
    rcases op with op | op | op <;> simp only [Cell.act, op, value] <;>
      exact goOn_sound hi (by rw [op]; rfl) hargs hlocals (by rw [List.map_cons, hstack])
  | ldarg op slot =>
    simp only [Cell.act, op]
    exact load_sound hi (by rw [op]; rfl) hargs hlocals hargs slot hstack
  | ldloc op slot =>
    simp only [Cell.act, op]
    exact load_sound hi (by rw [op]; rfl) hargs hlocals hlocals slot hstack
  | starg op slot =>
    obtain ⟨v, vs, hvs, rfl, htail⟩ := List.map_eq_cons_iff.1 hstack
    obtain ⟨args, hstore, htypes⟩ := stored?_types (b := b) hargs slot
    simp only [Cell.act, op, hvs, hstore]
    exact goOn_sound (f := { f with args := args }) hi (by rw [op]; rfl) htypes hlocals htail
  | stloc op slot =>
    obtain ⟨v, vs, hvs, rfl, htail⟩ := List.map_eq_cons_iff.1 hstack
    obtain ⟨locals, hstore, htypes⟩ := stored?_types (b := b) hlocals slot
    simp only [Cell.act, op, hvs, hstore]
    exact goOn_sound (f := { f with locals := locals }) hi (by rw [op]; rfl) hargs htypes htail
  | call op row => exact absurd op hcall
  | arithmetic op numeric =>
    rcases op with op | op | op | op | op <;> simp only [Cell.act, op] <;>
      refine binary_sound hi (by rw [op]; rfl) hargs hlocals hstack fun x y hx hy => ?_ <;>
      exact hx ▸ arithmetic_gives (hx.trans hy.symm) (hx ▸ numeric)
  | logical op =>
    rcases op with op | op <;> simp only [Cell.act, op] <;>
      refine binary_sound hi (by rw [op]; rfl) hargs hlocals hstack fun x y hx hy => ?_ <;>
      exact hx ▸ logical_gives (hx.trans hy.symm)
  | equality op =>
    simp only [Cell.act, op]
    exact binary_sound hi (by rw [op]; rfl) hargs hlocals hstack fun x y hx hy => equality_gives (hx.trans hy.symm)
  | ordering op numeric =>
    rcases op with op | op <;> simp only [Cell.act, op] <;>
      exact binary_sound hi (by rw [op]; rfl) hargs hlocals hstack fun x y hx hy =>
        ordering_gives (hx.trans hy.symm) (hx ▸ numeric)
  | complement op =>
    obtain ⟨v, vs, hvs, rfl, htail⟩ := List.map_eq_cons_iff.1 hstack
    simp only [Cell.act, op, hvs]
    exact goOn_sound hi (by rw [op]; rfl) hargs hlocals (by rw [List.map_cons, type_complement, htail])
  | dup op =>
    obtain ⟨v, vs, hvs, rfl, htail⟩ := List.map_eq_cons_iff.1 hstack
    simp only [Cell.act, op, hvs]
    exact goOn_sound hi (by rw [op]; rfl) hargs hlocals (by rw [List.map_cons, List.map_cons, htail])
  | drop op =>
    obtain ⟨v, vs, hvs, rfl, htail⟩ := List.map_eq_cons_iff.1 hstack
    have hgo (h : i.op.isTerminal = false) : Sound b f s (f.goOn vs) := goOn_sound hi h hargs hlocals htail
    have hjump (h : i.op.isBranch = true) : Sound b f s (f.jump ⟨i, b.target? i, b.binding? i⟩ vs) :=
      jump_sound hi hfit h hargs hlocals htail
    rcases op with op | op | op <;> simp only [Cell.act, op, hvs]
    · exact hgo (by rw [op]; rfl)
    · split
      · exact hjump (by rw [op]; rfl)
      · exact hgo (by rw [op]; rfl)
    · split
      · exact hgo (by rw [op]; rfl)
      · exact hjump (by rw [op]; rfl)
  | ret op =>
    simp only [Cell.act, op]
    cases hret : b.signature.returns with
    | none =>
      simp only [Option.isSome_none, Bool.false_eq_true, if_false]
      exact hret.symm
    | some t =>
      rw [hret] at hstack
      obtain ⟨v, vs, hvs, ht, -⟩ := List.map_eq_cons_iff.1 hstack
      simp only [Option.isSome_some, if_true, hvs]
      show some v.type = b.signature.returns
      rw [ht, hret]

/-- A step from a frame of the right types does what the rule of the instruction says; the sources stay faithful. -/
private theorem step_sound {read : Source → σ → Value × σ} {P : σ → Prop} {t : σ} (hread : Faithful read P b)
    (ht : P t) (hi : b.instr? f.pos = some i) (hfit : Fits b i)
    (hargs : f.args.map Value.type = b.signature.params) (hlocals : f.locals.map Value.type = b.signature.locals)
    (hrule : StackRule b i (f.stack.map Value.type) s) :
    Sound b f s (Cell.step read b.signature.returns.isSome ⟨i, b.target? i, b.binding? i⟩ f t).1 ∧
      P (Cell.step read b.signature.returns.isSome ⟨i, b.target? i, b.binding? i⟩ f t).2 := by
  by_cases hcall : i.op = .call
  · generalize hstack : f.stack.map Value.type = r at hrule
    cases hrule with
    | @call x _ op row =>
      obtain ⟨htype, hP⟩ := hread x (mem_of_binding? row) t ht
      simp only [Cell.step, hcall, row, if_pos htype]
      exact ⟨goOn_sound hi (by rw [hcall]; rfl) hargs hlocals (by rw [List.map_cons, htype, hstack]), hP⟩
    | _ => simp_all
  · have hstep : Cell.step read b.signature.returns.isSome ⟨i, b.target? i, b.binding? i⟩ f t =
        (Cell.act b.signature.returns.isSome ⟨i, b.target? i, b.binding? i⟩ f, t) := by
      unfold Cell.step
      split
      · exact absurd ‹i.op = .call› hcall
      · rfl
    rw [hstep]
    exact ⟨act_sound hi hfit hcall hargs hlocals hrule, ht⟩

/-! ### The whole run -/

/-- What a run may come to. -/
def Expected (b : Body) (limit : Nat) (r : Except Error (Option Value)) : Prop :=
  (∃ v, r = .ok v ∧ v.map Value.type = b.signature.returns) ∨ (∃ pos, r = .error (.divisionByZero pos)) ∨
    r = .error (.stepLimit limit)

private theorem Frame.Typed.entry {T : Nat → Stack} (hT : Assignment b T) {args : List Value}
    (hargs : args.map Value.type = b.signature.params) : Frame.Typed b T (entryFrame b args) := by
  refine ⟨Reachable.start, hT.entry.symm, hargs, ?_⟩
  have hdefault : Value.type ∘ ValueType.default = id := by
    funext t
    cases t <;> rfl
  rw [entryFrame, List.map_map, hdefault, List.map_id]

/-- A step from a frame of the right types gives such a frame, a value of the type returned, or a division by zero. -/
private theorem advance_typed {T : Nat → Stack} (hw : WellTyped b) (hT : Assignment b T)
    {read : Source → σ → Value × σ} {P : σ → Prop} (hread : Faithful read P b) (f : Frame) (t : σ)
    (h : Frame.Typed b T f ∧ P t) : match stepOf read b f t with
      | (.running g, t) => Frame.Typed b T g ∧ P t
      | (.returned v, _) => v.map Value.type = b.signature.returns
      | (.failed e, _) => e = .divisionByZero f.pos := by
  obtain ⟨⟨hreach, hstack, hargs, hlocals⟩, ht⟩ := h
  obtain ⟨i, s, hi, hnext, hedges⟩ := hT.step f.pos hreach
  rw [stepOf, advance, cells_getElem?, hi, Option.map_some]
  dsimp only
  have hsound := step_sound hread ht hi (hw.fits i (mem_instrs_of_instr? hi)) hargs hlocals
    (hstack.symm ▸ rule_of_next hnext)
  cases hs : Cell.step read b.signature.returns.isSome ⟨i, b.target? i, b.binding? i⟩ f t with
  | mk o t' =>
    rw [hs] at hsound
    cases o with
    | running g =>
      -- along an edge, the assignment gives the stack that the rule leaves
      obtain ⟨⟨hedge, hg, hgargs, hglocals⟩, ht'⟩ := hsound
      exact ⟨⟨hreach.step hedge, hg.trans (hedges g.pos hedge).symm, hgargs, hglocals⟩, ht'⟩
    | returned v => exact hsound.1
    | failed e => exact hsound.1

/-- A run of a body with which nothing is wrong, on arguments of the right types, returns a value of the type that its
signature tells, or none if it tells none, unless it divides by zero or reaches its limit. -/
theorem run_of_violations_eq_nil {read : Source → σ → Value × σ} {P : σ → Prop} {args : List Value} {t : σ}
    (limit : Nat) (hb : b.violations = []) (hargs : args.map Value.type = b.signature.params)
    (hread : Faithful read P b) (ht : P t) : Expected b limit (b.run read args limit t).1 := by
  have hw : WellTyped b := wellTyped_of_findings (violations_eq_nil.1 hb)
  obtain ⟨T, hT⟩ := hw.typable
  rw [Body.run_eq, Body.runBy, if_pos hargs]
  refine after_invariant (I := fun f t => Frame.Typed b T f ∧ P t)
    (O := fun o _ => Expected b limit (conclude (cells b) limit o)) ?_ ?_ limit ⟨Frame.Typed.entry hT hargs, ht⟩
  · intro f t h
    have hstep := advance_typed hw hT hread f t h
    cases ho : stepOf read b f t with
    | mk o t' =>
      rw [ho] at hstep
      cases o with
      | running g => exact hstep
      | returned v => exact .inl ⟨v, rfl, hstep⟩
      | failed e => exact .inr (.inl ⟨f.pos, by rw [conclude, hstep]⟩)
  · intro f t h
    -- the limit is reached in front of an instruction, since control is in the body
    obtain ⟨i, s, hi, -⟩ := hT.step f.pos h.1.reachable
    refine .inr (.inr ?_)
    rw [conclude, size_cells, if_pos (lt_length_of_instr? hi)]

/-- A body that asks a feed for a number until the number is not less than its argument. -/
def askUntil : Body where
  method := ⟨"Feed", "askUntil"⟩
  signature := ⟨[.i32], [.i32], some .i32⟩
  entries := [⟨⟨0⟩, .call, [.external 0]⟩, ⟨⟨1⟩, .stloc, [.index 0]⟩, ⟨⟨2⟩, .ldloc, [.index 0]⟩,
    ⟨⟨3⟩, .ldarg, [.index 0]⟩, ⟨⟨4⟩, .clt, []⟩, ⟨⟨5⟩, .brtrue, [.label ⟨0⟩]⟩, ⟨⟨6⟩, .ldloc, [.index 0]⟩,
    ⟨⟨7⟩, .ret, []⟩]
  externals := #[⟨"numbers", .i32, .feed 0⟩]
  nextId := 8

theorem run_askUntil : Expected askUntil 100 (askUntil.run Providers.read [.i32 3] 100
    { feeds := #[⟨"numbers", .i32, [.i32 1, .i32 2, .i32 7]⟩] }).1 := by
  refine run_of_violations_eq_nil 100 (by decide +kernel) rfl (faithful_read askUntil) fun x hx => ?_
  obtain rfl : x = ⟨"numbers", .i32, .feed 0⟩ := by simpa [askUntil] using hx
  exact ⟨⟨"numbers", .i32, [.i32 1, .i32 2, .i32 7]⟩, rfl, rfl, by simp [Value.type]⟩

end Graft.Execution
