import Graft.Proofs.Typing.Causes
import Mathlib.Data.List.Nodup

/-!
# Turns of the worklist

Stacks are carried along the blocks of a body in turns, each of which takes one block from the queue. Whatever loops there
are in the body, no block has a second turn, and so the turns end (`worklist_ends`).

* `traced` notes the instructions whose rules are carried out, and `Turns` is a number of turns from one flow to another.
  Nothing limits their number here; `turns_drain` says that `drain` makes such turns.
* `Fresh` is what keeps a block from being queued again, and `Reported` bounds what is found in each block. Both are kept
  by a turn, and so by all turns (`Turns.keeps`).
-/

namespace Graft.Typing

variable {b : Body} {k : Block} {f g h : Flow} {s : Stack} {q : Nat}

/-! ### Instructions that are carried out -/

/-- `through`, with the positions of the instructions whose rules are carried out. -/
def traced (b : Body) : (pos : Nat) → List Instruction → Stack → List Nat × Except Finding Stack
  | _, [], s => ([], .ok s)
  | pos, i :: is, s =>
    match next b i s with
    | .ok s =>
      let (positions, result) := traced b (pos + 1) is s
      (pos :: positions, result)
    | .error c => ([pos], .error ⟨some pos, c⟩)

theorem snd_traced {is : List Instruction} {pos : Nat} : (traced b pos is s).2 = through b pos is s := by
  induction is generalizing pos s with
  | nil => rfl
  | cons i is ih =>
    unfold traced through
    cases next b i s with
    | error c => rfl
    | ok s => exact ih

theorem fst_traced_isPrefix {is : List Instruction} {pos : Nat} :
    (traced b pos is s).1 <+: List.range' pos is.length := by
  induction is generalizing pos s with
  | nil => exact List.prefix_rfl
  | cons i is ih =>
    unfold traced
    cases next b i s with
    | error c => exact ⟨List.range' (pos + 1) is.length, rfl⟩
    | ok s => exact (List.prefix_cons_inj pos).2 ih

/-- The rule that is broken is that of an instruction of the list. -/
theorem position_of_through {is : List Instruction} {pos : Nat} {x : Finding} (h : through b pos is s = .error x) :
    ∃ p, x.position = some p ∧ pos ≤ p ∧ p < pos + is.length := by
  induction is generalizing pos s with
  | nil => cases h
  | cons i is ih =>
    rw [List.length_cons]
    unfold through at h
    split at h
    · obtain ⟨p, hp, hle, hlt⟩ := ih h
      exact ⟨p, hp, by omega, by omega⟩
    · obtain rfl := Except.error.inj h
      exact ⟨pos, rfl, Nat.le_refl _, by omega⟩

/-! ### Findings in a block -/

namespace Finding

/-- Paths bring different stacks to the block at `start`. -/
def isMergeAt (start : Nat) (x : Finding) : Bool := x.cause.flowRule? == some .merge && x.position == some start

/-- An instruction of the block breaks a rule about its stack. -/
def isBreachIn (k : Block) (x : Finding) : Bool :=
  x.cause.flowRule? == some .stack && x.position.any fun p => k.positions.contains p

end Finding

/-! ### Turns -/

/-- What a turn looks at: the block that starts at a position, and in it the instructions whose rules are carried out. -/
structure Turn where
  start : Nat
  positions : List Nat
deriving DecidableEq, Repr

namespace Flow

/-- The flow before the first turn. -/
def initial : Flow := { entries := [(0, [])], queue := [0] }

/-- `visit`, with the positions of the instructions whose rules are carried out. -/
def visitTraced (b : Body) (k : Block) (f : Flow) : List Nat × Flow :=
  let (positions, result) := traced b k.start (k.code b) ((f.entries.lookup k.start).getD [])
  match result with
  | .error finding => (positions, { f with findings := f.findings ++ [finding] })
  | .ok s => (positions, (k.successors b).foldl (join s) f)

theorem snd_visitTraced : (visitTraced b k f).2 = visit b k f := by
  unfold visitTraced visit
  rw [← snd_traced]
  cases traced b k.start (k.code b) ((f.entries.lookup k.start).getD []) with
  | mk positions result => cases result <;> rfl

theorem fst_visitTraced_isPrefix (hk : IsBlock b k) : (visitTraced b k f).1 <+: k.positions := by
  rw [Block.positions, ← Block.code_length hk]
  unfold visitTraced
  dsimp only
  split <;> exact fst_traced_isPrefix

/-- The next turn and the flow after it; there is none if the queue is empty. -/
def turn? (b : Body) (f : Flow) : Option (Turn × Flow) :=
  match f.queue with
  | [] => none
  | start :: queue =>
    let f := { f with queue := queue }
    match (blocks b).find? fun k => k.start == start with
    | none => some (⟨start, []⟩, f)
    | some k =>
      let (positions, f) := visitTraced b k f
      some (⟨start, positions⟩, f)

/-- Some turns that follow one another lead from one flow to another. -/
inductive Turns (b : Body) : Flow → List Turn → Flow → Prop
  | nil (f : Flow) : Turns b f [] f
  | cons {f g h : Flow} {t : Turn} {ts : List Turn} (first : turn? b f = some (t, g)) (rest : Turns b g ts h) :
      Turns b f (t :: ts) h

variable {t : Turn} {ts ts' : List Turn}

/-- What one turn does. -/
theorem turn?_cases (ht : turn? b f = some (t, g)) : ∃ rest, f.queue = t.start :: rest ∧
    ((t.positions = [] ∧ g = { f with queue := rest }) ∨
      ∃ k ∈ blocks b, k.start = t.start ∧ t.positions <+: k.positions ∧ g = visit b k { f with queue := rest }) := by
  unfold turn? at ht
  split at ht
  · cases ht
  · rename_i start rest hq
    dsimp only at ht
    split at ht
    · obtain ⟨rfl, rfl⟩ := Prod.mk.inj (Option.some.inj ht)
      exact ⟨rest, hq, .inl ⟨rfl, rfl⟩⟩
    · rename_i k hk
      obtain ⟨rfl, rfl⟩ := Prod.mk.inj (Option.some.inj ht)
      have hstart : k.start = start := by simpa using List.find?_some hk
      have hmem := List.mem_of_find?_eq_some hk
      exact ⟨rest, hq, .inr ⟨k, hmem, hstart, fst_visitTraced_isPrefix (isBlock_of_mem hmem), snd_visitTraced⟩⟩

theorem drain_succ (n : Nat) :
    drain b (blocks b) (n + 1) f = ((turn? b f).map fun tg => drain b (blocks b) n tg.2).getD f := by
  cases hq : f.queue with
  | nil => simp [drain, turn?, hq]
  | cons start rest => cases hk : (blocks b).find? fun k => k.start == start <;> simp [drain, turn?, hq, hk, snd_visitTraced]

/-- The blocks that `drain` looks at have their turns one after another. -/
theorem turns_drain (n : Nat) : ∃ ts, Turns b f ts (drain b (blocks b) n f) := by
  induction n generalizing f with
  | zero => exact ⟨[], .nil f⟩
  | succ n ih =>
    rw [drain_succ]
    cases ht : turn? b f with
    | none => exact ⟨[], .nil f⟩
    | some tg =>
      obtain ⟨ts, hts⟩ := ih (f := tg.2)
      exact ⟨tg.1 :: ts, .cons ht hts⟩

/-- What every turn keeps, all turns keep; `seen` are the blocks that have had their turn. -/
theorem Turns.keeps {P : List Nat → Flow → Prop}
    (hstep : ∀ seen f t g, P seen f → turn? b f = some (t, g) → P (seen ++ [t.start]) g) {seen : List Nat}
    (hts : Turns b f ts g) (hf : P seen f) : P (seen ++ ts.map Turn.start) g := by
  induction hts generalizing seen with
  | nil f => rwa [List.map_nil, List.append_nil]
  | @cons f g h t ts first _ ih =>
    have hrest := ih (hstep seen f t g hf first)
    rwa [List.append_assoc] at hrest

/-- Turns that leave the queue empty are all there are. -/
theorem Turns.isPrefix (hts : Turns b f ts g) (hq : g.queue = []) (hts' : Turns b f ts' h) : ts' <+: ts := by
  induction hts generalizing ts' with
  | nil f =>
    cases hts' with
    | nil => exact List.prefix_rfl
    | cons first _ =>
      obtain ⟨rest, hrest, -⟩ := turn?_cases first
      cases hq.symm.trans hrest
  | cons first _ ih =>
    cases hts' with
    | nil => exact List.nil_prefix
    | cons first' rest' =>
      obtain ⟨rfl, rfl⟩ := Prod.mk.inj (Option.some.inj (first.symm.trans first'))
      exact (List.prefix_cons_inj _).2 (ih hq rest')

/-! ### No block has a second turn -/

/-- No block is queued twice, nor again after its turn, because the stack on its entry is known by then. -/
structure Fresh (seen : List Nat) (f : Flow) : Prop where
  nodup : (seen ++ f.queue).Nodup
  known : ∀ p ∈ seen ++ f.queue, ∃ s, f.entries.lookup p = some s

theorem fresh_initial : Fresh [] initial := by
  refine ⟨by simp [initial], fun p hp => ?_⟩
  obtain rfl := List.mem_singleton.1 hp
  exact ⟨[], rfl⟩

variable {seen : List Nat}

theorem Fresh.join (hf : Fresh seen f) : Fresh seen (join s f q) := by
  have hgrow : Grows f (Flow.join s f q) := grows_join
  rcases join_cases s f q with ⟨hl, he⟩ | ⟨_, -, -, he⟩ | ⟨_, -, -, -, he⟩ <;> rw [he] at hgrow ⊢
  · have hnew : q ∉ seen ++ f.queue := by
      intro hq
      obtain ⟨s', hs'⟩ := hf.known q hq
      rw [hl] at hs'
      cases hs'
    refine ⟨?_, fun p hp => ?_⟩
    · rw [← List.append_assoc]
      exact List.nodup_append.2 ⟨hf.nodup, by simp, fun p hp q' hq' =>
        fun hpq => hnew (List.mem_singleton.1 hq' ▸ hpq ▸ hp)⟩
    · rw [← List.append_assoc] at hp
      rcases List.mem_append.1 hp with hp | hp
      · obtain ⟨s', hs'⟩ := hf.known p hp
        exact ⟨s', hgrow.lookup p s' hs'⟩
      · obtain rfl := List.mem_singleton.1 hp
        exact ⟨s, List.lookup_cons_self ..⟩
  · exact hf
  · exact ⟨hf.nodup, hf.known⟩

theorem Fresh.visit (hf : Fresh seen f) : Fresh seen (visit b k f) :=
  visit_keeps hf (fun _ _ => ⟨hf.nodup, hf.known⟩) fun _ _ _ _ hf => hf.join

theorem Fresh.turn (hf : Fresh seen f) (ht : turn? b f = some (t, g)) : Fresh (seen ++ [t.start]) g := by
  obtain ⟨rest, hq, hg⟩ := turn?_cases ht
  have hlist : seen ++ f.queue = seen ++ [t.start] ++ rest := by rw [hq, List.append_assoc]; rfl
  have hrest : Fresh (seen ++ [t.start]) { f with queue := rest } := ⟨hlist ▸ hf.nodup, hlist ▸ hf.known⟩
  rcases hg with ⟨-, rfl⟩ | ⟨k, -, -, -, rfl⟩
  · exact hrest
  · exact hrest.visit

/-! ### What is found in a block -/

/-- It is found at most once that paths bring different stacks to a block, and at most once that an instruction of a block
breaks a rule, which is in the turn of the block. Nothing else is found in the turns. -/
structure Reported (b : Body) (seen : List Nat) (f : Flow) : Prop where
  merges : ∀ p, f.findings.countP (Finding.isMergeAt p) ≤ if p ∈ f.merged then 1 else 0
  breaches : ∀ k ∈ blocks b, f.findings.countP (Finding.isBreachIn k) ≤ if k.start ∈ seen then 1 else 0
  placed : ∀ x ∈ f.findings, ∃ k ∈ blocks b, x.isMergeAt k.start = true ∨ x.isBreachIn k = true

theorem reported_initial : Reported b [] initial :=
  ⟨fun _ => Nat.zero_le _, fun _ _ => Nat.zero_le _, List.forall_mem_nil _⟩

theorem Reported.mono (hf : Reported b seen f) (p : Nat) : Reported b (seen ++ [p]) f := by
  refine ⟨hf.merges, fun k hk => Nat.le_trans (hf.breaches k hk) ?_, hf.placed⟩
  by_cases hstart : k.start ∈ seen <;> simp [hstart]

theorem Reported.join (hf : Reported b seen f) (hq : q ∈ leaders b) : Reported b seen (join s f q) := by
  rcases join_cases s f q with ⟨-, he⟩ | ⟨_, -, -, he⟩ | ⟨first, -, -, hnew, he⟩ <;> rw [he]
  · exact ⟨hf.merges, hf.breaches, hf.placed⟩
  · exact hf
  · refine ⟨fun p => ?_, fun k hk => ?_, fun x hx => ?_⟩
    · have hp := hf.merges p
      rw [List.countP_append, List.countP_singleton]
      by_cases hpq : p = q
      · subst hpq
        rw [if_neg hnew] at hp
        rw [if_pos List.mem_cons_self]
        split <;> omega
      · have hother : Finding.isMergeAt p ⟨some q, .disagreement first s⟩ = false := by
          simp [Finding.isMergeAt, Ne.symm hpq]
        simpa [hother, hpq] using hp
    · rw [List.countP_append]
      exact hf.breaches k hk
    · rcases List.mem_append.1 hx with hx | hx
      · exact hf.placed x hx
      · obtain rfl := List.mem_singleton.1 hx
        obtain ⟨k, hk, rfl⟩ := exists_block_at hq
        exact ⟨k, hk, .inl (by simp [Finding.isMergeAt, Cause.flowRule?])⟩

/-- A block has its first turn. -/
theorem Reported.visit (hfits : ∀ i ∈ b.instrs, Fits b i) (hf : Reported b seen f) (hk : k ∈ blocks b)
    (hnew : k.start ∉ seen) : Reported b (seen ++ [k.start]) (visit b k f) := by
  have hblock := isBlock_of_mem hk
  refine visit_keeps (hf.mono k.start) (fun x hx => ?_) fun g s q hq hg => hg.join (hblock.mem_leaders_of_successor hq)
  have hrule : x.cause.flowRule? = some .stack := by
    obtain ⟨i, hi, s', hnext⟩ := cause_of_through hx
    exact (next_stack (hfits i (List.mem_of_mem_drop (List.mem_of_mem_take hi)))).error _ hnext
  obtain ⟨p, hp, hle, hlt⟩ := position_of_through hx
  rw [Block.code_length hblock] at hlt
  have hinside : k.start ≤ p ∧ p < k.stop := by omega
  have hin : x.isBreachIn k = true := by
    simp [Finding.isBreachIn, hrule, hp, Block.mem_positions, hinside]
  refine ⟨fun q => ?_, fun k' hk' => ?_, fun y hy => ?_⟩
  · have hmerge : x.isMergeAt q = false := by simp [Finding.isMergeAt, hrule]
    rw [List.countP_append, List.countP_singleton, hmerge]
    exact hf.merges q
  · rw [List.countP_append, List.countP_singleton]
    by_cases hkk' : k' = k
    · subst hkk'
      have hnone := hf.breaches k' hk'
      rw [if_neg hnew] at hnone
      rw [if_pos (List.mem_append_right _ List.mem_cons_self)]
      split <;> omega
    · have hother : x.isBreachIn k' = false := by
        refine Bool.eq_false_iff.2 fun hother => hkk' ?_
        have hinside' : k'.start ≤ p ∧ p < k'.stop := by
          simpa [Finding.isBreachIn, hrule, hp, Block.mem_positions] using hother
        exact (isBlock_of_mem hk').unique hblock hinside' hinside
      simpa [hother] using (hf.mono k.start).breaches k' hk'
  · rcases List.mem_append.1 hy with hy | hy
    · exact hf.placed y hy
    · obtain rfl := List.mem_singleton.1 hy
      exact ⟨k, hk, .inr hin⟩

theorem Reported.turn (hfits : ∀ i ∈ b.instrs, Fits b i) (hfresh : Fresh seen f) (hf : Reported b seen f)
    (ht : turn? b f = some (t, g)) : Reported b (seen ++ [t.start]) g := by
  obtain ⟨rest, hq, hg⟩ := turn?_cases ht
  have hrest : Reported b seen { f with queue := rest } := ⟨hf.merges, hf.breaches, hf.placed⟩
  rcases hg with ⟨-, rfl⟩ | ⟨k, hk, hstart, -, rfl⟩
  · exact hrest.mono t.start
  · have hnew : t.start ∉ seen := by
      have hnodup := hfresh.nodup
      rw [hq] at hnodup
      exact fun hseen => (List.nodup_append.1 hnodup).2.2 t.start hseen t.start List.mem_cons_self rfl
    rw [← hstart] at hnew ⊢
    exact hrest.visit hfits hk hnew

/-! ### All turns -/

theorem Turns.fresh (hts : Turns b initial ts f) : Fresh (ts.map Turn.start) f :=
  hts.keeps (fun _ _ _ _ hf ht => hf.turn ht) fresh_initial

theorem Turns.reported (hfits : ∀ i ∈ b.instrs, Fits b i) (hts : Turns b initial ts f) :
    Reported b (ts.map Turn.start) f :=
  (hts.keeps (P := fun seen f => Fresh seen f ∧ Reported b seen f)
    (fun _ _ _ _ hf ht => ⟨hf.1.turn ht, hf.2.turn hfits hf.1 ht⟩) ⟨fresh_initial, reported_initial⟩).2

/-- The stack on entry of a block stays what it is. -/
theorem Turns.lookup (hts : Turns b f ts g) {p : Nat} (hp : f.entries.lookup p = some s) :
    g.entries.lookup p = some s := by
  induction hts with
  | nil f => exact hp
  | cons first _ ih =>
    obtain ⟨rest, -, ⟨-, rfl⟩ | ⟨k, -, -, -, rfl⟩⟩ := turn?_cases first
    · exact ih hp
    · exact ih (grows_visit.lookup p s hp)

/-- The instructions of a turn are some of the block, from the first one on. -/
theorem Turns.positions_isPrefix (hts : Turns b f ts g) (ht : t ∈ ts) :
    t.positions = [] ∨ ∃ k ∈ blocks b, k.start = t.start ∧ t.positions <+: k.positions := by
  induction hts with
  | nil f => cases ht
  | cons first _ ih =>
    rcases List.mem_cons.1 ht with rfl | ht
    · obtain ⟨rest, -, ⟨hnone, -⟩ | ⟨k, hk, hstart, hpositions, -⟩⟩ := turn?_cases first
      · exact .inl hnone
      · exact .inr ⟨k, hk, hstart, hpositions⟩
    · exact ih ht

/-- No instruction has its rule carried out twice. -/
theorem Turns.nodup_positions (hts : Turns b initial ts f) : (ts.flatMap Turn.positions).Nodup := by
  have hstarts : ts.Pairwise fun t t' => t.start ≠ t'.start :=
    List.pairwise_map.1 (List.nodup_append.1 hts.fresh.nodup).1
  refine List.nodup_flatMap.2 ⟨fun t ht => ?_, hstarts.imp_of_mem fun {t t'} ht ht' hne => ?_⟩
  · rcases hts.positions_isPrefix ht with hnone | ⟨k, -, -, hpositions⟩
    · rw [hnone]
      exact List.nodup_nil
    · exact hpositions.sublist.nodup List.nodup_range'
  · intro p hp hp'
    rcases hts.positions_isPrefix ht with hnone | ⟨k, hk, hstart, hpositions⟩
    · rw [hnone] at hp
      cases hp
    rcases hts.positions_isPrefix ht' with hnone | ⟨k', hk', hstart', hpositions'⟩
    · rw [hnone] at hp'
      cases hp'
    -- the two turns are of blocks that share a position
    have hinside := Block.mem_positions.1 (hpositions.subset hp)
    have hinside' := Block.mem_positions.1 (hpositions'.subset hp')
    obtain rfl := (isBlock_of_mem hk).unique (isBlock_of_mem hk') hinside hinside'
    exact hne (hstart.symm.trans hstart')

/-- The turns end, with what the second stage finds. It makes as many turns as there are. -/
theorem exists_turns (b : Body) :
    ∃ ts f, Turns b initial ts f ∧ f.queue = [] ∧ (b.entries ≠ [] → f = drain b (blocks b) (blocks b).length initial) ∧
      flowFindings b = fallOffFindings b ++ f.findings := by
  by_cases hne : b.entries = []
  · have hblocks : blocks b = [] := by simp [blocks, leaders, Body.length, hne, blocksOf]
    refine ⟨[⟨0, []⟩], { initial with queue := [] }, .cons ?_ (.nil _), rfl, fun h => absurd hne h, ?_⟩
    · simp [turn?, hblocks, initial]
    · simp [flowFindings, hblocks, drain, initial]
  · obtain ⟨ts, hts⟩ := turns_drain (b := b) (f := initial) (blocks b).length
    have hlast := drain_induction (P := fun _ => True) (Tracked.start hne) trivial fun _ _ _ _ _ _ _ _ _ _ => trivial
    exact ⟨ts, _, hts, hlast.2, fun _ => rfl, rfl⟩

end Flow

open Graft.Typing.Flow

/-- Of a body whose operands fit, stacks are carried along the blocks in turns that end.

* Some turns leave the queue empty, and all others are the first ones of them. The second stage makes them all. No block
  has two turns, and no instruction has its rule carried out twice.
* The stack on entry of a block, once it is there, stays the same, on each path into a block and in all turns.
* For each block it is found at most once that paths bring it different stacks, and at most once that an instruction of
  it breaks a rule about its stack. Apart from these, it is only found that control runs past the last instruction. -/
theorem worklist_ends (hoperands : operandFindings b = []) :
    (∃ ts f, Turns b initial ts f ∧ f.queue = [] ∧ (∀ ts' f', Turns b initial ts' f' → ts' <+: ts) ∧
      (ts.map Turn.start).Nodup ∧ (ts.flatMap Turn.positions).Nodup ∧
      (b.entries ≠ [] → f = drain b (blocks b) (blocks b).length initial) ∧
      flowFindings b = fallOffFindings b ++ f.findings) ∧
    ((∀ f s q p first, f.entries.lookup p = some first → (join s f q).entries.lookup p = some first) ∧
      ∀ ts f ts' f', Turns b initial ts f → Turns b f ts' f' →
        ∀ p first, f.entries.lookup p = some first → f'.entries.lookup p = some first) ∧
    (∀ k ∈ blocks b, (flowFindings b).countP (Finding.isMergeAt k.start) ≤ 1 ∧
      (flowFindings b).countP (Finding.isBreachIn k) ≤ 1) ∧
    ∀ x ∈ flowFindings b, x.cause.flowRule? = some .fallOff ∨
      ∃ k ∈ blocks b, x.isMergeAt k.start = true ∨ x.isBreachIn k = true := by
  obtain ⟨ts, f, hts, hq, hdrain, hfindings⟩ := exists_turns b
  have hreported := hts.reported (operandFindings_eq_nil.1 hoperands)
  have hfallOff := flowRule?_of_mem_fallOffFindings (b := b)
  refine ⟨⟨ts, f, hts, hq, fun ts' f' hts' => hts.isPrefix hq hts', (List.nodup_append.1 hts.fresh.nodup).1,
    hts.nodup_positions, hdrain, hfindings⟩, ⟨fun f s q p first => grows_join.lookup p first, fun ts f ts' f' _ hts' p first =>
    hts'.lookup⟩, fun k hk => ⟨?_, ?_⟩, fun x hx => ?_⟩
  · have hnone : (fallOffFindings b).countP (Finding.isMergeAt k.start) = 0 :=
      List.countP_eq_zero.2 fun x hx => by simp [Finding.isMergeAt, hfallOff x hx]
    have hmerges := hreported.merges k.start
    rw [hfindings, List.countP_append, hnone]
    split at hmerges <;> omega
  · have hnone : (fallOffFindings b).countP (Finding.isBreachIn k) = 0 :=
      List.countP_eq_zero.2 fun x hx => by simp [Finding.isBreachIn, hfallOff x hx]
    have hbreaches := hreported.breaches k hk
    rw [hfindings, List.countP_append, hnone]
    split at hbreaches <;> omega
  · rw [hfindings] at hx
    exact (List.mem_append.1 hx).imp (hfallOff x) (hreported.placed x)

/-- A loop that leaves a value on the stack each time, and code behind it that takes too many values. -/
def growing : Body where
  method := ⟨"A", "grow"⟩
  signature := ⟨[.bool], [], none⟩
  entries := [⟨⟨0⟩, .ldcI4, [.immediate (.i32 1)]⟩, ⟨⟨1⟩, .ldarg, [.index 0]⟩, ⟨⟨2⟩, .brtrue, [.label ⟨0⟩]⟩,
    ⟨⟨3⟩, .pop, []⟩, ⟨⟨4⟩, .pop, []⟩, ⟨⟨5⟩, .br, [.label ⟨0⟩]⟩]
  nextId := 6

/-- The two blocks have one turn each: the loop is not gone through with the larger stack, and the last instruction is
not reached. -/
theorem worklist_ends_growing : operandFindings growing = [] ∧
    (∃ ts f, Turns growing initial ts f ∧ f.queue = [] ∧ (ts.map Turn.start).Nodup ∧
      [⟨0, [0, 1, 2]⟩, ⟨3, [3, 4]⟩] <+: ts ∧ f = drain growing (blocks growing) (blocks growing).length initial) ∧
    flowFindings growing = [⟨some 0, .disagreement [] [.i32]⟩, ⟨some 4, .underflow .pop⟩] ∧
    ∀ k ∈ blocks growing, (flowFindings growing).countP (Finding.isMergeAt k.start) ≤ 1 ∧
      (flowFindings growing).countP (Finding.isBreachIn k) ≤ 1 := by
  have hoperands : operandFindings growing = [] := by decide +kernel
  obtain ⟨⟨ts, f, hts, hq, hall, hnodup, -, hdrain, -⟩, -, honce, -⟩ := worklist_ends hoperands
  have hturns : ∃ f, Turns growing initial [⟨0, [0, 1, 2]⟩, ⟨3, [3, 4]⟩] f := ⟨_, .cons rfl (.cons rfl (.nil _))⟩
  obtain ⟨f', hturns⟩ := hturns
  exact ⟨hoperands, ⟨ts, f, hts, hq, hnodup, hall _ _ hturns, hdrain (List.cons_ne_nil _ _)⟩, by decide +kernel, honce⟩

end Graft.Typing
