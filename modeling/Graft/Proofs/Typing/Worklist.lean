import Graft.Proofs.Typing.Blocks
import Mathlib.Data.List.Perm.Subperm

/-!
# The worklist

What is kept while stacks are carried from block to block, whatever the stacks are.

* `Flow.Tracked` is the bookkeeping of the queue: no block is queued twice, so looking at as many blocks as there are
  empties the queue (`Flow.Tracked.queue_eq_nil`).
* `Flow.Grows` says that nothing which is known of a flow is lost when a block is looked at.
* `Flow.drain_induction` proves a property of the last flow from what looking at one block keeps.
-/

namespace Graft.Typing.Flow

variable {b : Body} {k : Block} {f g : Flow} {s : Stack} {n p q : Nat}

/-! ### One path into a block -/

theorem join_cases (s : Stack) (f : Flow) (q : Nat) :
    (f.entries.lookup q = none ∧ join s f q = { f with entries := (q, s) :: f.entries, queue := f.queue ++ [q] }) ∨
    (∃ first, f.entries.lookup q = some first ∧ (first = s ∨ q ∈ f.merged) ∧ join s f q = f) ∨
    (∃ first, f.entries.lookup q = some first ∧ first ≠ s ∧ q ∉ f.merged ∧ join s f q =
      { f with merged := q :: f.merged, findings := f.findings ++ [⟨some q, .disagreement first s⟩] }) := by
  unfold join
  split
  · exact .inl ⟨‹_›, rfl⟩
  · rename_i first hl
    split
    · exact .inr (.inl ⟨first, hl, ‹_›, rfl⟩)
    · rename_i hn
      rw [not_or] at hn
      exact .inr (.inr ⟨first, hl, hn.1, hn.2, rfl⟩)

/-- What is kept when a finding is added, and by each path into a block, is kept when a block is looked at. -/
theorem visit_keeps {P : Flow → Prop} (hf : P f)
    (hfound : ∀ x, through b k.start (k.code b) ((f.entries.lookup k.start).getD []) = .error x →
      P { f with findings := f.findings ++ [x] })
    (hjoin : ∀ g s q, q ∈ k.successors b → P g → P (join s g q)) : P (visit b k f) := by
  unfold visit
  split
  · exact hfound _ ‹_›
  · exact List.foldlRecOn _ _ hf fun g hg q hq => hjoin g _ q hq hg

/-! ### What a flow knows is kept -/

/-- All that is known of the flow `f` is known of `g` as well. -/
structure Grows (f g : Flow) : Prop where
  lookup : ∀ p s, f.entries.lookup p = some s → g.entries.lookup p = some s
  queue : ∀ p ∈ f.queue, p ∈ g.queue
  findings : f.findings <+: g.findings

theorem Grows.refl : Grows f f := ⟨fun _ _ h => h, fun _ h => h, List.prefix_rfl⟩

theorem Grows.trans {h : Flow} (hfg : Grows f g) (hgh : Grows g h) : Grows f h :=
  ⟨fun p s hl => hgh.lookup p s (hfg.lookup p s hl), fun p hp => hgh.queue p (hfg.queue p hp),
    hfg.findings.trans hgh.findings⟩

theorem Grows.findings_eq_nil (h : Grows f g) (hg : g.findings = []) : f.findings = [] :=
  List.prefix_nil.1 (hg ▸ h.findings)

theorem grows_join : Grows f (join s f q) := by
  rcases join_cases s f q with ⟨hl, he⟩ | ⟨_, -, -, he⟩ | ⟨_, -, -, -, he⟩ <;> rw [he]
  · refine ⟨fun p x hp => ?_, fun p hp => List.mem_append_left _ hp, List.prefix_rfl⟩
    have hne : p ≠ q := fun h => by rw [h, hl] at hp; cases hp
    simpa [List.lookup_cons, beq_false_of_ne hne] using hp
  · exact Grows.refl
  · exact ⟨fun _ _ h => h, fun _ h => h, List.prefix_append _ _⟩

theorem grows_foldl_join {qs : List Nat} : Grows f (qs.foldl (join s) f) :=
  List.foldlRecOn qs (join s) Grows.refl fun _ hg _ _ => hg.trans grows_join

theorem grows_visit : Grows f (visit b k f) :=
  visit_keeps Grows.refl (fun _ _ => ⟨fun _ _ h => h, fun _ h => h, List.prefix_append _ _⟩)
    fun _ _ _ _ hg => hg.trans grows_join

/-! ### The queue -/

/-- The bookkeeping of a flow when `n` more blocks may be looked at. -/
structure Tracked (b : Body) (n : Nat) (f : Flow) : Prop where
  entry : f.entries.lookup 0 = some []
  leaders : ∀ p ∈ f.entries.map Prod.fst, p ∈ leaders b
  nodup : (f.entries.map Prod.fst).Nodup
  queued : ∀ p ∈ f.queue, ∃ s, f.entries.lookup p = some s
  budget : n + f.entries.length = f.queue.length + (blocks b).length

private theorem lookup_eq_none_iff {l : List (Nat × Stack)} : l.lookup q = none ↔ q ∉ l.map Prod.fst := by
  induction l with
  | nil => simp
  | cons e l ih =>
    obtain ⟨p, s⟩ := e
    by_cases h : q = p
    · simp [h]
    · simp [List.lookup_cons, beq_false_of_ne h, ih, h]

theorem Tracked.start (hne : b.entries ≠ []) : Tracked b (blocks b).length { entries := [(0, [])], queue := [0] } := by
  refine ⟨rfl, ?_, by simp, ?_, Nat.add_comm _ _⟩
  · intro p hp
    obtain rfl : p = 0 := by simpa using hp
    exact zero_mem_leaders hne
  · intro p hp
    obtain rfl : p = 0 := by simpa using hp
    exact ⟨[], rfl⟩

theorem Tracked.join (h : Tracked b n f) (hq : q ∈ Typing.leaders b) : Tracked b n (join s f q) := by
  have hgrow : Grows f (Flow.join s f q) := grows_join
  rcases join_cases s f q with ⟨hl, he⟩ | ⟨_, -, -, he⟩ | ⟨_, -, -, -, he⟩ <;> rw [he] at hgrow ⊢
  · refine ⟨hgrow.lookup _ _ h.entry, ?_, ?_, ?_, ?_⟩
    · intro p hp
      rcases List.mem_cons.1 hp with rfl | hp
      · exact hq
      · exact h.leaders p hp
    · exact List.nodup_cons.2 ⟨lookup_eq_none_iff.1 hl, h.nodup⟩
    · intro p hp
      rcases List.mem_append.1 hp with hp | hp
      · obtain ⟨x, hx⟩ := h.queued p hp
        exact ⟨x, hgrow.lookup p x hx⟩
      · obtain rfl := List.mem_singleton.1 hp
        exact ⟨s, List.lookup_cons_self ..⟩
    · -- one more block is known, and one more is queued
      have := h.budget
      simp only [List.length_cons, List.length_append, List.length_nil]
      omega
  · exact h
  · exact ⟨h.entry, h.leaders, h.nodup, h.queued, h.budget⟩

theorem Tracked.visit (h : Tracked b n f) (hk : IsBlock b k) : Tracked b n (visit b k f) :=
  visit_keeps h (fun _ _ => ⟨h.entry, h.leaders, h.nodup, h.queued, h.budget⟩)
    fun _ _ _ hq hg => hg.join (hk.mem_leaders_of_successor hq)

theorem Tracked.pop {rest : List Nat} (h : Tracked b (n + 1) f) (hq : f.queue = p :: rest) :
    Tracked b n { f with queue := rest } := by
  refine ⟨h.entry, h.leaders, h.nodup, fun q hq' => h.queued q (by rw [hq]; exact List.mem_cons_of_mem _ hq'), ?_⟩
  have := h.budget
  rw [hq, List.length_cons] at this
  dsimp only
  omega

/-- No more blocks than there are can have been reached, so the queue is empty when the budget is used up. -/
theorem Tracked.queue_eq_nil (h : Tracked b 0 f) : f.queue = [] := by
  have hle : (f.entries.map Prod.fst).length ≤ (Typing.leaders b).length :=
    (List.subperm_of_subset h.nodup h.leaders).length_le
  have := h.budget
  rw [List.length_map] at hle
  rw [length_blocks] at this
  exact List.length_eq_zero_iff.1 (by omega)

/-- The block that is looked at for the head of the queue. -/
theorem Tracked.find?_block {rest : List Nat} (h : Tracked b n f) (hq : f.queue = p :: rest) :
    ∃ k ∈ blocks b, k.start = p ∧ (blocks b).find? (fun k => k.start == p) = some k := by
  obtain ⟨s, hs⟩ := h.queued p (by simp [hq])
  have hmem : p ∈ f.entries.map Prod.fst := by
    by_contra hn
    rw [lookup_eq_none_iff.2 hn] at hs
    cases hs
  obtain ⟨k, hk, hstart⟩ := exists_block_at (h.leaders p hmem)
  cases hf : (blocks b).find? (fun k => k.start == p) with
  | none => exact absurd (List.find?_eq_none.1 hf k hk) (by simp [hstart])
  | some k' => exact ⟨k', List.mem_of_find?_eq_some hf, by simpa using List.find?_some hf, rfl⟩

/-! ### All of the queue -/

/-- A property of flows that looking at the block at the head of the queue keeps holds of the last flow, and the queue
of the last flow is empty. -/
theorem drain_induction {P : Flow → Prop} (h : Tracked b n f) (start : P f)
    (step : ∀ f p rest k s, P f → f.queue = p :: rest → f.entries.lookup p = some s → k ∈ blocks b → k.start = p →
      P (visit b k { f with queue := rest })) :
    P (drain b (blocks b) n f) ∧ (drain b (blocks b) n f).queue = [] := by
  induction n generalizing f with
  | zero => exact ⟨start, h.queue_eq_nil⟩
  | succ n ih =>
    cases hq : f.queue with
    | nil => simpa [drain, hq] using start
    | cons p rest =>
      obtain ⟨k, hk, hstart, hfind⟩ := h.find?_block hq
      obtain ⟨s, hs⟩ := h.queued p (by simp [hq])
      -- the budget goes down by the block that is looked at
      have hdrain : drain b (blocks b) (n + 1) f = drain b (blocks b) n (visit b k { f with queue := rest }) := by
        simp only [drain, hq, hfind]
      rw [hdrain]
      exact ih ((h.pop hq).visit (isBlock_of_mem hk)) (step f p rest k s start hq hs hk hstart)

end Graft.Typing.Flow
