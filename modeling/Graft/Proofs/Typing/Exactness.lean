import Graft.Proofs.Typing.Worklist

/-!
# Verification is exact

Verification finds nothing wrong with a body exactly if the body is well typed, instruction by instruction
(`violations_eq_nil_iff_wellTyped`).

* If nothing is found, the stacks on entry of the blocks extend to a stack for every position that control reaches
  (`Flow.Settled`).
* If there is a stack for every such position, then the worklist only ever carries these stacks (`Flow.Follows`).
-/

namespace Graft.Typing

variable {b : Body} {k : Block} {f : Flow} {s s' : Stack} {T : Nat → Stack} {p q : Nat}

/-! ### Along a list of instructions -/

/-- A list of instructions that can be gone through can be gone through up to any of its instructions, and from there
one further. -/
private theorem through_take {is : List Instruction} {pos j : Nat} {i : Instruction}
    (h : through b pos is s = .ok s') (hi : is[j]? = some i) :
    ∃ r r', through b pos (is.take j) s = .ok r ∧ next b i r = .ok r' ∧ through b pos (is.take (j + 1)) s = .ok r' := by
  induction is generalizing pos j s with
  | nil => simp at hi
  | cons i₀ is ih =>
    cases hn : next b i₀ s with
    | error c => simp [through, hn] at h
    | ok s₁ =>
      simp only [through, hn] at h
      cases j with
      | zero =>
        obtain rfl : i₀ = i := by simpa using hi
        exact ⟨s, s₁, rfl, hn, by simp [through, hn]⟩
      | succ j =>
        obtain ⟨r, r', h₁, h₂, h₃⟩ := ih h (by simpa using hi)
        exact ⟨r, r', by simpa [through, hn] using h₁, h₂, by simpa [through, hn] using h₃⟩

/-! ### From the worklist to a stack for every position -/

namespace Flow

/-- The stack before the instruction at a position, computed from the stack on entry of its block. -/
def stackAt (b : Body) (f : Flow) (p : Nat) : Stack :=
  match (blocks b).find? fun k => decide (k.start ≤ p ∧ p < k.stop) with
  | none => []
  | some k =>
    match through b k.start ((k.code b).take (p - k.start)) ((f.entries.lookup k.start).getD []) with
    | .ok s => s
    | .error _ => []

/-- Every block that has been reached and is no longer queued can be gone through, and its successors have been reached
with the stack that it leaves. -/
def Settled (b : Body) (f : Flow) : Prop :=
  ∀ p s, f.entries.lookup p = some s → p ∈ f.queue ∨
    ∃ k ∈ blocks b, k.start = p ∧ ∃ s', through b p (k.code b) s = .ok s' ∧
      ∀ q ∈ k.successors b, f.entries.lookup q = some s'

private theorem foldl_join_settled {qs : List Nat} (hm : f.merged = []) (hf : (qs.foldl (join s) f).findings = []) :
    (qs.foldl (join s) f).merged = [] ∧ (∀ q ∈ qs, (qs.foldl (join s) f).entries.lookup q = some s) ∧
      ∀ q x, (qs.foldl (join s) f).entries.lookup q = some x →
        f.entries.lookup q = some x ∨ q ∈ (qs.foldl (join s) f).queue := by
  induction qs generalizing f with
  | nil => exact ⟨hm, by simp, fun q x h => .inl h⟩
  | cons q₀ qs ih =>
    rw [List.foldl_cons] at hf ⊢
    have hgrow : Grows (join s f q₀) (qs.foldl (join s) (join s f q₀)) := grows_foldl_join
    have hnil := hgrow.findings_eq_nil hf
    -- without findings, `join` either reaches a new block or agrees with what is known
    have hjoin : (join s f q₀).merged = [] ∧ (join s f q₀).entries.lookup q₀ = some s ∧
        ∀ q x, (join s f q₀).entries.lookup q = some x → f.entries.lookup q = some x ∨ q ∈ (join s f q₀).queue := by
      rcases join_cases s f q₀ with ⟨hl, he⟩ | ⟨first, hl, hfirst, he⟩ | ⟨first, -, -, -, he⟩ <;> rw [he] at hnil ⊢
      · refine ⟨hm, by simp, fun q x hx => ?_⟩
        by_cases hq : q = q₀
        · exact .inr (by simp [hq])
        · exact .inl (by simpa [List.lookup_cons, beq_false_of_ne hq] using hx)
      · rw [hm] at hfirst
        obtain rfl : first = s := by simpa using hfirst
        exact ⟨hm, hl, fun q x hx => .inl hx⟩
      · simp at hnil
    obtain ⟨h₁, h₂, h₃⟩ := ih hjoin.1 hf
    refine ⟨h₁, ?_, ?_⟩
    · intro q hq
      rcases List.mem_cons.1 hq with rfl | hq
      · exact hgrow.lookup _ _ hjoin.2.1
      · exact h₂ q hq
    · intro q x hx
      rcases h₃ q x hx with hx | hx
      · exact (hjoin.2.2 q x hx).imp_right (hgrow.queue q)
      · exact .inr hx

/-- What looking at a block keeps as long as nothing is found. -/
private theorem settled_visit {rest : List Nat} (hm : f.merged = []) (h : Settled b f) (hq : f.queue = p :: rest)
    (hs : f.entries.lookup p = some s) (hk : k ∈ blocks b) (hstart : k.start = p)
    (hf : (visit b k { f with queue := rest }).findings = []) :
    (visit b k { f with queue := rest }).merged = [] ∧ Settled b (visit b k { f with queue := rest }) := by
  subst hstart
  unfold visit at hf ⊢
  simp only [hs, Option.getD_some] at hf ⊢
  cases ht : through b k.start (k.code b) s with
  | error c => simp [ht] at hf
  | ok s' =>
    simp only [ht] at hf ⊢
    have hgrow : Grows { f with queue := rest } ((k.successors b).foldl (join s') { f with queue := rest }) :=
      grows_foldl_join
    obtain ⟨h₁, h₂, h₃⟩ := foldl_join_settled (f := { f with queue := rest }) hm hf
    refine ⟨h₁, fun q x hx => ?_⟩
    rcases h₃ q x hx with hx | hx
    · by_cases hqk : q = k.start
      · -- the block that has just left the queue
        subst hqk
        obtain rfl : x = s := Option.some.inj (hx.symm.trans hs)
        exact .inr ⟨k, hk, rfl, s', ht, h₂⟩
      · rcases h q x hx with hmem | ⟨k', hk', hstart', s'', ht', hsucc⟩
        · rw [hq] at hmem
          exact .inl (hgrow.queue q ((List.mem_cons.1 hmem).resolve_left hqk))
        · exact .inr ⟨k', hk', hstart', s'', ht', fun r hr => hgrow.lookup r s'' (hsucc r hr)⟩
    · exact .inl hx

/-- Position `p` lies in a block that has been reached, and the instructions before it in the block lead to the
stack `s`. -/
def Covers (b : Body) (f : Flow) (p : Nat) (s : Stack) : Prop :=
  ∃ k ∈ blocks b, k.start ≤ p ∧ p < k.stop ∧ ∃ s₀, f.entries.lookup k.start = some s₀ ∧
    through b k.start ((k.code b).take (p - k.start)) s₀ = .ok s

private theorem Covers.start (hq : q ∈ leaders b) (hl : f.entries.lookup q = some s) : Covers b f q s := by
  obtain ⟨k, hk, rfl⟩ := exists_block_at hq
  refine ⟨k, hk, Nat.le_refl _, (isBlock_of_mem hk).start_lt, s, hl, ?_⟩
  rw [Nat.sub_self]
  rfl

private theorem Covers.stackAt_eq (h : Covers b f p s) : stackAt b f p = s := by
  obtain ⟨k, hk, hle, hlt, s₀, hl, ht⟩ := h
  have hfind : (blocks b).find? (fun k => decide (k.start ≤ p ∧ p < k.stop)) = some k := by
    cases hf : (blocks b).find? (fun k => decide (k.start ≤ p ∧ p < k.stop)) with
    | none => exact absurd (List.find?_eq_none.1 hf k hk) (by simp [hle, hlt])
    | some k' =>
      have hk' : k'.start ≤ p ∧ p < k'.stop := by simpa using List.find?_some hf
      rw [(isBlock_of_mem (List.mem_of_find?_eq_some hf)).unique (isBlock_of_mem hk) hk' ⟨hle, hlt⟩]
  simp only [stackAt, hfind, hl, Option.getD_some, ht]

/-- From a covered position, the rule of the instruction leads to the stack of every position that control goes on
to, and covers it. -/
private theorem Covers.step (hw : Settled b f) (hq : f.queue = []) (hfit : ∀ i ∈ b.instrs, Fits b i)
    (hclosed : Closed b) (h : Covers b f p s) :
    ∃ i s', b.instr? p = some i ∧ next b i s = .ok s' ∧ ∀ q, Edge b p q → Covers b f q s' := by
  obtain ⟨k, hk, hle, hlt, s₀, hl, ht⟩ := h
  have hblock := isBlock_of_mem hk
  have hstop := hblock.stop_le
  obtain ⟨i, hi⟩ := exists_instr (b := b) (p := p) (by omega)
  obtain ⟨k', hk', hstart, s₁, hall, hsucc⟩ := (hw _ _ hl).resolve_left (by simp [hq])
  obtain rfl : k' = k :=
    (isBlock_of_mem hk').unique hblock ⟨Nat.le_of_eq hstart, hstart ▸ (isBlock_of_mem hk').start_lt⟩
      ⟨Nat.le_refl _, hblock.start_lt⟩
  have hcode : (k'.code b)[p - k'.start]? = some i := by
    rw [Block.code_getElem? (by omega), Nat.add_sub_cancel' hle, hi]
  obtain ⟨r, s', hr, hnext, hs'⟩ := through_take hall hcode
  obtain rfl : r = s := by
    rw [ht] at hr
    exact (Except.ok.inj hr).symm
  refine ⟨i, s', hi, hnext, fun q hedge => ?_⟩
  rcases Nat.lt_or_ge (p + 1) k'.stop with hin | hlast
  · obtain rfl := (hblock.edge_iff hle hin).1 hedge
    refine ⟨k', hk, by omega, hin, s₀, hl, ?_⟩
    rwa [Nat.sub_add_comm hle]
  · -- the last instruction of the block: its stack is the one that the successors were reached with
    obtain rfl : p = k'.stop - 1 := by omega
    have hfull : (k'.code b).take (k'.stop - 1 - k'.start + 1) = k'.code b :=
      List.take_of_length_le (by rw [Block.code_length hblock]; omega)
    rw [hfull, hall] at hs'
    obtain rfl := Except.ok.inj hs'
    have hmem := (hblock.mem_successors hfit hclosed).2 hedge
    exact Covers.start (hblock.mem_leaders_of_successor hmem) (hsucc q hmem)

/-- The stacks that the blocks were reached with make an assignment. -/
private theorem Settled.assignment (hw : Settled b f) (hq : f.queue = []) (hentry : f.entries.lookup 0 = some [])
    (hne : b.entries ≠ []) (hfit : ∀ i ∈ b.instrs, Fits b i) (hclosed : Closed b) :
    Assignment b (stackAt b f) := by
  have hstart : Covers b f 0 [] := Covers.start (zero_mem_leaders hne) hentry
  have hcovers : ∀ p, Reachable b p → ∃ s, Covers b f p s := by
    intro p hp
    induction hp with
    | refl => exact ⟨[], hstart⟩
    | tail _ hedge ih =>
      obtain ⟨s, hs⟩ := ih
      obtain ⟨-, s', -, -, hnext⟩ := hs.step hw hq hfit hclosed
      exact ⟨s', hnext _ hedge⟩
  refine ⟨hstart.stackAt_eq, fun p hp => ?_⟩
  obtain ⟨s, hs⟩ := hcovers p hp
  obtain ⟨i, s', hi, hnext, hedge⟩ := hs.step hw hq hfit hclosed
  exact ⟨i, s', hi, hs.stackAt_eq ▸ hnext, fun q hq => (hedge q hq).stackAt_eq⟩

end Flow

/-! ### From a stack for every position to the worklist -/

/-- Going through the rest of a block from a position that control reaches meets no broken rule, and leaves the stack of
all positions that control goes on to from the block. -/
private theorem Assignment.through_rest (hT : Assignment b T) (hk : IsBlock b k) (hp : Reachable b p) {m : Nat}
    (hle : k.start ≤ p) (hm : p + m + 1 = k.stop) :
    Reachable b (k.stop - 1) ∧ ∃ s, through b p ((b.instrs.drop p).take (m + 1)) (T p) = .ok s ∧
      ∀ q, Edge b (k.stop - 1) q → T q = s := by
  -- `m` counts the instructions between `p` and the last one of the block
  induction m generalizing p with
  | zero =>
    obtain ⟨i, s, hi, hnext, hedge⟩ := hT.step p hp
    obtain rfl : p = k.stop - 1 := by omega
    refine ⟨hp, s, ?_, hedge⟩
    rw [drop_instrs hi]
    simp [through, hnext]
  | succ m ih =>
    obtain ⟨i, s, hi, hnext, hedge⟩ := hT.step p hp
    have hgo : Edge b p (p + 1) := (hk.edge_iff hle (by omega)).2 rfl
    obtain ⟨hlast, s', ht, hsucc⟩ := ih (hp.step hgo) (by omega) (by omega)
    refine ⟨hlast, s', ?_, hsucc⟩
    rw [hedge (p + 1) hgo] at ht
    rw [drop_instrs hi, List.take_succ_cons]
    simpa [through, hnext] using ht

namespace Flow

/-- All stacks that have been carried so far are those of an assignment, and nothing was found. -/
structure Follows (b : Body) (T : Nat → Stack) (f : Flow) : Prop where
  findings : f.findings = []
  stack : ∀ p s, f.entries.lookup p = some s → Reachable b p ∧ T p = s

private theorem Follows.join (h : Follows b T f) (hr : Reachable b q) (hs : T q = s) : Follows b T (join s f q) := by
  rcases join_cases s f q with ⟨-, he⟩ | ⟨_, -, -, he⟩ | ⟨first, hl, hne, -, -⟩
  · rw [he]
    refine ⟨h.findings, fun p x hx => ?_⟩
    by_cases hp : p = q
    · obtain rfl : s = x := by simpa [hp] using hx
      exact ⟨hp ▸ hr, hp ▸ hs⟩
    · exact h.stack p x (by simpa [List.lookup_cons, beq_false_of_ne hp] using hx)
  · rwa [he]
  · exact absurd ((h.stack q first hl).2.symm.trans hs) hne

private theorem Follows.foldl_join {qs : List Nat} (h : Follows b T f) (hqs : ∀ q ∈ qs, Reachable b q ∧ T q = s) :
    Follows b T (qs.foldl (Flow.join s) f) := by
  induction qs generalizing f with
  | nil => exact h
  | cons q qs ih =>
    have hq := hqs q (List.mem_cons_self ..)
    exact ih (h.join hq.1 hq.2) fun p hp => hqs p (List.mem_cons_of_mem _ hp)

private theorem Follows.visit {rest : List Nat} (hT : Assignment b T) (hfit : ∀ i ∈ b.instrs, Fits b i)
    (hclosed : Closed b) (h : Follows b T f) (hs : f.entries.lookup k.start = some s) (hk : IsBlock b k) :
    Follows b T (visit b k { f with queue := rest }) := by
  have hlt := hk.start_lt
  obtain ⟨hr, rfl⟩ := h.stack _ _ hs
  obtain ⟨hlast, s', ht, hsucc⟩ := hT.through_rest hk hr (m := k.stop - k.start - 1) (Nat.le_refl _) (by omega)
  rw [Nat.sub_add_cancel (by omega), ← Block.code] at ht
  unfold Flow.visit
  simp only [hs, Option.getD_some, ht]
  refine Follows.foldl_join ⟨h.findings, h.stack⟩ fun q hq => ?_
  have hedge := (hk.mem_successors hfit hclosed).1 hq
  exact ⟨hlast.step hedge, hsucc q hedge⟩

end Flow

/-! ### Both directions -/

private theorem assignment_of_findings (hne : b.entries ≠ []) (hfit : ∀ i ∈ b.instrs, Fits b i) (hclosed : Closed b)
    (h : (Flow.drain b (blocks b) (blocks b).length { entries := [(0, [])], queue := [0] }).findings = []) :
    ∃ T, Assignment b T := by
  have hlast := Flow.drain_induction (P := fun f => f.entries.lookup 0 = some [] ∧
      (f.findings = [] → f.merged = [] ∧ f.Settled b)) (Flow.Tracked.start hne) ?_ ?_
  · obtain ⟨⟨hentry, hsettled⟩, hq⟩ := hlast
    exact ⟨_, (hsettled h).2.assignment hq hentry hne hfit hclosed⟩
  · refine ⟨rfl, fun _ => ⟨rfl, fun p s hs => .inl ?_⟩⟩
    by_cases hp : p = 0
    · simp [hp]
    · simp [List.lookup_cons, beq_false_of_ne hp] at hs
  · intro f p rest k s hP hq hs hk hstart
    have hgrow : Flow.Grows { f with queue := rest } (Flow.visit b k { f with queue := rest }) := Flow.grows_visit
    refine ⟨hgrow.lookup _ _ hP.1, fun hf => ?_⟩
    obtain ⟨hm, hw⟩ := hP.2 (hgrow.findings_eq_nil hf)
    exact Flow.settled_visit hm hw hq hs hk hstart hf

private theorem findings_of_assignment (hne : b.entries ≠ []) (hfit : ∀ i ∈ b.instrs, Fits b i) (hclosed : Closed b)
    (hT : Assignment b T) :
    (Flow.drain b (blocks b) (blocks b).length { entries := [(0, [])], queue := [0] }).findings = [] := by
  refine (Flow.drain_induction (P := Flow.Follows b T) (Flow.Tracked.start hne) ?_ ?_).1.findings
  · refine ⟨rfl, fun p s hs => ?_⟩
    by_cases hp : p = 0
    · obtain rfl : s = [] := by simpa [hp] using hs.symm
      exact ⟨hp ▸ Reachable.start, hp ▸ hT.entry⟩
    · simp [List.lookup_cons, beq_false_of_ne hp] at hs
  · rintro f p rest k s hP - hs hk rfl
    exact hP.visit hT hfit hclosed hs (isBlock_of_mem hk)

/-- Stacks are looked at if all operands fit. -/
theorem findings_eq_flowFindings (hne : b.entries ≠ []) (hfit : ∀ i ∈ b.instrs, Fits b i) :
    b.findings = flowFindings b := by
  rw [Body.findings, List.isEmpty_eq_false_iff.2 hne, operandFindings_eq_nil.2 hfit]
  rfl

/-- A body with which nothing is wrong is well typed. -/
theorem wellTyped_of_findings (h : b.findings = []) : WellTyped b := by
  have hne : b.entries ≠ [] := by
    intro hnil
    simp [Body.findings, hnil] at h
  have hfit : ∀ i ∈ b.instrs, Fits b i := by
    rw [← operandFindings_eq_nil]
    rw [Body.findings, List.isEmpty_eq_false_iff.2 hne] at h
    cases ho : operandFindings b with
    | nil => rfl
    | cons x xs => simp [ho] at h
  rw [findings_eq_flowFindings hne hfit, flowFindings, List.append_eq_nil_iff] at h
  have hclosed := (fallOffFindings_eq_nil hne).1 h.1
  exact ⟨hne, hfit, hclosed, assignment_of_findings hne hfit hclosed h.2⟩

/-- Nothing is wrong with a well-typed body. -/
theorem WellTyped.findings (h : WellTyped b) : b.findings = [] := by
  obtain ⟨T, hT⟩ := h.typable
  rw [findings_eq_flowFindings h.nonempty h.fits, flowFindings, List.append_eq_nil_iff]
  exact ⟨(fallOffFindings_eq_nil h.nonempty).2 h.closed, findings_of_assignment h.nonempty h.fits h.closed hT⟩

theorem violations_eq_nil : b.violations = [] ↔ b.findings = [] := List.map_eq_nil_iff

theorem verify_eq_ok : b.verify = .ok () ↔ b.findings = [] := by
  rw [← violations_eq_nil, ← List.isEmpty_iff, Body.verify]
  split <;> simp [*]

/-- Verification accepts exactly the bodies that can be typed instruction by instruction. -/
theorem violations_eq_nil_iff_wellTyped (b : Body) : b.violations = [] ↔ WellTyped b := by
  rw [violations_eq_nil]
  exact ⟨wellTyped_of_findings, WellTyped.findings⟩

end Graft.Typing
