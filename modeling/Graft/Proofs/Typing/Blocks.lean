import Graft.Proofs.Body.Content
import Graft.Proofs.Typing.Operands
import Mathlib.Data.List.Chain

/-!
# Blocks

The blocks of a body are consecutive, and only the last instruction of a block ends one.

* `mem_leaders` says where blocks start.
* `IsBlock` collects what is true of every block (`isBlock_of_mem`); blocks that share a position are the same
  (`IsBlock.unique`).
* `isChain_blocks` and `flatMap_positions_blocks` say that the blocks follow one another over all positions, and that each
  position lies in one.
* `mem_successors` ties the edges between blocks to the control flow between positions.
* `fallOffFindings_eq` is what is found about control that runs past the last instruction.
-/

namespace Graft.Typing

variable {b : Body} {k k' : Block}

/-! ### Leaders -/

private theorem mem_afterEnds {is : List Instruction} {n q : Nat} :
    q ∈ afterEnds n is ↔ ∃ p i, is[p]? = some i ∧ i.op.endsBlock = true ∧ q = n + p + 1 := by
  induction is generalizing n with
  | nil => simp [afterEnds]
  | cons i is ih =>
    have hstep : q ∈ afterEnds n (i :: is) ↔ (i.op.endsBlock = true ∧ q = n + 1) ∨ q ∈ afterEnds (n + 1) is := by
      rw [afterEnds]
      split <;> rename_i he <;> simp [he]
    rw [hstep, ih]
    constructor
    · rintro (⟨he, rfl⟩ | ⟨p, j, hj, he, rfl⟩)
      · exact ⟨0, i, rfl, he, rfl⟩
      · exact ⟨p + 1, j, hj, he, by omega⟩
    · rintro ⟨p, j, hj, he, rfl⟩
      cases p with
      | zero => left; simp_all
      | succ p => right; exact ⟨p, j, hj, he, by omega⟩

/-- The positions at which a block starts. -/
theorem mem_leaders {p : Nat} : p ∈ leaders b ↔ p < b.length ∧ (p = 0 ∨ (∃ i ∈ b.instrs, b.target? i = some p) ∨
    ∃ q i, b.instr? q = some i ∧ i.op.endsBlock = true ∧ p = q + 1) := by
  simp only [leaders, List.mem_filter, List.mem_range, Bool.or_eq_true, beq_iff_eq, List.contains_iff_mem,
    List.mem_append, List.mem_filterMap, mem_afterEnds, Nat.zero_add]
  simp only [Body.instr?, Body.instrs, List.getElem?_map]

private theorem leaders_sorted : (leaders b).Pairwise (· < ·) :=
  List.Pairwise.filter _ List.pairwise_lt_range

theorem lt_length_of_mem_leaders {p : Nat} (h : p ∈ leaders b) : p < b.length := (mem_leaders.1 h).1

theorem zero_mem_leaders (h : b.entries ≠ []) : 0 ∈ leaders b :=
  mem_leaders.2 ⟨List.length_pos_iff.2 h, .inl rfl⟩

/-! ### Blocks between leaders -/

/-- What is true of every block of a body. -/
structure IsBlock (b : Body) (k : Block) : Prop where
  start : k.start ∈ leaders b
  start_lt : k.start < k.stop
  stop_le : k.stop ≤ b.length
  stop : k.stop < b.length → k.stop ∈ leaders b
  inner : ∀ p, k.start < p → p < k.stop → p ∉ leaders b

private theorem blocksOf_spec {n : Nat} {starts : List Nat} (hs : starts.Pairwise (· < ·)) (hn : ∀ p ∈ starts, p < n)
    (hk : k ∈ blocksOf n starts) :
    k.start ∈ starts ∧ k.start < k.stop ∧ (k.stop = n ∨ k.stop ∈ starts) ∧
      ∀ p, k.start < p → p < k.stop → p ∉ starts := by
  fun_induction blocksOf n starts with
  | case1 => simp at hk
  | case2 start =>
    obtain rfl := List.mem_singleton.1 hk
    refine ⟨by simp, hn start (by simp), .inl rfl, ?_⟩
    intro p hp _ hm
    obtain rfl := List.mem_singleton.1 hm
    exact Nat.lt_irrefl _ hp
  | case3 start next starts ih =>
    rw [List.pairwise_cons] at hs
    rcases List.mem_cons.1 hk with rfl | hk
    · refine ⟨by simp, hs.1 next (by simp), .inr (by simp), ?_⟩
      intro p hp hlt hm
      rw [List.mem_cons, List.mem_cons] at hm
      rcases hm with rfl | rfl | hm
      · exact Nat.lt_irrefl _ hp
      · exact Nat.lt_irrefl _ hlt
      · have := (List.pairwise_cons.1 hs.2).1 p hm
        dsimp only at hlt
        omega
    · obtain ⟨h1, h2, h3, h4⟩ := ih hs.2 (fun p hp => hn p (List.mem_cons_of_mem _ hp)) hk
      refine ⟨List.mem_cons_of_mem _ h1, h2, h3.imp_right (List.mem_cons_of_mem _), ?_⟩
      intro p hp hlt hm
      rcases List.mem_cons.1 hm with rfl | hm
      · have := hs.1 _ h1
        omega
      · exact h4 p hp hlt hm

theorem isBlock_of_mem (hk : k ∈ blocks b) : IsBlock b k := by
  have hn : ∀ p ∈ leaders b, p < b.length := fun p => lt_length_of_mem_leaders
  obtain ⟨h1, h2, h3, h4⟩ := blocksOf_spec leaders_sorted hn hk
  refine ⟨h1, h2, ?_, ?_, h4⟩
  · rcases h3 with h3 | h3
    · exact Nat.le_of_eq h3
    · exact Nat.le_of_lt (hn _ h3)
  · intro hlt
    rcases h3 with h3 | h3
    · omega
    · exact h3

private theorem exists_blocksOf {n p : Nat} {starts : List Nat} (hp : p ∈ starts) :
    ∃ k ∈ blocksOf n starts, k.start = p := by
  fun_induction blocksOf n starts with
  | case1 => simp at hp
  | case2 start => exact ⟨⟨start, n⟩, by simp, (List.mem_singleton.1 hp).symm⟩
  | case3 start next starts ih =>
    rcases List.mem_cons.1 hp with rfl | hp
    · exact ⟨⟨p, next⟩, by simp, rfl⟩
    · obtain ⟨k, hk, h⟩ := ih hp
      exact ⟨k, List.mem_cons_of_mem _ hk, h⟩

/-- A block starts at every leader. -/
theorem exists_block_at {p : Nat} (hp : p ∈ leaders b) : ∃ k ∈ blocks b, k.start = p := exists_blocksOf hp

theorem length_blocks : (blocks b).length = (leaders b).length := by
  have h : ∀ starts, (blocksOf b.length starts).length = starts.length := by
    intro starts
    fun_induction blocksOf b.length starts with
    | case1 => rfl
    | case2 => rfl
    | case3 start next starts ih => simp [ih]
  exact h _

/-- Blocks that share a position are the same. -/
theorem IsBlock.unique (h : IsBlock b k) (h' : IsBlock b k') {p : Nat} (hp : k.start ≤ p ∧ p < k.stop)
    (hp' : k'.start ≤ p ∧ p < k'.stop) : k = k' := by
  have hstart : k.start = k'.start := by
    rcases Nat.lt_trichotomy k.start k'.start with hlt | heq | hlt
    · exact absurd h'.start (h.inner _ hlt (by omega))
    · exact heq
    · exact absurd h.start (h'.inner _ hlt (by omega))
  have hstop : k.stop = k'.stop := by
    have := h.stop_le
    have := h'.stop_le
    rcases Nat.lt_trichotomy k.stop k'.stop with hlt | heq | hlt
    · exact absurd (h.stop (by omega)) (h'.inner _ (by omega) hlt)
    · exact heq
    · exact absurd (h'.stop (by omega)) (h.inner _ (by omega) hlt)
  cases k; cases k'; simp_all

/-! ### One block after another -/

/-- The positions of a block, in their order. -/
def Block.positions (k : Block) : List Nat := List.range' k.start (k.stop - k.start)

theorem Block.mem_positions {p : Nat} : p ∈ k.positions ↔ k.start ≤ p ∧ p < k.stop := by
  simp only [Block.positions, List.mem_range'_1]
  omega

private theorem head?_blocksOf {n p : Nat} {starts : List Nat} (hk : k ∈ (blocksOf n (p :: starts)).head?) :
    k.start = p := by
  cases starts with
  | nil =>
    obtain rfl := Option.some.inj hk
    rfl
  | cons next starts =>
    obtain rfl := Option.some.inj hk
    rfl

/-- Each block stops where the next one starts. -/
theorem isChain_blocks : (blocks b).IsChain fun k k' => k.stop = k'.start := by
  have h : ∀ starts, (blocksOf b.length starts).IsChain fun k k' => k.stop = k'.start := by
    intro starts
    fun_induction blocksOf b.length starts with
    | case1 => exact .nil
    | case2 start => exact .singleton _
    | case3 start next starts ih => exact List.isChain_cons.2 ⟨fun k hk => (head?_blocksOf hk).symm, ih⟩
  exact h _

private theorem flatMap_positions_blocksOf {n p : Nat} {starts : List Nat} (hs : (p :: starts).Pairwise (· < ·))
    (hn : ∀ q ∈ p :: starts, q < n) :
    (blocksOf n (p :: starts)).flatMap Block.positions = List.range' p (n - p) := by
  induction starts generalizing p with
  | nil => exact List.append_nil _
  | cons next starts ih =>
    have hlt : p < next := (List.pairwise_cons.1 hs).1 next List.mem_cons_self
    have hle : next < n := hn next (by simp)
    have hrest := ih (List.pairwise_cons.1 hs).2 fun q hq => hn q (List.mem_cons_of_mem p hq)
    have hsum : n - p = (next - p) + (n - next) := by omega
    have hnext : next = p + 1 * (next - p) := by omega
    rw [blocksOf, List.flatMap_cons, hrest, hsum, ← List.range'_append]
    congr 2

private theorem leaders_eq_cons (hne : b.entries ≠ []) : ∃ starts, leaders b = 0 :: starts := by
  have hzero := zero_mem_leaders hne
  cases hl : leaders b with
  | nil =>
    rw [hl] at hzero
    cases hzero
  | cons p starts =>
    rw [hl] at hzero
    rcases List.mem_cons.1 hzero with rfl | hzero
    · exact ⟨starts, rfl⟩
    · have hsorted := leaders_sorted (b := b)
      rw [hl, List.pairwise_cons] at hsorted
      exact absurd (hsorted.1 0 hzero) (Nat.not_lt_zero p)

/-- The positions of the blocks, one block after another, are those of the body. -/
theorem flatMap_positions_blocks (hne : b.entries ≠ []) :
    (blocks b).flatMap Block.positions = List.range b.length := by
  obtain ⟨starts, hl⟩ := leaders_eq_cons hne
  have hsorted := leaders_sorted (b := b)
  have hn : ∀ p ∈ leaders b, p < b.length := fun p => lt_length_of_mem_leaders
  rw [hl] at hsorted hn
  rw [blocks, hl, flatMap_positions_blocksOf hsorted hn, Nat.sub_zero, List.range_eq_range']

private theorem exists_last_blocksOf {n : Nat} {starts : List Nat} (hne : starts ≠ []) :
    ∃ before p, blocksOf n starts = before ++ [⟨p, n⟩] ∧ ∀ k ∈ before, k.stop ∈ starts := by
  fun_induction blocksOf n starts with
  | case1 => exact absurd rfl hne
  | case2 start => exact ⟨[], start, rfl, List.forall_mem_nil _⟩
  | case3 start next starts ih =>
    obtain ⟨before, p, hlast, hbefore⟩ := ih (List.cons_ne_nil _ _)
    refine ⟨⟨start, next⟩ :: before, p, by rw [hlast, List.cons_append], fun k hk => ?_⟩
    rcases List.mem_cons.1 hk with rfl | hk
    · simp
    · exact List.mem_cons_of_mem _ (hbefore k hk)

/-- Only the last block reaches to the end of the body. -/
theorem exists_last_block (hne : b.entries ≠ []) :
    ∃ before p, blocks b = before ++ [⟨p, b.length⟩] ∧ ∀ k ∈ before, k.stop < b.length := by
  obtain ⟨starts, hl⟩ := leaders_eq_cons hne
  have hleaders : leaders b ≠ [] := hl ▸ List.cons_ne_nil 0 starts
  obtain ⟨before, p, hlast, hbefore⟩ := exists_last_blocksOf (n := b.length) hleaders
  exact ⟨before, p, hlast, fun k hk => lt_length_of_mem_leaders (hbefore k hk)⟩

/-! ### Instructions of a block -/

theorem exists_instr {p : Nat} (hp : p < b.length) : ∃ i, b.instr? p = some i :=
  ⟨b.entries[p].instr, by rw [Body.instr?, List.getElem?_eq_getElem hp]; rfl⟩

theorem mem_instrs_of_instr? {p : Nat} {i : Instruction} (h : b.instr? p = some i) : i ∈ b.instrs :=
  List.mem_of_getElem? ((b.instrs_getElem? p).trans h)

theorem lt_length_of_instr? {p : Nat} {i : Instruction} (h : b.instr? p = some i) : p < b.length := by
  have := (List.getElem?_eq_some_iff.1 ((b.instrs_getElem? p).trans h)).1
  rwa [Body.length_instrs] at this

theorem drop_instrs {p : Nat} {i : Instruction} (h : b.instr? p = some i) :
    b.instrs.drop p = i :: b.instrs.drop (p + 1) := by
  obtain ⟨hp, hi⟩ := List.getElem?_eq_some_iff.1 ((b.instrs_getElem? p).trans h)
  rw [List.drop_eq_getElem_cons hp, hi]

theorem Block.code_length (h : IsBlock b k) : (k.code b).length = k.stop - k.start := by
  have := h.stop_le
  simp only [Block.code, List.length_take, List.length_drop, Body.length_instrs]
  omega

theorem Block.code_getElem? {j : Nat} (hj : k.start + j < k.stop) : (k.code b)[j]? = b.instr? (k.start + j) := by
  rw [Block.code, List.getElem?_take_of_lt (by omega), List.getElem?_drop, Body.instrs_getElem?]

/-- Only the last instruction of a block ends one. -/
theorem IsBlock.not_endsBlock (h : IsBlock b k) {p : Nat} {i : Instruction} (hp : k.start ≤ p) (hlt : p + 1 < k.stop)
    (hi : b.instr? p = some i) : i.op.endsBlock = false := by
  have hout := h.inner (p + 1) (by omega) hlt
  have := h.stop_le
  refine Bool.eq_false_iff.2 fun he => hout ?_
  exact mem_leaders.2 ⟨by omega, .inr (.inr ⟨p, i, hi, he, rfl⟩)⟩

/-! ### Edges between blocks -/

/-- A block starts at the target of an instruction. -/
theorem mem_leaders_of_target {p q : Nat} {i : Instruction} (hi : b.instr? p = some i)
    (ht : b.target? i = some q) : q ∈ leaders b := by
  obtain ⟨t, _, hq⟩ := Option.bind_eq_some_iff.1 ht
  have hlt : q < b.length := (List.findIdx?_eq_some_iff_getElem.1 hq).1
  exact mem_leaders.2 ⟨hlt, .inr (.inl ⟨i, mem_instrs_of_instr? hi, ht⟩)⟩

/-- Control goes on within a block from each instruction but the last to the next one, and nowhere else. -/
theorem IsBlock.edge_iff (h : IsBlock b k) {p q : Nat} (hp : k.start ≤ p) (hlt : p + 1 < k.stop) :
    Edge b p q ↔ q = p + 1 := by
  have hle := h.stop_le
  obtain ⟨i, hi⟩ := exists_instr (b := b) (p := p) (by omega)
  have he := h.not_endsBlock hp hlt hi
  rw [Opcode.endsBlock, Bool.or_eq_false_iff] at he
  constructor
  · rintro (⟨here, goesOn⟩ | ⟨here, branch, target⟩)
    · rfl
    · rw [hi, Option.some.injEq] at here
      rw [← here, he.1] at branch
      cases branch
  · rintro rfl
    exact .next hi he.2

/-- The starts of the blocks that control can go on to. -/
theorem mem_successors_iff {q : Nat} {i : Instruction} (hi : b.instr? (k.stop - 1) = some i) :
    q ∈ k.successors b ↔ (i.op.isTerminal = false ∧ k.stop < b.length ∧ q = k.stop) ∨ b.target? i = some q := by
  simp only [Block.successors, Block.fallsThrough, Block.last?, hi, Option.bind_some, List.mem_append,
    Option.mem_toList]
  refine or_congr ?_ Iff.rfl
  by_cases ht : i.op.isTerminal = false <;> by_cases hs : k.stop < b.length <;> simp [ht, hs]

/-- A successor of a block is the start of a block. -/
theorem IsBlock.mem_leaders_of_successor (h : IsBlock b k) {q : Nat} (hq : q ∈ k.successors b) : q ∈ leaders b := by
  have hle := h.stop_le
  have hlt := h.start_lt
  obtain ⟨i, hi⟩ := exists_instr (b := b) (p := k.stop - 1) (by omega)
  rcases (mem_successors_iff hi).1 hq with ⟨-, hstop, rfl⟩ | ht
  · exact h.stop hstop
  · exact mem_leaders_of_target hi ht

theorem isTerminal_iff {op : Opcode} : op.isTerminal = true ↔ op = .br ∨ op = .ret := by
  cases op <;> simp [Opcode.isTerminal]

theorem getLast?_instrs {i : Instruction} (hi : b.instr? (b.length - 1) = some i) : b.instrs.getLast? = some i := by
  rw [List.getLast?_eq_getElem?, Body.length_instrs, Body.instrs_getElem?, hi]

/-- Control does not run past the last instruction exactly if that is terminal. -/
theorem closed_iff {i : Instruction} (hi : b.instr? (b.length - 1) = some i) :
    Closed b ↔ i.op.isTerminal = true := by
  simp only [Closed, getLast?_instrs hi, Option.some.injEq, exists_eq_left', isTerminal_iff]

/-- Control runs past the last instruction unless that is terminal; the last block is named then. -/
theorem fallOffFindings_eq (hne : b.entries ≠ []) {i : Instruction} (hi : b.instr? (b.length - 1) = some i) :
    ∃ k, (blocks b).getLast? = some k ∧
      fallOffFindings b = if i.op.isTerminal then [] else [⟨some (b.length - 1), .fallsOff k.start⟩] := by
  obtain ⟨before, p, hblocks, hbefore⟩ := exists_last_block hne
  have hnone : before.filterMap (fun k => if k.fallsThrough b && b.length ≤ k.stop then
      some (⟨some (k.stop - 1), .fallsOff k.start⟩ : Finding) else none) = [] := by
    refine List.filterMap_eq_nil_iff.2 fun k hk => if_neg ?_
    have hstop := hbefore k hk
    simp only [Bool.and_eq_true, decide_eq_true_eq]
    omega
  refine ⟨⟨p, b.length⟩, by rw [hblocks, List.getLast?_concat], ?_⟩
  rw [fallOffFindings, hblocks, List.filterMap_append, hnone, List.nil_append]
  cases ht : i.op.isTerminal <;> simp [Block.fallsThrough, Block.last?, hi, ht]

/-- Control falls off the end nowhere exactly if the body is closed. -/
theorem fallOffFindings_eq_nil (hne : b.entries ≠ []) : fallOffFindings b = [] ↔ Closed b := by
  have hpos : 0 < b.length := List.length_pos_iff.2 hne
  obtain ⟨i, hi⟩ := exists_instr (b := b) (p := b.length - 1) (by omega)
  obtain ⟨k, -, hfindings⟩ := fallOffFindings_eq hne hi
  rw [closed_iff hi, hfindings]
  cases i.op.isTerminal <;> simp

/-- Control goes on from the last instruction of a block to the starts of the block's successors. -/
theorem IsBlock.mem_successors (h : IsBlock b k) (hfit : ∀ i ∈ b.instrs, Fits b i)
    (hclosed : Closed b) {q : Nat} : q ∈ k.successors b ↔ Edge b (k.stop - 1) q := by
  have hle := h.stop_le
  have hlt := h.start_lt
  obtain ⟨i, hi⟩ := exists_instr (b := b) (p := k.stop - 1) (by omega)
  rw [mem_successors_iff hi]
  constructor
  · rintro (⟨hgo, -, rfl⟩ | ht)
    · have hnext := Edge.next hi hgo
      rwa [Nat.sub_add_cancel (by omega)] at hnext
    · refine .jump hi (Bool.not_eq_false _ ▸ fun hb => ?_) ht
      rw [Body.target?, (hfit i (mem_instrs_of_instr? hi)).label?_eq_none hb] at ht
      cases ht
  · rintro (⟨here, goesOn⟩ | ⟨here, branch, target⟩)
    · rw [hi, Option.some.injEq] at here
      subst here
      refine .inl ⟨goesOn, ?_, by omega⟩
      -- a block that reaches to the end of the body ends with a terminal instruction
      rcases Nat.lt_or_ge k.stop b.length with hstop | hstop
      · exact hstop
      · have heq : k.stop = b.length := by omega
        rw [heq] at hi
        rw [(closed_iff hi).1 hclosed] at goesOn
        cases goesOn
    · rw [hi, Option.some.injEq] at here
      exact .inr (here ▸ target)

end Graft.Typing
