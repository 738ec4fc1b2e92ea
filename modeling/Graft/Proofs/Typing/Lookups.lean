import Graft.Proofs.Typing.Causes
import Graft.Proofs.Typing.Exactness
import Mathlib.Data.Nat.PSub

/-!
# Lookups of the second stage

The second stage of verification looks up blocks by their starts, instructions by their positions, and what the operands
of instructions name, all on the strength of the first stage. Here it is written so that it fails as a whole where a
single lookup finds nothing, and it never does (`flowFindings?_eq`).

* `Node` is a block with the blocks that control can go on to, and `node?` looks them up by their starts.
* `through?`, `visit?` and `drain?` carry stacks along; `drain?` fails as well if blocks are still queued at its end.
* `blocks_graph` puts together what the blocks of a body are and how control goes on between them.
-/

namespace Graft.Typing

variable {b : Body} {k : Block} {i : Instruction} {s : Stack} {f : Flow}

/-! ### Lookups that may fail -/

/-- The block that starts at a position. -/
def blockAt? (ks : List Block) (start : Nat) : Option Block := ks.find? fun k => k.start == start

/-- The block at the target of an instruction; there is none if the instruction has no label. -/
def jump? (b : Body) (ks : List Block) (i : Instruction) : Option (List Block) :=
  match i.label? with
  | none => some []
  | some t => do
    let target ← b.positionOf? t
    let k ← blockAt? ks target
    return [k]

/-- A block, the blocks that control can go on to, the one behind it first, and what is found if control runs past the
last instruction. -/
structure Node where
  block : Block
  next : List Block
  fallOff : Option Finding
deriving DecidableEq, Repr

/-- The node of the block that starts at a position. The last position of the block has to be there, with an instruction,
and so has the block at the target of that. -/
def node? (b : Body) (ks : List Block) (start : Nat) : Option Node := do
  let k ← blockAt? ks start
  let last ← k.stop.ppred
  let i ← b.instr? last
  let jump ← jump? b ks i
  if i.op.isTerminal then return ⟨k, jump, none⟩
  else
    match blockAt? ks k.stop with
    | some behind => return ⟨k, behind :: jump, none⟩
    | none => return ⟨k, jump, some ⟨some last, .fallsOff start⟩⟩

/-- The stack after an instruction, or the rule that it breaks. What the rule looks up has to be there. -/
def next? (b : Body) (i : Instruction) (s : Stack) : Option (Except Cause Stack) :=
  if resolves b i then some (next b i s) else none

/-- The stack after the `n` instructions from a position on, all of which have to be there. -/
def through? (b : Body) : (pos n : Nat) → Stack → Option (Except Finding Stack)
  | _, 0, s => some (.ok s)
  | pos, n + 1, s => do
    let i ← b.instr? pos
    match ← next? b i s with
    | .ok s => through? b (pos + 1) n s
    | .error c => return .error ⟨some pos, c⟩

namespace Flow

/-- The flow after a block has been looked at. The stack on its entry has to be there. -/
def visit? (b : Body) (node : Node) (f : Flow) : Option Flow := do
  let s ← f.entries.lookup node.block.start
  match ← through? b node.block.start (node.block.stop - node.block.start) s with
  | .ok s => return (node.next.map Block.start).foldl (join s) f
  | .error finding => return { f with findings := f.findings ++ [finding] }

/-- The flow when the queue is empty, which it has to be after at most `n` blocks. Each block that is queued has to be
there. -/
def drain? (b : Body) (nodes : List Node) : Nat → Flow → Option Flow
  | 0, f => if f.queue.isEmpty then some f else none
  | n + 1, f =>
    match f.queue with
    | [] => some f
    | start :: queue => do
      let node ← nodes.find? fun node => node.block.start == start
      let f ← visit? b node { f with queue := queue }
      drain? b nodes n f

end Flow

/-- The findings of the second stage. The first block has to be there. -/
def flowFindings? (b : Body) : Option (List Finding) := do
  let nodes ← (blocks b).mapM fun k => node? b (blocks b) k.start
  let k ← blockAt? (blocks b) 0
  let f ← Flow.drain? b nodes nodes.length { entries := [(k.start, [])], queue := [k.start] }
  return nodes.filterMap Node.fallOff ++ f.findings

/-! ### All blocks are there -/

theorem blockAt?_start (hk : k ∈ blocks b) : blockAt? (blocks b) k.start = some k := by
  have hlt := (isBlock_of_mem hk).start_lt
  cases hfind : blockAt? (blocks b) k.start with
  | none => exact absurd (List.find?_eq_none.1 hfind k hk) (by simp)
  | some k' =>
    have hk' := isBlock_of_mem (List.mem_of_find?_eq_some hfind)
    have hstart : k'.start = k.start := by simpa using List.find?_some hfind
    have hlt' := hk'.start_lt
    rw [hk'.unique (isBlock_of_mem hk) (p := k.start) ⟨Nat.le_of_eq hstart, hstart ▸ hlt'⟩ ⟨Nat.le_refl _, hlt⟩]

theorem blockAt?_eq_none {q : Nat} (hq : b.length ≤ q) : blockAt? (blocks b) q = none := by
  refine List.find?_eq_none.2 fun k hk => ?_
  have hlt := lt_length_of_mem_leaders (isBlock_of_mem hk).start
  rw [beq_iff_eq]
  omega

private theorem exists_jump? {p : Nat} (hfit : Fits b i) (hi : b.instr? p = some i) :
    ∃ ks, jump? b (blocks b) i = some ks ∧ ks.map Block.start = (b.target? i).toList := by
  cases hb : i.op.isBranch with
  | false =>
    have hlabel : i.label? = none := hfit.label?_eq_none hb
    exact ⟨[], by rw [jump?, hlabel], by rw [Body.target?, hlabel]; rfl⟩
  | true =>
    obtain ⟨t, q, hlabel, hq, htarget⟩ := hfit.target hb
    obtain ⟨k, hk, rfl⟩ := exists_block_at (mem_leaders_of_target hi htarget)
    refine ⟨[k], ?_, by rw [htarget]; rfl⟩
    simp only [jump?, hlabel, hq, Option.bind_eq_bind, Option.bind_some, blockAt?_start hk]
    rfl

/-- What a block is looked up to be followed by is what follows it. -/
private theorem exists_node? (hfits : ∀ i ∈ b.instrs, Fits b i) (hk : k ∈ blocks b) :
    ∃ node, node? b (blocks b) k.start = some node ∧ node.block = k ∧ node.next.map Block.start = k.successors b ∧
      node.fallOff =
        if k.fallsThrough b && b.length ≤ k.stop then some ⟨some (k.stop - 1), .fallsOff k.start⟩ else none := by
  have hblock := isBlock_of_mem hk
  have hlt := hblock.start_lt
  have hle := hblock.stop_le
  have hlast : k.stop.ppred = some (k.stop - 1) := Nat.ppred_eq_some.2 (by omega)
  obtain ⟨i, hi⟩ := exists_instr (b := b) (p := k.stop - 1) (by omega)
  obtain ⟨jump, hjump, hstarts⟩ := exists_jump? (hfits i (mem_instrs_of_instr? hi)) hi
  simp only [node?, blockAt?_start hk, hlast, hi, hjump, Option.bind_eq_bind, Option.bind_some, Option.pure_def,
    Block.successors, Block.fallsThrough, Block.last?, ← hstarts]
  cases ht : i.op.isTerminal with
  | true => exact ⟨_, rfl, rfl, by simp, by simp⟩
  | false =>
    rcases Nat.lt_or_ge k.stop b.length with hstop | hstop
    · obtain ⟨behind, hmem, hstart⟩ := exists_block_at (hblock.stop hstop)
      have hbehind : blockAt? (blocks b) k.stop = some behind := hstart ▸ blockAt?_start hmem
      rw [hbehind]
      refine ⟨_, rfl, rfl, ?_, ?_⟩
      · simp [hstop, hstart]
      · simp [hstop]
    · rw [blockAt?_eq_none hstop]
      refine ⟨_, rfl, rfl, ?_, ?_⟩
      · simp [Nat.not_lt.2 hstop]
      · simp [hstop]

/-- The nodes that are looked up are those of the blocks, in their order. -/
private theorem exists_nodes (hfits : ∀ i ∈ b.instrs, Fits b i) :
    ∃ nodes, (blocks b).mapM (fun k => node? b (blocks b) k.start) = some nodes ∧
      nodes.map Node.block = blocks b ∧
      (∀ node ∈ nodes, node.next.map Block.start = node.block.successors b) ∧
      nodes.filterMap Node.fallOff = fallOffFindings b := by
  obtain ⟨nodes, hnodes⟩ := exists_forall₂ fun k hk => exists_node? hfits hk
  refine ⟨nodes, mapM_eq_some_iff.2 (hnodes.imp fun k node h => h.1), ?_, fun node hnode => ?_, ?_⟩
  · rw [← map_eq_of_forall₂ hnodes fun k node h => h.2.1.symm, List.map_id']
  · obtain ⟨k, -, -, hblock, hnext, -⟩ := exists_of_mem_right hnodes hnode
    rw [hnext, hblock]
  · exact (filterMap_eq_of_forall₂ hnodes fun k node h => h.2.2.2.symm).symm

/-! ### All that instructions name is there -/

private theorem through?_eq (hfits : ∀ i ∈ b.instrs, Fits b i) {pos n : Nat} (hle : pos + n ≤ b.length) :
    through? b pos n s = some (through b pos ((b.instrs.drop pos).take n) s) := by
  induction n generalizing pos s with
  | zero => rfl
  | succ n ih =>
    obtain ⟨i, hi⟩ := exists_instr (b := b) (p := pos) (by omega)
    have hresolves := (hfits i (mem_instrs_of_instr? hi)).resolves
    rw [drop_instrs hi, List.take_succ_cons]
    simp only [through?, through, hi, next?, hresolves, if_true, Option.bind_eq_bind, Option.bind_some]
    cases next b i s with
    | error c => rfl
    | ok s => exact ih (by omega)

namespace Flow

private theorem visit?_eq (hfits : ∀ i ∈ b.instrs, Fits b i) {node : Node} (hk : IsBlock b node.block)
    (hnext : node.next.map Block.start = node.block.successors b) (hs : f.entries.lookup node.block.start = some s) :
    visit? b node f = some (visit b node.block f) := by
  have hlt := hk.start_lt
  have hle := hk.stop_le
  have hthrough : through? b node.block.start (node.block.stop - node.block.start) s =
      some (through b node.block.start (node.block.code b) s) := through?_eq hfits (by omega)
  simp only [visit?, visit, hs, hthrough, hnext, Option.bind_eq_bind, Option.bind_some, Option.getD_some]
  cases through b node.block.start (node.block.code b) s <;> rfl

private theorem drain?_eq (hfits : ∀ i ∈ b.instrs, Fits b i) {nodes : List Node} (hblocks : nodes.map Node.block = blocks b)
    (hnext : ∀ node ∈ nodes, node.next.map Block.start = node.block.successors b) {n : Nat} (h : Tracked b n f) :
    drain? b nodes n f = some (drain b (blocks b) n f) := by
  induction n generalizing f with
  | zero => rw [drain?, h.queue_eq_nil]; rfl
  | succ n ih =>
    cases hq : f.queue with
    | nil => simp [drain?, drain, hq]
    | cons p rest =>
      obtain ⟨k, hk, hstart, hfind⟩ := h.find?_block hq
      obtain ⟨s, hs⟩ := h.queued p (by simp [hq])
      have hnode : ∃ node, nodes.find? (fun node => node.block.start == p) = some node ∧ node.block = k := by
        rw [← hblocks, List.find?_map, Option.map_eq_some_iff] at hfind
        exact hfind
      obtain ⟨node, hnode, rfl⟩ := hnode
      have hblock := isBlock_of_mem hk
      have hvisit := visit?_eq (f := { f with queue := rest }) hfits hblock (hnext node (List.mem_of_find?_eq_some hnode))
        (hstart ▸ hs)
      simp only [drain?, drain, hq, hnode, hfind, hvisit, Option.bind_eq_bind, Option.bind_some]
      exact ih ((h.pop hq).visit hblock)

end Flow

/-- If all operands fit, no lookup of the second stage fails. -/
theorem flowFindings?_eq (hne : b.entries ≠ []) (hfits : ∀ i ∈ b.instrs, Fits b i) :
    flowFindings? b = some (flowFindings b) := by
  obtain ⟨nodes, hnodes, hblocks, hnext, hfallOff⟩ := exists_nodes hfits
  obtain ⟨k, hk, hstart⟩ := exists_block_at (zero_mem_leaders hne)
  have hfirst : blockAt? (blocks b) 0 = some k := hstart ▸ blockAt?_start hk
  have hlength : nodes.length = (blocks b).length := by rw [← hblocks, List.length_map]
  have hdrain := Flow.drain?_eq hfits hblocks hnext (Flow.Tracked.start hne)
  simp only [flowFindings?, hnodes, hfirst, hstart, hlength, hdrain, hfallOff, Option.bind_eq_bind, Option.bind_some]
  rfl

/-- A lookup that finds nothing is not passed over. -/
example : flowFindings? ⟨⟨"A", "dangle"⟩, ⟨[], [], none⟩, [⟨⟨0⟩, .call, [.external 0]⟩, ⟨⟨1⟩, .ret, []⟩], #[], 2, none⟩ =
    none := by decide +kernel

/-! ### The blocks of a body -/

/-- The only blocks that control can go on to are those at the target of the last instruction and, unless that is `br` or
`ret`, behind it. -/
theorem IsBlock.mem_successors_iff_exists (h : IsBlock b k) {q : Nat} :
    q ∈ k.successors b ↔ (∃ k' ∈ blocks b, k'.start = q) ∧
      ∃ i, b.instr? (k.stop - 1) = some i ∧ (b.target? i = some q ∨ i.op ≠ .br ∧ i.op ≠ .ret ∧ q = k.stop) := by
  have hle := h.stop_le
  have hlt := h.start_lt
  obtain ⟨i, hi⟩ := exists_instr (b := b) (p := k.stop - 1) (by omega)
  have hgo : i.op.isTerminal = false ↔ i.op ≠ .br ∧ i.op ≠ .ret := by
    rw [← Bool.not_eq_true, isTerminal_iff, not_or]
  have hmem := mem_successors_iff (k := k) (q := q) hi
  rw [hgo] at hmem
  constructor
  · intro hq
    refine ⟨exists_block_at (h.mem_leaders_of_successor hq), i, hi, ?_⟩
    exact (hmem.1 hq).symm.imp_right fun ⟨hop, _, hstop⟩ => ⟨hop.1, hop.2, hstop⟩
  · rintro ⟨⟨k', hk', rfl⟩, j, hj, hgoes⟩
    obtain rfl := Option.some.inj (hi.symm.trans hj)
    have hstart := lt_length_of_mem_leaders (isBlock_of_mem hk').start
    exact hmem.2 (hgoes.symm.imp_left fun ⟨hbr, hret, hstop⟩ => ⟨⟨hbr, hret⟩, hstop ▸ hstart, hstop⟩)

/-- What is found about control that runs past the end is found in front of the second stage's other findings. -/
theorem filter_fallOff_flowFindings (hne : b.entries ≠ []) (hfits : ∀ i ∈ b.instrs, Fits b i) :
    (flowFindings b).filter (fun x => x.cause.flowRule? == some .fallOff) = fallOffFindings b := by
  have hnone : ∀ x ∈ (Flow.drain b (blocks b) (blocks b).length { entries := [(0, [])], queue := [0] }).findings,
      ¬(x.cause.flowRule? == some .fallOff) = true := by
    intro x hx
    rcases flowRule?_of_mem_drain hne hfits x hx with hrule | hrule <;> simp [hrule]
  rw [flowFindings, List.filter_append, List.filter_eq_nil_iff.2 hnone, List.append_nil]
  exact List.filter_eq_self.2 fun x hx => by simp [flowRule?_of_mem_fallOffFindings x hx]

/-- What the blocks of a body are and where control goes on from them, if it has instructions and all their operands fit.

* No block is empty, each stops where the next one starts, and together they hold every position once.
* A block starts at the target of each branch and behind each instruction that ends a block, unless that is the last
  one. In a block only the last instruction ends one.
* Control goes on from a block to those at the target of its last instruction and, unless that is `br` or `ret`, to the
  one behind.
* That control runs past the end is found exactly if the last instruction is neither `br` nor `ret`. It is found once.
* All constants, slots and external values that are named exist, and no lookup of the second stage fails. -/
theorem blocks_graph (hne : b.entries ≠ []) (hoperands : operandFindings b = []) :
    ((∀ k ∈ blocks b, k.start < k.stop) ∧ (blocks b).IsChain (fun k k' => k.stop = k'.start) ∧
      (blocks b).flatMap Block.positions = List.range b.length) ∧
    ((∀ p i, b.instr? p = some i → i.op.isBranch = true → ∃ k ∈ blocks b, b.target? i = some k.start) ∧
      (∀ p i, b.instr? p = some i → i.op.endsBlock = true → p + 1 < b.length → ∃ k ∈ blocks b, k.start = p + 1) ∧
      ∀ k ∈ blocks b, ∀ p ∈ k.positions, ∀ i, b.instr? p = some i → i.op.endsBlock = true → p + 1 = k.stop) ∧
    (∀ k ∈ blocks b, ∀ q, q ∈ k.successors b ↔ (∃ k' ∈ blocks b, k'.start = q) ∧
      ∃ i, b.instr? (k.stop - 1) = some i ∧ (b.target? i = some q ∨ i.op ≠ .br ∧ i.op ≠ .ret ∧ q = k.stop)) ∧
    (∃ k i, (blocks b).getLast? = some k ∧ b.instrs.getLast? = some i ∧
      b.findings.filter (fun x => x.cause.flowRule? == some .fallOff) =
        if i.op = .br ∨ i.op = .ret then [] else [⟨some (b.length - 1), .fallsOff k.start⟩]) ∧
    (∀ i ∈ b.instrs, resolves b i = true) ∧ flowFindings? b = some b.findings := by
  have hfits := operandFindings_eq_nil.1 hoperands
  have hpos : 0 < b.length := List.length_pos_iff.2 hne
  have hfindings : b.findings = flowFindings b := findings_eq_flowFindings hne hfits
  refine ⟨⟨fun k hk => (isBlock_of_mem hk).start_lt, isChain_blocks, flatMap_positions_blocks hne⟩,
    ⟨fun p i hi hb => ?_, fun p i hi he hp => ?_, fun k hk p hp i hi he => ?_⟩,
    fun k hk q => (isBlock_of_mem hk).mem_successors_iff_exists, ?_,
    fun i hi => (hfits i hi).resolves, hfindings ▸ flowFindings?_eq hne hfits⟩
  · obtain ⟨-, q, -, -, htarget⟩ := (hfits i (mem_instrs_of_instr? hi)).target hb
    obtain ⟨k, hk, rfl⟩ := exists_block_at (mem_leaders_of_target hi htarget)
    exact ⟨k, hk, htarget⟩
  · exact exists_block_at (mem_leaders.2 ⟨hp, .inr (.inr ⟨p, i, hi, he, rfl⟩)⟩)
  · obtain ⟨hstart, hstop⟩ := Block.mem_positions.1 hp
    by_contra hinner
    have hend := (isBlock_of_mem hk).not_endsBlock hstart (by omega) hi
    rw [he] at hend
    cases hend
  · obtain ⟨i, hi⟩ := exists_instr (b := b) (p := b.length - 1) (by omega)
    obtain ⟨k, hk, hfallOff⟩ := fallOffFindings_eq hne hi
    refine ⟨k, i, hk, getLast?_instrs hi, ?_⟩
    rw [hfindings, filter_fallOff_flowFindings hne hfits, hfallOff]
    simp only [isTerminal_iff]

/-- A loop that is left when its flag is `false`; behind it control runs past the last instruction. -/
def leaking : Body where
  method := ⟨"A", "leak"⟩
  signature := ⟨[.bool], [], none⟩
  entries := [⟨⟨0⟩, .ldarg, [.index 0]⟩, ⟨⟨1⟩, .brfalse, [.label ⟨4⟩]⟩, ⟨⟨2⟩, .nop, []⟩, ⟨⟨3⟩, .br, [.label ⟨0⟩]⟩,
    ⟨⟨4⟩, .nop, []⟩]
  nextId := 5

/-- The loop consists of two blocks, and control runs past the end behind the third one. -/
theorem blocks_graph_leaking : leaking.entries ≠ [] ∧ operandFindings leaking = [] ∧
    (blocks leaking).flatMap Block.positions = [0, 1, 2, 3, 4] ∧
    4 ∈ (Block.mk 0 2).successors leaking ∧
    leaking.findings.filter (fun x => x.cause.flowRule? == some .fallOff) = [⟨some 4, .fallsOff 4⟩] ∧
    flowFindings? leaking = some leaking.findings := by
  have hne : leaking.entries ≠ [] := List.cons_ne_nil _ _
  have hoperands : operandFindings leaking = [] := by decide +kernel
  have hblocks : blocks leaking = [⟨0, 2⟩, ⟨2, 4⟩, ⟨4, 5⟩] := by decide +kernel
  obtain ⟨⟨-, -, hpositions⟩, -, hedges, ⟨k, i, hk, hi, hfallOff⟩, -, hlookups⟩ := blocks_graph hne hoperands
  refine ⟨hne, hoperands, hpositions, ?_, ?_, hlookups⟩
  · refine (hedges ⟨0, 2⟩ (by simp [hblocks]) 4).2 ⟨⟨⟨4, 5⟩, by simp [hblocks], rfl⟩, ?_⟩
    exact ⟨⟨.brfalse, [.label ⟨4⟩]⟩, rfl, .inl rfl⟩
  · rw [hblocks] at hk
    obtain rfl : (⟨4, 5⟩ : Block) = k := Option.some.inj hk
    obtain rfl : (⟨.nop, []⟩ : Instruction) = i := Option.some.inj hi
    exact hfallOff

end Graft.Typing
