import Graft.Body.Basic
import Graft.Typing.Finding

/-!
# Blocks

A body falls into blocks of consecutive instructions that control enters at the first and leaves after the last.

* `blocks` cuts the body at its leaders, which are position 0, the positions that labels name, and the positions after
  an instruction that ends a block.
* `successors` are the blocks that control can go on to.
-/

namespace Graft.Typing

/-- The positions from `start` up to but not including `stop`. -/
structure Block where
  start : Nat
  stop : Nat
deriving DecidableEq, Repr

/-- The positions that follow an instruction that ends a block, counted from `pos`. -/
def afterEnds : (pos : Nat) → List Instruction → List Nat
  | _, [] => []
  | pos, i :: is => if i.op.endsBlock then (pos + 1) :: afterEnds (pos + 1) is else afterEnds (pos + 1) is

/-- The positions at which a block starts, in increasing order. -/
def leaders (b : Body) : List Nat :=
  let marked := b.instrs.filterMap b.target? ++ afterEnds 0 b.instrs
  (List.range b.length).filter fun pos => pos == 0 || marked.contains pos

/-- The blocks with given starts; each goes up to the next, and the last one up to `stop`. -/
def blocksOf (stop : Nat) : List Nat → List Block
  | [] => []
  | [start] => [⟨start, stop⟩]
  | start :: next :: starts => ⟨start, next⟩ :: blocksOf stop (next :: starts)

/-- The blocks of a body, in their order. -/
def blocks (b : Body) : List Block := blocksOf b.length (leaders b)

namespace Block

/-- The instructions of a block. -/
def code (b : Body) (k : Block) : List Instruction := (b.instrs.drop k.start).take (k.stop - k.start)

/-- The last instruction of a block. -/
def last? (b : Body) (k : Block) : Option Instruction := b.instr? (k.stop - 1)

/-- Whether control goes on from the block to the position where it stops. -/
def fallsThrough (b : Body) (k : Block) : Bool :=
  match k.last? b with
  | some i => !i.op.isTerminal
  | none => false

/-- The starts of the blocks that control can go on to: the block behind this one first, then the target of the branch
at its end. -/
def successors (b : Body) (k : Block) : List Nat :=
  (if k.fallsThrough b && k.stop < b.length then [k.stop] else []) ++ ((k.last? b).bind b.target?).toList

end Block

/-- The findings about control that runs past the last instruction. -/
def fallOffFindings (b : Body) : List Finding :=
  (blocks b).filterMap fun k =>
    if k.fallsThrough b && b.length ≤ k.stop then some ⟨some (k.stop - 1), .fallsOff k.start⟩ else none

end Graft.Typing
