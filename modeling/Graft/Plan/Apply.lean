import Graft.Cursor.Edit
import Graft.Plan.Basic

/-!
# Applying the rules of a patch

All rules select their instructions in the body as it is before any of them replaces one.
-/

namespace Graft

/-- A rule with the setting that it reads. -/
structure BoundRule where
  rule : Rule
  binding : Binding
deriving Inhabited

namespace BoundRule

/-- The instruction that a rule selects in a body. -/
def select? (b : Body) (r : BoundRule) : Option InstrId :=
  (({ body := b } : Cursor).findNth (fun i => r.rule.pattern.accepts i) r.rule.occurrence).pos?.bind b.id?

/-- The instructions that rules select in a body, none of them twice and none of them in `claimed`. -/
def selectAll (b : Body) (claimed : List InstrId) : List BoundRule → Except PatchError (List (InstrId × Binding))
  | [] => .ok []
  | r :: rs =>
    match r.select? b with
    | none => .error .noCurrentInstruction
    | some id =>
      if id ∈ claimed then .error (.plan (.claimedTwice r.rule.setting))
      else do return (id, r.binding) :: (← selectAll b (id :: claimed) rs)

/-- Replaces an instruction by a call. -/
def replace (c : Cursor) (id : InstrId) (x : Binding) : Except PatchError Cursor :=
  match (c.body.positionOf? id).bind c.seekTo? with
  | none => .error .noCurrentInstruction
  | some c =>
    match c.replaceCurrent x with
    | (.ok _, c) => .ok c
    | (.error e, _) => .error e

/-- The body with the instructions replaced that rules select. -/
def applyAll (rs : List BoundRule) (b : Body) : Except PatchError Body := do
  let selected ← selectAll b [] rs
  let c ← selected.foldlM (fun c (id, x) => replace c id x) ({ body := b } : Cursor)
  return c.body

end BoundRule

end Graft
