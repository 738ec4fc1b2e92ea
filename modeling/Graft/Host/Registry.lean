import Graft.Host.MethodTable
import Graft.Plan.Apply
import Graft.Script

/-!
# Registered patches

A registry holds at most one patch for each method and applies it at most once.

* `register` adds a patch, unless its method has one.
* `applyTo` loads a copy of the method, edits it and commits it; what it failed with is kept until it is tried again.
-/

namespace Graft

/-- An edit of a method body. -/
inductive Patch where
  | rules (rules : List BoundRule)
  | script (script : Script)
deriving Inhabited

/-- The body after a patch, if it succeeds. A script may bind new feeds. -/
def Patch.edit (b : Body) (p : Providers) : Patch → Except PatchError Body × Providers
  | rules rs => (BoundRule.applyAll rs b, p)
  | script ss =>
    match Script.run ⟨{ body := b }, p⟩ ss with
    | (.ok (), d) => (.ok d.cursor.body, d.providers)
    | (.error e, d) => (.error e, d.providers)

/-- How far a patch has come. -/
inductive PatchState where
  | pending
  /-- Committed, with the digest of the committed body. -/
  | applied (digest : String)
  | failed (error : PatchError)
deriving DecidableEq

instance : Inhabited PatchState := ⟨.pending⟩

/-- A patch under its name. -/
structure Registration where
  name : String
  patch : Patch
  state : PatchState := .pending
deriving Inhabited

/-- The patches by the methods they are for. -/
structure Registry where
  byTarget : Dict MethodId Registration := {}
deriving Inhabited

/-- What an attempt to apply the patch of a method has done. -/
inductive Attempt where
  | applied
  | alreadyApplied
  | notRegistered
deriving DecidableEq, Repr

namespace Registry

/-- The registration for a method. -/
def get? (r : Registry) (target : MethodId) : Option Registration := r.byTarget.get? target

/-- The registry with a patch for a method, unless there is one already. -/
def register (r : Registry) (target : MethodId) (name : String) (patch : Patch) : Bool × Registry :=
  if r.byTarget.contains target then (false, r) else (true, ⟨r.byTarget.insert target ⟨name, patch, .pending⟩⟩)

/-- The registry with another state for a registration. -/
def setState (r : Registry) (target : MethodId) (g : Registration) (s : PatchState) : Registry :=
  ⟨r.byTarget.insert target { g with state := s }⟩

end Registry

/-- Methods, patches for them, and the sources that their bodies take values from. -/
structure World where
  table : MethodTable := {}
  registry : Registry := {}
  providers : Providers := {}
deriving Inhabited

namespace World

/-- Loads a copy of a method, edits it and commits it; gives the digest of the edited body. If the digest cannot be
taken, the body has been committed all the same. -/
def runPatch (w : World) (target : MethodId) (patch : Patch) : Except PatchError String × World :=
  match w.table.load target with
  | .error e => (.error (.body e), w)
  | .ok b =>
    match patch.edit b w.providers with
    | (.error e, p) => (.error e, { w with providers := p })
    | (.ok b, p) =>
      match w.table.commit b with
      | .error e => (.error (.body e), { w with providers := p })
      | .ok t => (b.digestText.mapError .body, { w with table := t, providers := p })

/-- Applies the patch of a method, if it has one that is not applied yet. -/
def applyTo (w : World) (target : MethodId) : Except PatchError Attempt × World :=
  match w.registry.get? target with
  | none => (.ok .notRegistered, w)
  | some g =>
    match g.state with
    | .applied _ => (.ok .alreadyApplied, w)
    | _ =>
      match w.runPatch target g.patch with
      | (.ok digest, w) => (.ok .applied, { w with registry := w.registry.setState target g (.applied digest) })
      | (.error e, w) => (.error e, { w with registry := w.registry.setState target g (.failed e) })

end World

end Graft
