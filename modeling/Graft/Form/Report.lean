import Graft.Form.Instruction
import Graft.Host.Registry

/-!
# Reports

What is told of bodies, settings and registrations, as JSON trees.

* `Body.decoded` tells the instructions of a body.
* `World.report` tells the registrations, the settings and the digests of methods.
-/

namespace Graft

/-- The method, the signature and the instructions of a body. -/
def Body.decoded (b : Body) : Json :=
  .obj [("method", MethodId.form.write b.method), ("signature", Signature.form.write b.signature),
    ("instructions", Instruction.form.list.write b.instrs)]

/-- The fields that tell how far a patch has come. -/
def PatchState.fields : PatchState → List (String × Json)
  | pending => [("state", .str "pending")]
  | applied digest => [("state", .str "applied"), ("digest", .str digest)]
  | failed error => [("state", .str "failed"), ("reason", .str error.message)]

/-- The registrations in the order of their targets. -/
def Registry.described (r : Registry) : Json :=
  .arr (r.byTarget.toList.map fun (target, g) =>
    .obj ([("target", MethodId.form.write target), ("name", .str g.name)] ++ g.state.fields))

/-- The settings in the order of their keys. -/
def Settings.described (s : Settings) : Json :=
  .arr (s.byKey.toList.map fun (key, x) =>
    .obj [("key", .str key), ("label", .str x.label), ("category", .str x.category),
      ("default", Value.form.write x.default), ("current", Value.form.write x.current)])

/-- The digest of a method's live body. -/
def World.digestOf (w : World) (id : MethodId) : Except Error Json := do
  let b ← w.table.body id
  let digest ← b.digestText
  return .obj [("method", .str id.text), ("digest", .str digest)]

/-- The registrations, the settings, and the digests of the methods `ids`. -/
def World.report (w : World) (ids : List MethodId) : Except Error Json := do
  let digests ← ids.mapM w.digestOf
  return .obj [("registrations", w.registry.described), ("settings", w.providers.settings.described),
    ("methods", .arr digests)]

end Graft
