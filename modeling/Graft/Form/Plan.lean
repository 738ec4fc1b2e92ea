import Graft.Form.Pattern
import Graft.Plan.Basic
import Graft.Settings.Store

/-!
# The forms of plans and snapshots

* `Plan.ofText` reads a plan and validates it, and `Plan.text` writes one.
* `Snapshot.ofText` reads the values of settings, and `Snapshot.text` writes them.
-/

namespace Graft

/-- The declaration of a setting is an object; unlike other records it is not read from an array. All its fields must be
sound; only what is not looked at in the default value may be broken. -/
def SettingSpec.form : Form SettingSpec where
  write s :=
    .obj [("key", .str s.key), ("default", Value.form.write s.default), ("label", .str s.label),
      ("category", .str s.category)]
  read
    | .obj fields =>
      match Json.record? ["key", "default", "label", "category"] 4 (.obj fields) with
      | some [key, default, label, category] => do
        guard (fields.all fun (name, j) => name == "default" || j.isSound)
        let key ← Form.string.required key
        let default ← Value.form.required default
        let label ← Form.string.required label
        let category ← Form.string.required category
        return { key, default, label, category }
      | _ => none
    | _ => none

/-- A rule is a record, in which the occurrence may be missing: then the first one is meant. -/
def Rule.form : Form Rule where
  write r :=
    .obj [("pattern", Pattern.form.write r.pattern), ("occurrence", .int r.occurrence), ("setting", .str r.setting)]
  read j :=
    match j.record? ["pattern", "occurrence", "setting"] 3 with
    | some [pattern, occurrence, setting] => do
      let pattern ← Pattern.form.required pattern
      let occurrence ← (Form.natural 1 UInt64.size).optional 1 occurrence
      let setting ← Form.string.required setting
      return { pattern, occurrence, setting }
    | _ => none

/-- A patch is a record of its target, its name and its rules. -/
def PlanPatch.form : Form PlanPatch where
  write p :=
    .obj [("target", MethodId.form.write p.target), ("name", .str p.name), ("rules", Rule.form.list.write p.rules)]
  read j :=
    match j.record? ["target", "name", "rules"] 3 with
    | some [target, name, rules] => do
      let target ← MethodId.form.required target
      let name ← Form.string.required name
      let rules ← Rule.form.list.required rules
      return { target, name, rules }
    | _ => none

/-- A plan is a record of settings and patches, both of which may be missing. -/
def Plan.form : Form Plan where
  write p :=
    .obj [("settings", SettingSpec.form.list.write p.settings), ("patches", PlanPatch.form.list.write p.patches)]
  read j :=
    match j.record? ["settings", "patches"] 0 with
    | some [settings, patches] => do
      let settings ← SettingSpec.form.list.optional [] settings
      let patches ← PlanPatch.form.list.optional [] patches
      return { settings, patches }
    | _ => none

/-- The plan that a text denotes, if nothing is wrong with it. -/
def Plan.ofText (s : String) : Except PatchError Plan :=
  match form.ofText? s with
  | none => .error .unreadable
  | some p => p.validate.map fun _ => p

/-- The text of a plan. -/
def Plan.text (p : Plan) : String := form.pretty p

namespace Snapshot

/-- A snapshot is a record of one object, which holds the values under their keys. Of two values under one key the later
one counts. -/
def form : Form Snapshot where
  write s := .obj [("values", .obj (s.toList.map fun e => (e.1, Value.form.write e.2)))]
  read j :=
    match j.record? ["values"] 1 with
    | some [some (.obj fields)] => (fields.mapM fun f => (Value.form.read f.2).map fun v => (f.1, v)).map Dict.ofList
    | _ => none

/-- The snapshot that a text denotes. -/
def ofText (s : String) : Except PatchError Snapshot :=
  match form.ofText? s with
  | none => .error .unreadable
  | some snap => .ok snap

/-- The text of a snapshot. -/
def text (s : Snapshot) : String := form.pretty s

end Snapshot

end Graft
