import Graft.Dict
import Graft.PatchError

/-!
# Settings

A store of values by key. Each setting has a type, which is that of its default value.

* `register` adds a setting, `set` and `reset` change its value.
* `snapshot` gives all current values, and `applySnapshot` brings values back, all of them or none.
-/

namespace Graft

/-- A setting: how it is shown to users, its default value and its current value. -/
structure Setting where
  label : String
  category : String
  default : Value
  current : Value
deriving DecidableEq, Inhabited

/-- The type of the values of a setting. -/
def Setting.type (s : Setting) : ValueType := s.default.type

/-- Settings by their keys. -/
structure Settings where
  byKey : Dict String Setting := {}
deriving DecidableEq, Inhabited

/-- Values by the keys of settings. -/
abbrev Snapshot := Dict String Value

namespace Settings

/-- The setting under a key. -/
def get? (s : Settings) (key : String) : Option Setting := s.byKey.get? key

/-- The error for a value that a setting does not take, if it does not. -/
def checkType (key : String) (expected found : ValueType) : Except PatchError Unit :=
  if found = expected then .ok () else .error (.settingType key expected found)

/-- Registers a setting, which then has its default value. A setting that is there already stays as it is, but its type
must be that of the default value given. -/
def register (s : Settings) (key : String) (default : Value) (label category : String) : Except PatchError Settings :=
  match s.get? key with
  | some old => (checkType key old.type default.type).map fun _ => s
  | none => .ok ⟨s.byKey.insert key ⟨label, category, default, default⟩⟩

/-- The settings with the value of one of them changed, and the value it had. -/
def set (s : Settings) (key : String) (v : Value) : Except PatchError (Value × Settings) :=
  match s.get? key with
  | none => .error (.unknownSetting key)
  | some old => do
    checkType key old.type v.type
    return (old.current, ⟨s.byKey.insert key { old with current := v }⟩)

/-- The settings with one of them back at its default value, and the value it had. -/
def reset (s : Settings) (key : String) : Except PatchError (Value × Settings) :=
  match s.get? key with
  | none => .error (.unknownSetting key)
  | some old => .ok (old.current, ⟨s.byKey.insert key { old with current := old.default }⟩)

/-- The current values. -/
def snapshot (s : Settings) : Snapshot := s.byKey.map Setting.current

/-- The entries of a snapshot whose keys are registered; fails at the first one with a value of another type. -/
def known (s : Settings) : List (String × Value) → Except PatchError (List (String × Value))
  | [] => .ok []
  | (key, v) :: rest =>
    match s.get? key with
    | none => s.known rest
    | some old => do
      checkType key old.type v.type
      return (key, v) :: (← s.known rest)

/-- The settings with a value written to one of them. -/
def write (s : Settings) (e : String × Value) : Settings :=
  match s.get? e.1 with
  | none => s
  | some old => ⟨s.byKey.insert e.1 { old with current := e.2 }⟩

/-- The settings with the values of a snapshot, as far as their keys are registered, and the number of these. Nothing is
written unless all values fit. -/
def applySnapshot (s : Settings) (snap : Snapshot) : Except PatchError (Nat × Settings) := do
  let entries ← s.known snap.toList
  return (entries.length, entries.foldl write s)

end Settings

end Graft
