import Graft.Settings.Store
import Graft.Source

/-!
# Providers

The sources that bodies take values from: the settings, and feeds, each of which answers with the values of a list, one
after the other.

* `read` asks a source for a value.
* `supply` makes a source ready to be bound into a body.
-/

namespace Graft

/-- A list of answers under a name and with a declared type. The last answer is repeated for ever. -/
structure Feed where
  name : String
  type : ValueType
  answers : List Value
deriving DecidableEq, Inhabited

/-- The next answer, and the feed after it. -/
def Feed.next (f : Feed) : Value × Feed :=
  match f.answers with
  | [] => (f.type.default, f)
  | [v] => (v, f)
  | v :: rest => (v, { f with answers := rest })

/-- The state of all sources. -/
structure Providers where
  settings : Settings := {}
  feeds : Array Feed := #[]
deriving Inhabited

/-- The description of a source that a `call` is to ask. -/
inductive Supply where
  /-- The setting under this key. -/
  | setting (key : String)
  /-- A new feed. -/
  | feed (feed : Feed)
deriving DecidableEq, Inhabited

namespace Providers

/-- The value of a source, and the state of the sources after it was asked. -/
def read (src : Source) (p : Providers) : Value × Providers :=
  match src with
  | .setting key =>
    match p.settings.get? key with
    | some s => (s.current, p)
    | none => (.bool false, p)
  | .feed n =>
    match p.feeds[n]? with
    | some f =>
      let (v, f) := f.next
      (v, { p with feeds := p.feeds.setIfInBounds n f })
    | none => (.bool false, p)

/-- What a body needs to know of the setting under a key. -/
def settingBinding? (p : Providers) (key : String) : Option Binding :=
  (p.settings.get? key).map fun s => ⟨key, s.type, .setting key⟩

/-- What a body needs to know of a source. -/
def supply (p : Providers) : Supply → Except PatchError Binding × Providers
  | .setting key =>
    match p.settingBinding? key with
    | some x => (.ok x, p)
    | none => (.error (.unknownSetting key), p)
  | .feed f => (.ok ⟨f.name, f.type, .feed p.feeds.size⟩, { p with feeds := p.feeds.push f })

end Providers

end Graft
