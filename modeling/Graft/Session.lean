import Graft.Host.Basic

/-!
# Sessions

A session is a host whose registry is told of methods. A plan is installed and setting values are applied before the
first method is loaded, so that loading a method patches it.
-/

namespace Graft.Session

/-- The host with a plan installed, if there is one. -/
def installed (h : Host) : Option Plan → Except PatchError Host
  | none => .ok h
  | some plan =>
    match h.install plan with
    | (.ok _, h) => .ok h
    | (.error e, _) => .error e

/-- The host with the values of a snapshot, if there is one. -/
def restored (h : Host) : Option Snapshot → Except PatchError Host
  | none => .ok h
  | some snap => (h.world.providers.settings.applySnapshot snap).map fun (_, s) => h.withSettings s

/-- The host at the beginning of a session. -/
def start (plan : Option Plan) (snap : Option Snapshot) : Except PatchError Host := do
  let h ← installed {} plan
  let h ← restored h snap
  return h.subscribe .registry

/-- The host with all bodies defined. -/
def load (h : Host) (bs : List Body) : Except Error Host :=
  match h.defineAll bs with
  | (.ok (), h) => .ok h
  | (.error e, _) => .error e

end Graft.Session
