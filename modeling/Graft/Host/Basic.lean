import Graft.Assembly.Reader
import Graft.Host.Install

/-!
# Hosts

A host tells its hooks of every method that is defined, right after it is stored. A hook may itself load, edit and
commit methods.

* `define`, `defineIntrinsic` and `loadModule` define methods.
* A hook is the registry, which applies the method's patch, or a recorder, which notes what it can load.
-/

namespace Graft

/-- Who is told of methods. -/
inductive Hook where
  | registry
  | recorder (tag : String)
deriving DecidableEq, Repr, Inhabited

/-- What a recorder has noted: the method it was told of and the copy that it could load. -/
structure Event where
  tag : String
  method : MethodId
  loaded : Except Error Body

/-- A world with hooks, in the order of their subscription, and the notes of the recorders. -/
structure Host where
  world : World := {}
  hooks : List Hook := []
  events : List Event := []

instance : Inhabited Host := ⟨{}⟩

namespace Host

/-- The host with one more hook, which is told of the methods defined from now on. -/
def subscribe (h : Host) (hook : Hook) : Host := { h with hooks := h.hooks ++ [hook] }

/-- The host after a hook was told of a method. -/
def tell (id : MethodId) (h : Host) : Hook → Host
  | .registry => { h with world := (h.world.applyTo id).2 }
  | .recorder tag => { h with events := h.events ++ [⟨tag, id, h.world.table.load id⟩] }

/-- The host after all hooks were told of a method. -/
def notify (h : Host) (id : MethodId) : Host := h.hooks.foldl (tell id) h

/-- The host with another method table. -/
def withTable (h : Host) (t : MethodTable) : Host := { h with world := { h.world with table := t } }

/-- The host with other settings. -/
def withSettings (h : Host) (s : Settings) : Host :=
  { h with world := { h.world with providers := { h.world.providers with settings := s } } }

/-- Stores a body that passes verification and tells the hooks. -/
def define (h : Host) (b : Body) : Except Error Host :=
  (h.world.table.store b).map fun t => (h.withTable t).notify b.method

/-- Stores an intrinsic method and tells the hooks. -/
def defineIntrinsic (h : Host) (id : MethodId) (s : Signature) (n : Native) : Host :=
  (h.withTable (h.world.table.storeIntrinsic id s n)).notify id

/-- Defines bodies up to the first that does not pass verification. -/
def defineAll : Host → List Body → Except Error Unit × Host
  | h, [] => (.ok (), h)
  | h, b :: bs =>
    match h.define b with
    | .error e => (.error e, h)
    | .ok h => defineAll h bs

/-- Reads an assembly text and defines its methods; gives their identities. Methods before one that fails stay. -/
def loadModule (h : Host) (src : String) : Except Error (List MethodId) × Host :=
  match Assembly.bodies src.toList with
  | .error e => (.error e, h)
  | .ok bs =>
    let (result, h) := h.defineAll bs
    (result.map fun _ => bs.map Body.method, h)

/-- Puts an edited copy back in place of the live body. -/
def commit (h : Host) (b : Body) : Except Error Host := (h.world.table.commit b).map h.withTable

/-- Runs a method. -/
def invoke (h : Host) (id : MethodId) (args : List Value) : Except Error (Option Value) × Host :=
  let (result, p) := h.world.table.invoke Providers.read id args h.world.providers
  (result, { h with world := { h.world with providers := p } })

/-- Applies the patch of a method. -/
def applyTo (h : Host) (id : MethodId) : Except PatchError Attempt × Host :=
  let (result, w) := h.world.applyTo id
  (result, { h with world := w })

/-- Installs a plan. -/
def install (h : Host) (plan : Plan) : Except PatchError InstallReport × Host :=
  let (result, w) := h.world.install plan
  (result, { h with world := w })

end Host

end Graft
