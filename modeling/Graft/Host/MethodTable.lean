import Graft.Body.Encoding
import Graft.Dict
import Graft.Execution.Run
import Graft.Typing.Flow

/-!
# Method tables

A table holds the methods that can be invoked: bodies, which can be copied, edited and put back, and intrinsic methods,
which cannot.

* `store` and `storeIntrinsic` put a method in, and `load` takes a working copy of a body.
* `commit` puts an edited copy back, unless the body was replaced since the copy was taken.
-/

namespace Graft

/-- What an intrinsic method does. -/
inductive Native where
  /-- Returns the argument at this place, if there is one. -/
  | argument (place : Nat)
  /-- Returns this. -/
  | constant (result : Option Value)
  /-- Fails with a division by zero. -/
  | divideByZero
deriving DecidableEq, Inhabited

/-- The outcome of an intrinsic method. -/
def Native.invoke (args : List Value) : Native → Except Error (Option Value)
  | argument n => .ok args[n]?
  | constant r => .ok r
  | divideByZero => .error (.divisionByZero 0)

/-- A method of a table. -/
inductive Method where
  | managed (body : Body)
  | intrinsic (signature : Signature) (native : Native)
deriving Inhabited

/-- The methods by their identities, and the number of revisions given out so far. -/
structure MethodTable where
  methods : Dict MethodId Method := {}
  /-- The number has no bound here, and agrees with a counter of 64 bits as long as fewer than `2 ^ 64` revisions are given
  out. -/
  revisions : Nat := 0
deriving Inhabited

namespace MethodTable

/-- The method with a given identity. -/
def get? (t : MethodTable) (id : MethodId) : Option Method := t.methods.get? id

/-- The table with a body in place of what its method was before, under a new revision. -/
def put (t : MethodTable) (b : Body) : MethodTable :=
  let revision := t.revisions + 1
  { methods := t.methods.insert b.method (.managed { b with revision := some revision }), revisions := revision }

/-- The table with a body that passes verification. -/
def store (t : MethodTable) (b : Body) : Except Error MethodTable := do
  b.verify
  return t.put b

/-- The table with an intrinsic method. -/
def storeIntrinsic (t : MethodTable) (id : MethodId) (s : Signature) (n : Native) : MethodTable :=
  { t with methods := t.methods.insert id (.intrinsic s n) }

/-- The live body of a method. -/
def body (t : MethodTable) (id : MethodId) : Except Error Body :=
  match t.get? id with
  | some (.managed b) => .ok b
  | some (.intrinsic _ _) => .error (.noBody id)
  | none => .error (.unknownMethod id)

/-- A working copy of a live body. -/
def load (t : MethodTable) (id : MethodId) : Except Error Body := t.body id

/-- The signature of a method. -/
def signature (t : MethodTable) (id : MethodId) : Except Error Signature :=
  match t.get? id with
  | some (.managed b) => .ok b.signature
  | some (.intrinsic s _) => .ok s
  | none => .error (.unknownMethod id)

/-- Whether a body was copied from another revision than the live one. A body that was never copied replaces any. -/
def isStale (live b : Body) : Bool := b.revision.isSome && b.revision != live.revision

/-- The table with an edited body in place of the live one. -/
def commit (t : MethodTable) (b : Body) : Except Error MethodTable := do
  let live ← t.body b.method
  b.verify
  if isStale live b then throw (.stale b.method)
  return t.put b

/-- Runs a method. -/
def invoke {σ : Type} (read : Source → σ → Value × σ) (t : MethodTable) (id : MethodId) (args : List Value) (s : σ) :
    Except Error (Option Value) × σ :=
  match t.get? id with
  | some (.managed b) => b.run read args Execution.defaultLimit s
  | some (.intrinsic _ n) => (n.invoke args, s)
  | none => (.error (.unknownMethod id), s)

end MethodTable

end Graft
