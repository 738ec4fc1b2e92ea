import Graft.Value

/-!
# Sources of external values

A `call` instruction takes its value from a source outside the body. A body knows a source by its reference only; what
a source answers is decided where the body runs.
-/

namespace Graft

/-- A reference to a source of values. -/
inductive Source where
  /-- The current value of the setting with this key. -/
  | setting (key : String)
  /-- The feed with this number. -/
  | feed (number : Nat)
deriving DecidableEq, Repr, Inhabited

/-- A source together with the name it is listed under and the type its values are declared to have. -/
structure Binding where
  name : String
  type : ValueType
  source : Source
deriving DecidableEq, Repr, Inhabited

end Graft
