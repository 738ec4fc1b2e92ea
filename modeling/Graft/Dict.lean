/-!
# Dictionaries

A dictionary holds entries with distinct keys, in increasing order of the keys.

* `insert` adds an entry or replaces the one under the same key, and `get?` looks one up.
-/

namespace Graft

/-- Entries in increasing order of their keys. -/
structure Dict (κ α : Type) where
  toList : List (κ × α) := []
deriving DecidableEq, Repr, Inhabited

namespace Dict

variable {κ α β : Type} [DecidableEq κ] [LT κ] [DecidableLT κ]

/-- The entry lists with `v` under `k`. -/
def insertEntry (k : κ) (v : α) : List (κ × α) → List (κ × α)
  | [] => [(k, v)]
  | (k', v') :: l =>
    if k = k' then (k, v) :: l
    else if k < k' then (k, v) :: (k', v') :: l
    else (k', v') :: insertEntry k v l

/-- The dictionary with `v` under `k`. -/
def insert (d : Dict κ α) (k : κ) (v : α) : Dict κ α := ⟨insertEntry k v d.toList⟩

/-- The value under a key. -/
def get? (d : Dict κ α) (k : κ) : Option α := d.toList.lookup k

/-- Whether there is a value under a key. -/
def contains (d : Dict κ α) (k : κ) : Bool := (d.get? k).isSome

/-- The dictionary with the values of a list of entries; of two entries with one key the later one counts. -/
def ofList (l : List (κ × α)) : Dict κ α := l.foldl (fun d e => d.insert e.1 e.2) {}

omit [DecidableEq κ] [LT κ] [DecidableLT κ]

/-- The keys in increasing order. -/
def keys (d : Dict κ α) : List κ := d.toList.map Prod.fst

/-- The values in the order of their keys. -/
def values (d : Dict κ α) : List α := d.toList.map Prod.snd

/-- The number of entries. -/
def size (d : Dict κ α) : Nat := d.toList.length

/-- The dictionary with a function applied to every value. -/
def map (f : α → β) (d : Dict κ α) : Dict κ β := ⟨d.toList.map fun e => (e.1, f e.2)⟩

end Dict

end Graft
