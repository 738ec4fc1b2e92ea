/-!
# Cutting texts

What follows a given beginning, what stands before a given mark, and the parts between marks.
-/

namespace Graft.Text

/-- What follows `start` in a text that begins with it. -/
def after? : (start cs : List Char) → Option (List Char)
  | [], cs => some cs
  | _ :: _, [] => none
  | a :: start, c :: cs => if a = c then after? start cs else none

/-- What stands before `last` in a text that ends with it. -/
def before? (last : Char) (cs : List Char) : Option (List Char) :=
  if cs.getLast? = some last then some cs.dropLast else none

/-- The text up to the first two slashes in a row. -/
def untilSlashes : List Char → List Char
  | [] => []
  | c :: cs => if c = '/' ∧ cs.head? = some '/' then [] else c :: untilSlashes cs

/-- The parts of a text between the places where `mark` stands. -/
def partsAt (mark : Char) : List Char → List (List Char)
  | [] => [[]]
  | c :: cs =>
    if c = mark then [] :: partsAt mark cs
    else
      match partsAt mark cs with
      | [] => [[c]]
      | p :: ps => (c :: p) :: ps

/-- The text without its last closing parenthesis and what follows it, and what follows it. -/
def splitAtLastClose? : List Char → Option (List Char × List Char)
  | [] => none
  | c :: cs =>
    match splitAtLastClose? cs with
    | some (l, r) => some (c :: l, r)
    | none => if c = ')' then some ([], cs) else none

end Graft.Text
