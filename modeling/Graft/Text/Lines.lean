/-!
# Lines of a text

A line ends at a line feed. A carriage return right before the line feed belongs to the line's end, and what follows
the last line feed is a line only if it is not empty.
-/

namespace Graft.Text

/-- A reversed line without the carriage return that stands before its line feed. -/
def dropReturn : List Char → List Char
  | '\r' :: cs => cs
  | cs => cs

/-- The lines of a text, without their ends. -/
def lines (cs : List Char) : List (List Char) :=
  go [] cs
where
  /-- The lines of `cs`, where the reverse of `acc` already stands on the first of them. -/
  go (acc : List Char) : List Char → List (List Char)
    | [] => if acc.isEmpty then [] else [acc.reverse]
    | c :: cs => if c = '\n' then (dropReturn acc).reverse :: go [] cs else go (c :: acc) cs

end Graft.Text
