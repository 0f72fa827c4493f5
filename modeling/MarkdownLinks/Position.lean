import MarkdownLinks.Text.Lines

/-!
# Positions

A position is a range of source text between two points, which count lines and columns from one. Points are
read off a table of line starts: the line of an offset is the last one that starts at or before it.
-/

namespace MarkdownLinks

structure Point where
  line : Int
  column : Int
  deriving DecidableEq, Repr

/-- A range of the source; `stop` is one past the last character. -/
structure Position where
  start : Point
  stop : Point
  deriving DecidableEq, Repr

/-- The number of line starts at or before `offset` in an ascending table. -/
def linesUpTo (starts : List Int) (offset : Int) : Nat := go 0 starts.length (starts.length + 1)
where
  /-- Halves the part of the table between `lo` and `hi` in which the answer lies. -/
  go (lo hi : Nat) : Nat → Nat
    | 0 => lo
    | fuel + 1 =>
      if lo < hi then
        let mid := (lo + hi) / 2
        if offset < starts.getD mid 0 then go lo mid fuel else go (mid + 1) hi fuel
      else lo

/-- The point of an offset. An offset before the first line start belongs to line zero and is measured from
the last line start; a table without entries has no points. -/
def Point.ofOffset? (starts : List Int) (offset : Int) : Option Point :=
  let n := linesUpTo starts offset
  let start? := if n = 0 then starts.getLast? else starts[n - 1]?
  start?.map fun start => ⟨n, offset - start + 1⟩

def Position.ofSpan? (starts : List Int) (start stop : Int) : Option Position := do
  return ⟨← Point.ofOffset? starts start, ← Point.ofOffset? starts stop⟩

end MarkdownLinks
