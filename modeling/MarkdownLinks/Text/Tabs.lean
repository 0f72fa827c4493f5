import MarkdownLinks.Text.Basic

/-!
# Tab stops

Indentation is measured in columns with a tab stop every four.
-/

namespace MarkdownLinks.Text

def tabWidth (column : Nat) : Nat := 4 - column % 4

/-- Every tab replaced by the spaces up to the next tab stop; columns restart on each line. -/
def expandTabs (t : Text) : Text := go 0 t
where
  go (column : Nat) : Text → Text
    | [] => []
    | c :: t =>
      if c = '\t' then List.replicate (tabWidth column) ' ' ++ go (column + tabWidth column) t
      else if c = '\n' || c = '\r' then c :: go 0 t
      else c :: go (column + 1) t

/-- Cuts a text where its expanded form has reached `width` columns. The first character that completes the
width ends the cut; the second component tells how many columns of it lie beyond. -/
def cutAt (width : Nat) (t : Text) : Option (Text × Nat) := go 0 0 t
where
  go (length column : Nat) : Text → Option (Text × Nat)
    | [] => none
    | c :: t =>
      let step := if c = '\t' then tabWidth column else 1
      if width ≤ length + step then some (t, length + step - width)
      else go (length + step) (if c = '\n' || c = '\r' then 0 else column + step) t

end MarkdownLinks.Text
