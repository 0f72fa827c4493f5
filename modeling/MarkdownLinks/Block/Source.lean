import MarkdownLinks.Node.Basic
import MarkdownLinks.Text.Lines
import MarkdownLinks.Text.Tabs
import MarkdownLinks.Text.Whitespace

/-!
# Lines inside containers

Block structure is read line by line. Every open container asks each line for a mark of its own, a `>` or some
indentation, and `view` is the place behind all these marks, where the innermost block continues.
-/

namespace MarkdownLinks

/-- A place in the source: what is left to read, and the offset where that starts. -/
structure Cursor where
  rest : Text
  offset : Nat

def Cursor.advance (c : Cursor) (n : Nat) : Cursor := ⟨c.rest.drop n, c.offset + n⟩

abbrev Located := List (Char × Nat)

def locate (t : Text) (offset : Nat) : Located := t.zip (List.range' offset t.length)

/-- What a container asks for at the start of a line: the mark of a quote, with at most one blank behind
it that `strict` insists on, or an exact text. -/
inductive Mark
  | quote (strict : Bool)
  | exactly (text : Text)

/-- The number of characters (in a text with expanded tabs) that some marks take, if they all match. -/
def Mark.matchAll : List Mark → Text → Option Nat
  | [], _ => some 0
  | exactly m :: marks, t =>
    if t.startsWith m then (matchAll marks (t.drop m.length)).map (· + m.length) else none
  | quote strict :: marks, t =>
    let indent := (t.takeWhile (· = ' ')).length
    match t.drop indent with
    | '>' :: rest =>
      if indent > 3 then none
      else
        let bare := if strict then none else (matchAll marks rest).map (· + (indent + 1))
        match rest with
        | c :: rest => if isBlankChar c then (matchAll marks rest).map (· + (indent + 2)) <|> bare else bare
        | [] => bare
    | _ => none

/-- A container that is being read. A list item asks for its bullet on its first line and for indentation on
all others. -/
inductive Frame
  | document
  | quote
  | list (bullet : Text) (ordered : Bool)
  | item (current following : Text)

def Frame.mark? : Frame → Option Mark
  | document => none
  | quote => some (.quote false)
  | list _ _ => none
  | item current _ => some (.exactly current)

def Frame.afterLine : Frame → Frame
  | item _ following => item following following
  | f => f

/-- The state of reading: a place at the start of a line, the open containers from the innermost to the
outermost, and the definitions read so far, the first for each identifier. -/
structure Source where
  cursor : Cursor
  frames : List Frame
  targets : List (Text × Target)

namespace Source

def atEnd (s : Source) : Bool := s.cursor.rest.isEmpty

def marks (s : Source) : List Mark := s.frames.reverse.filterMap Frame.mark?

def line (s : Source) : Text := s.cursor.rest.splitFirstLine.1

/-- How many characters of a line its marks take. A line that is too short for its marks and blank behind the
matching ones counts as an empty line. -/
def markLength? (marks : List Mark) (line : Text) : Option Nat :=
  let expanded := line.expandTabs
  match Mark.matchAll marks expanded with
  | some 0 => some 0
  | some n => some ((line.cutAt n).elim line.length fun (rest, _) => line.length - rest.length)
  | none =>
    let padded := expanded.replaceChar '\n' (List.replicate 99 ' ' ++ ['\n'])
    if (Mark.matchAll marks padded).isSome then some (line.length - 1) else none

/-- The place behind the marks of the line at the cursor, unless it lacks one of them. -/
def view (s : Source) : Option Cursor := (markLength? s.marks s.line).map s.cursor.advance

def viewLine? (s : Source) : Option Text := s.view.map (·.rest.splitFirstLine.1)

def nextLine (s : Source) : Source :=
  let line := s.line
  let frames := if line.getLast? = some '\n' then s.frames.map Frame.afterLine else s.frames
  { s with cursor := s.cursor.advance line.length, frames }

def push (s : Source) (f : Frame) : Source := { s with frames := f :: s.frames }

def pop (s : Source) : Source := { s with frames := s.frames.tail }

def isBlank (s : Source) : Bool := s.viewLine?.any Text.isBlank

def skipBlanks : Nat → Source → Source
  | 0, s => s
  | fuel + 1, s => if !s.atEnd && s.isBlank then skipBlanks fuel s.nextLine else s

end Source
end MarkdownLinks
