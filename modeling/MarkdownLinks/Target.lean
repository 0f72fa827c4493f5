import MarkdownLinks.Destination
import MarkdownLinks.Node.Basic
import MarkdownLinks.Title

/-!
# Reading link targets

The destination and the optional title behind a link text or a definition label. Offsets are counted from
where the destination starts.
-/

namespace MarkdownLinks

/-- The characters that may stand between the parts of a target. -/
def isSeparator (c : Char) : Bool := c = ' ' || c = '\t' || c = '\n'

def isControl (c : Char) : Bool := c.toNat < 0x20 || c.toNat = 0x7F

/-- The length of the separator at the start of a text: separator characters with at most one line feed. -/
def separatorLength (t : Text) : Nat := go false t
where
  go (newline : Bool) : Text → Nat
    | [] => 0
    | c :: t =>
      if c = '\n' then (if newline then 0 else go true t + 1)
      else if isSeparator c then go newline t + 1
      else 0

structure TitleSpan where
  text : Text
  start : Nat
  stop : Nat

/-- A destination as written, where it ends, and the title behind it. -/
structure TargetSpan where
  dest : Text
  destStop : Nat
  title : Option TitleSpan

def TargetSpan.stop (s : TargetSpan) : Nat := (s.title.map (·.stop)).getD s.destStop

def TargetSpan.target (s : TargetSpan) : Target :=
  ⟨Destination.read s.dest, Title.read (s.title.map (·.text))⟩

/-- How a bare destination ends: at whitespace or the end of the text, or at the parenthesis that closes an
inline link. -/
inductive BareEnd
  | open (length : Nat)
  | closed (length : Nat)

/-- Scans a bare destination. Parentheses must be paired, except that inside a link the first unpaired one
closes the link. -/
def scanBare (inside : Bool) (t : Text) : Option BareEnd := go 0 false 0 t
where
  go (i : Nat) (escaped : Bool) (depth : Nat) : Text → Option BareEnd
    | [] => if inside then none else some (.open i)
    | c :: t =>
      if escaped then go (i + 1) false depth t
      else if c = '\\' then go (i + 1) true depth t
      else if isSeparator c then some (.open i)
      else if isControl c then none
      else if c = '(' then go (i + 1) false (depth + 1) t
      else if c = ')' then
        if depth > 0 then go (i + 1) false (depth - 1) t
        else if inside then some (.closed i)
        else none
      else go (i + 1) false depth t

/-- The length of the quoted title at the start of a text, if one starts there; `none` inside for a title that
is not closed or holds an empty line. -/
def titleLength? (t : Text) : Option (Option Nat) :=
  let body (close : Char) (stop : Char → Bool) : Option Nat := do
    let n ← Text.findUnescaped? t.tail close stop
    if Text.hasInfix (t.take (n + 1)) ['\n', '\n'] then none else some (n + 2)
  match t with
  | '"' :: _ => some (body '"' fun _ => false)
  | '\'' :: _ => some (body '\'' fun _ => false)
  | '(' :: _ => some (body ')' (· = '('))
  | _ => none

/-- Adds the title, if there is one, to a destination of which `destStop` is the end. -/
def scanTitle (inside : Bool) (t dest : Text) (destStop : Nat) : Option TargetSpan :=
  let n := separatorLength (t.drop destStop)
  let start := destStop + n
  let rest := t.drop start
  if rest.isEmpty || rest.head? = some '\n' || (inside && rest.head? = some ')') then
    some ⟨dest, destStop, none⟩
  else match titleLength? rest with
    | some length => do
      let length ← length
      if n = 0 then none else some ⟨dest, destStop, some ⟨rest.take length, start, start + length⟩⟩
    | none => if (t.slice destStop start).any (· = '\n') then some ⟨dest, destStop, none⟩ else none

/-- Scans a destination in either form and the title behind it. -/
def scanTarget (inside : Bool) (t : Text) : Option TargetSpan :=
  match t with
  | [] => none
  | '<' :: rest => do
    let n ← Text.findUnescaped? rest '>' fun c => c = '<' || c = '\n'
    scanTitle inside t (t.take (n + 2)) (n + 2)
  | _ => do
    match ← scanBare inside t with
    | .closed n => some ⟨t.take n, n, none⟩
    | .open n => if n = 0 then none else scanTitle inside t (t.take n) n

/-- The length of the bracketed label at the start of a text. A label is not blank, holds no bracket that
is not escaped, and is at most 999 characters long. -/
def labelLength? : Text → Option Nat
  | '[' :: t => do
    let n ← Text.findUnescaped? t ']' (· = '[')
    if Text.isBlank (t.take n) || n > 999 then none else some (n + 2)
  | _ => none

end MarkdownLinks
