import MarkdownLinks.Inline.Emphasis
import MarkdownLinks.Inline.Leaf
import MarkdownLinks.Label
import MarkdownLinks.Target

/-!
# Links and images

A closing bracket makes a link of the text behind the nearest opening one, if a target in parentheses
follows or the text or a label behind it names a definition.
-/

namespace MarkdownLinks.Inline

/-- What a pair of brackets turns out to be, and how much text behind the closing one belongs to it. -/
structure Closing where
  element : Element
  length : Nat

def inlineTarget? (t : Text) : Option (Target × Nat) :=
  match t with
  | '(' :: body@(_ :: _) => do
    let gap := separatorLength body
    let span ← scanTarget true (body.drop gap)
    let stop := gap + span.stop
    let close := stop + separatorLength (body.drop stop)
    if body[close]? = some ')' then some (span.target, close + 2) else none
  | _ => none

/-- The label that a reference names: that of the brackets behind the text if they hold one, otherwise
the text itself. The form tells which. -/
def referenceLabel (text after : Text) : Text × ReferenceForm × Nat :=
  match labelLength? after with
  | some n => (after.slice 1 (n - 1), .full, n)
  | none => if after.startsWith ['[', ']'] then (text, .collapsed, 2) else (text, .shortcut, 0)

/-- The element that brackets around `text` make, given the text behind them and the known targets. -/
def closing? (targets : List (Text × Target)) (image : Bool) (text after : Text) : Option Closing :=
  match inlineTarget? after with
  | some (target, length) => some ⟨if image then .image target else .link (.inline target), length⟩
  | none =>
    let (label, form, length) := referenceLabel text after
    (targets.lookup (identifierOf label)).map fun target =>
      ⟨if image then .image target else .link (.reference label form), length⟩

structure Brackets where
  tokens : List Token
  delimiters : List Delimiter

def Delimiter.isBracket (d : Delimiter) : Bool :=
  match d.kind with
  | .bracket _ => true
  | _ => false

/-- Links hold no links, so the opening brackets around one are put out of use. -/
def deactivate (ds : List Delimiter) : List Delimiter :=
  ds.map fun d => if d.kind = .bracket false then { d with active := false } else d

/-- Treats the closing bracket at `close`. The nearest opening bracket is used up, whether or not the two make
an element. The last component tells where reading goes on if they do. -/
def closeBracket (targets : List (Text × Target)) (t : Text) (close : Nat) (b : Brackets) :
    Brackets × Option Nat :=
  match (b.delimiters.reverse.findIdx? (·.isBracket)).map (b.delimiters.length - 1 - ·) with
  | none => (b, none)
  | some i =>
    let dropped := { b with delimiters := b.delimiters.eraseIdx i }
    match b.delimiters[i]? with
    | none => (b, none)
    | some opener =>
      let text := t.slice opener.stop close
      let image := opener.kind = .bracket true
      if !opener.active || !text.isPaired '[' ']' then (dropped, none)
      else match closing? targets image text (t.drop (close + 1)) with
        | none => (dropped, none)
        | some closing =>
          let stop := close + 1 + closing.length
          let (emphases, ds) := pairRuns (some i) b.delimiters
          let outer := ds.take i
          (⟨b.tokens ++ emphases ++ [⟨opener.start, stop, opener.stop, close, closing.element⟩],
              if image then outer else deactivate outer⟩,
            some stop)

def delimiter? (i : Nat) (before : Option Char) (t : Text) : Option Delimiter :=
  let bracket (image : Bool) (n : Nat) : Delimiter := ⟨.bracket image, i, i + n, true, false, false⟩
  let run (kind : DelimiterKind) (c : Char) : Delimiter :=
    let n := (t.takeWhile (· = c)).length
    runDelimiter kind i n before (t.drop n).head?
  match t with
  | '!' :: '[' :: _ => some (bracket true 2)
  | '[' :: _ => some (bracket false 1)
  | '*' :: _ => some (run .star '*')
  | '_' :: _ => some (run .underscore '_')
  | _ => none

def linksAndEmphases (targets : List (Text × Target)) (whole : Text) : List Token :=
  let b := go 0 none 0 ⟨[], []⟩ whole
  b.tokens ++ (pairRuns none b.delimiters).1
where
  go (i : Nat) (before : Option Char) (skip : Nat) (b : Brackets) : Text → Brackets
    | [] => b
    | c :: t =>
      if skip > 0 then go (i + 1) (some c) (skip - 1) b t
      else if c = '\\' then go (i + 1) (some c) 1 b t
      else match codeSpan? before (c :: t) with
        | some (n, _) => go (i + 1) (some c) (n - 1) b t
        | none =>
          if c = ']' then
            let (b, stop) := closeBracket targets whole i b
            go (i + 1) (some c) ((stop.map (· - (i + 1))).getD 0) b t
          else match delimiter? i before (c :: t) with
            | some d => go (i + 1) (some c) (d.count - 1) { b with delimiters := b.delimiters ++ [d] } t
            | none => go (i + 1) (some c) 0 b t

end MarkdownLinks.Inline
