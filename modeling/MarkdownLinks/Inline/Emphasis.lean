import MarkdownLinks.Inline.Token
import MarkdownLinks.Text.Punctuation
import MarkdownLinks.Text.Whitespace

/-!
# Emphasis

Runs of `*` and `_` are kept on a stack together with opening brackets. Whether a run may open or close
emphasis depends on the characters around it; `pairRuns` then pairs closers with the nearest openers.
-/

namespace MarkdownLinks.Inline

inductive DelimiterKind
  | star
  | underscore
  | bracket (image : Bool)
  deriving DecidableEq

/-- A delimiter on the stack. A bracket that is not active opens no link any more. -/
structure Delimiter where
  kind : DelimiterKind
  start : Nat
  stop : Nat
  active : Bool
  canOpen : Bool
  canClose : Bool

/-- The number of characters of a run that are not used up. -/
def Delimiter.count (d : Delimiter) : Nat := d.stop - d.start

/-- A run followed by no blank and, unless the run itself follows a blank or punctuation, by no
punctuation. -/
def isLeftFlanking (before after : Option Char) : Bool :=
  after.any (!isWhitespace ·) &&
    (!after.any isPunctuation || before.all fun c => isPunctuation c || isWhitespace c)

/-- A run behind no blank and, unless the run itself stands before a blank or punctuation, behind no
punctuation. -/
def isRightFlanking (before after : Option Char) : Bool := isLeftFlanking after before

/-- A run of `*` opens where it is left-flanking and closes where it is right-flanking. A run of `_` inside a
word does neither. -/
def runDelimiter (kind : DelimiterKind) (start length : Nat) (before after : Option Char) : Delimiter :=
  let left := isLeftFlanking before after
  let right := isRightFlanking before after
  let free := kind = .star
  ⟨kind, start, start + length, true,
    left && (free || !right || before.any isPunctuation), right && (free || !left || after.any isPunctuation)⟩

/-- Whether `closer` may close what `opener` opens: both are of one kind, and if one of them could do
both, their lengths do not add up to a multiple of three, unless each is one. -/
def Delimiter.closedBy (opener closer : Delimiter) : Bool :=
  opener.kind = closer.kind &&
    !(((opener.canOpen && opener.canClose) || (closer.canOpen && closer.canClose)) &&
      (opener.count + closer.count) % 3 = 0 && !(opener.count % 3 = 0 && closer.count % 3 = 0))

def nextCloser? (ds : List Delimiter) (start : Nat) : Option Nat :=
  ((ds.drop start).findIdx? (·.canClose)).map (· + start)

def nearestOpener? (ds : List Delimiter) (closer : Delimiter) (bottom : Option Nat) : Nat → Option Nat
  | 0 => none
  | i + 1 =>
    if bottom.any (i ≤ ·) then none
    else match ds[i]? with
      | some d => if d.canOpen && d.closedBy closer then some i else nearestOpener? ds closer bottom i
      | none => none

structure Bottoms where
  star : Option Nat
  underscore : Option Nat

def Bottoms.of (b : Bottoms) (kind : DelimiterKind) : Option Nat :=
  if kind = .star then b.star else b.underscore

def Bottoms.set (b : Bottoms) (kind : DelimiterKind) (bottom : Option Nat) : Bottoms :=
  if kind = .star then { b with star := bottom } else { b with underscore := bottom }

/-- The emphasis between an opener and a closer, strong where both have two characters left. -/
def emphasisToken (opener closer : Delimiter) : Token :=
  let n := min 2 (min opener.count closer.count)
  ⟨opener.stop - n, closer.start + n, opener.stop, closer.start, if n = 2 then .strong else .emphasis⟩

/-- Pairs the opener at `i` with the closer at `j`: drops the delimiters between them and takes the used
characters off both. Gives the index where the search goes on. -/
def usePair (ds : List Delimiter) (i j : Nat) (opener closer : Delimiter) : List Delimiter × Nat :=
  let n := min 2 (min opener.count closer.count)
  let opener? := if opener.count ≤ n then [] else [{ opener with stop := opener.stop - n }]
  let closer? := if closer.count ≤ n then [] else [{ closer with start := closer.start + n }]
  (ds.take i ++ opener? ++ closer? ++ ds.drop (j + 1), i + opener?.length)

/-- Pairs runs above `bottom` and clears the stack above it. `fuel` bounds the number of steps. -/
def pairRuns (bottom : Option Nat) (ds : List Delimiter) : List Token × List Delimiter :=
  let size := ds.foldl (fun n d => n + d.count + 1) 2
  let (tokens, ds) := go (size * size) ds ⟨bottom, bottom⟩ ((bottom.map (· + 1)).getD 0)
  (tokens, ds.take ((bottom.map (· + 1)).getD 0))
where
  go : Nat → List Delimiter → Bottoms → Nat → List Token × List Delimiter
    | 0, ds, _, _ => ([], ds)
    | fuel + 1, ds, bottoms, start =>
      match nextCloser? ds start with
      | none => ([], ds)
      | some j => match ds[j]? with
        | none => ([], ds)
        | some closer => match nearestOpener? ds closer (bottoms.of closer.kind) j with
          | some i => match ds[i]? with
            | none => ([], ds)
            | some opener =>
              let (ds', start) := usePair ds i j opener closer
              let (tokens, ds') := go fuel ds' bottoms start
              (emphasisToken opener closer :: tokens, ds')
          | none =>
            let bottoms := bottoms.set closer.kind (if j > 1 then some (j - 1) else none)
            if closer.canOpen then go fuel ds bottoms (j + 1) else go fuel (ds.eraseIdx j) bottoms j

end MarkdownLinks.Inline
