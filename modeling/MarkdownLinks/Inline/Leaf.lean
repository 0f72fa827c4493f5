import MarkdownLinks.Html
import MarkdownLinks.Inline.Token
import MarkdownLinks.Text.Escape

/-!
# Elements without other elements inside

Code spans, autolinks, HTML, line breaks and escaped characters. Each recogniser is given the character before
a place and the text from there, and tells how much of it the element takes.
-/

namespace MarkdownLinks.Inline

def closingRun? (n : Nat) (t : Text) : Option Nat := go 0 0 t
where
  go (i run : Nat) : Text → Option Nat
    | [] => if run = n then some (i - n) else none
    | c :: t =>
      if c = '\x60' then go (i + 1) (run + 1) t
      else if run = n then some (i - n)
      else go (i + 1) 0 t

/-- A run of backticks, the text up to a run of the same length, and that run: its length and the text. -/
def codeSpan? (before : Option Char) (t : Text) : Option (Nat × Text) :=
  let n := (t.takeWhile (· = '\x60')).length
  if n = 0 || before = some '\x60' then none
  else do
    let m ← closingRun? n (t.drop n)
    some (n + m + n, (t.drop n).take m)

/-- The text of a code span: line feeds count as spaces, and one space is taken off both ends where both have
one, unless the text is blank. -/
def codeText (t : Text) : Text :=
  let t := t.replaceChar '\n' [' ']
  if !t.isBlank && t.head? = some ' ' && t.getLast? = some ' ' then t.tail.dropLast else t

def code? (before : Option Char) (t : Text) : Option (Nat × Element) :=
  (codeSpan? before t).map fun (n, text) => (n, .leaf (.code (codeText text)))

def uri? : Text → Option Text
  | c :: t => do
    if !c.isAlpha then none
    let scheme := t.takeWhile fun c => c.isAlpha || c = '-' || c = '.' || c = '+'
    if scheme.isEmpty || scheme.length > 31 then none
    match t.drop scheme.length with
    | ':' :: rest =>
      let path := rest.takeWhile fun c => !(isWhitespace c || c = '<' || c = '>')
      if (rest.drop path.length).head? = some '>' then some (c :: (scheme ++ ':' :: path)) else none
    | _ => none
  | [] => none

def isMailboxChar (c : Char) : Bool := c.isAlphanum || ".!#$%&'*+/=?^_`\x7b|\x7d~-".toList.contains c

def isHostLabel (t : Text) : Bool :=
  t.length ≤ 63 && t.head?.any Char.isAlphanum && t.getLast?.any Char.isAlphanum

def splitDots (t : Text) : List Text := go [] t
where
  go (part : Text) : Text → List Text
    | [] => [part.reverse]
    | c :: t => if c = '.' then part.reverse :: go [] t else go (c :: part) t

def mail? (t : Text) : Option Text :=
  let mailbox := t.takeWhile isMailboxChar
  match t.drop mailbox.length with
  | '@' :: rest =>
    let host := rest.takeWhile fun c => c.isAlphanum || c = '-' || c = '.'
    if !mailbox.isEmpty && (splitDots host).all isHostLabel && (rest.drop host.length).head? = some '>' then
      some (mailbox ++ '@' :: host)
    else none
  | _ => none

def autoLink? (_ : Option Char) : Text → Option (Nat × Element)
  | '<' :: t =>
    match uri? t with
    | some uri => some (uri.length + 2, .autoLink uri uri)
    | none => (mail? t).map fun mail => (mail.length + 2, .autoLink ("mailto:".toList ++ mail) mail)
  | _ => none

def html? (_ : Option Char) (t : Text) : Option (Nat × Element) :=
  if t.head? ≠ some '<' then none
  else (Html.afterInline? t).map fun rest =>
    let n := t.length - rest.length
    (n, .leaf (.html (t.take n)))

/-- Ends of lines within the text. Two spaces or a backslash before the line feed make the break hard. -/
def lineBreak? (_ : Option Char) (t : Text) : Option (Nat × Element) :=
  let spaces := (t.takeWhile (· = ' ')).length
  match t.drop spaces with
  | '\n' :: _ :: _ => some (spaces + 1, .leaf (.lineBreak (spaces < 2)))
  | '\\' :: '\n' :: _ :: _ => if spaces = 0 then some (2, .leaf (.lineBreak false)) else none
  | _ => none

def literal? (_ : Option Char) : Text → Option (Nat × Element)
  | '\\' :: c :: _ => if isAsciiPunctuation c then some (2, .leaf (.literal [c])) else none
  | _ => none

end MarkdownLinks.Inline
