import MarkdownLinks.Node.Basic

/-!
# Inline tokens

Everything that may become an inline element is first found as a token, a span of the text. Tokens may
overlap; `resolve` decides which of them stand, and which of those lie inside others.
-/

namespace MarkdownLinks.Inline

inductive Element
  | emphasis
  | strong
  | image (target : Target)
  | link (form : LinkForm)
  | autoLink (dest text : Text)
  | leaf (leaf : Leaf)

/-- A span of the text that may become an element; the text between the `inner` offsets may hold others. -/
structure Token where
  start : Nat
  stop : Nat
  innerStart : Nat
  innerStop : Nat
  element : Element

def Element.holdsOthers : Element → Bool
  | autoLink _ _ | leaf _ => false
  | _ => true

/-- Which of two elements that overlap is kept: the later one only if it ranks higher. -/
def Element.rank : Element → Nat
  | leaf (.lineBreak _) => 2
  | autoLink _ _ | leaf _ => 7
  | _ => 5

inductive Relation
  | before
  | around
  | over
  | across

/-- The relation of `a` to a token `b` that starts no earlier: before it, around it, over a part of it that
holds no text (the target of a link), or across it. -/
def Token.relation (a b : Token) : Relation :=
  if a.stop ≤ b.start then .before
  else if a.stop < b.stop || !a.element.holdsOthers then .across
  else if a.innerStart ≤ b.start && b.stop ≤ a.innerStop then .around
  else if a.innerStop ≤ b.start then .over
  else .across

/-- Puts a token in front of those that start no earlier. -/
def insertToken (t : Token) : List Token → List Token
  | [] => [t]
  | u :: us => if t.start ≤ u.start then t :: u :: us else u :: insertToken t us

/-- Tokens by ascending start, those of one start in their order. -/
def sortTokens (tokens : List Token) : List Token := tokens.foldr insertToken []

/-- The tokens that stand, each with the tokens found inside it. -/
def resolve : List Token → List (Token × List Token)
  | [] => []
  | t :: ts => go t [] ts
where
  go (last : Token) (inside : List Token) : List Token → List (Token × List Token)
    | [] => [(last, inside.reverse)]
    | t :: ts => match last.relation t with
      | .before => (last, inside.reverse) :: go t [] ts
      | .around => go last (t :: inside) ts
      | .over => go last inside ts
      | .across => if last.element.rank < t.element.rank then go t [] ts else go last inside ts

/-- Finds the tokens that `find` recognises, from the left and without overlap. It is given the character
before each place and the text from there, and tells a length of at least one. -/
def scan (find : Option Char → Text → Option (Nat × Element)) (t : Text) : List Token := go 0 none 0 t
where
  go (i : Nat) (before : Option Char) (skip : Nat) : Text → List Token
    | [] => []
    | c :: t =>
      if skip > 0 then go (i + 1) (some c) (skip - 1) t
      else match find before (c :: t) with
        | some (n, element) => ⟨i, i + n, i, i + n, element⟩ :: go (i + 1) (some c) (n - 1) t
        | none => go (i + 1) (some c) 0 t

end MarkdownLinks.Inline
