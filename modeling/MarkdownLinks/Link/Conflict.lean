import MarkdownLinks.Link.Index

/-!
# Where links lead

A link leads to its own target or to that of its definition. An identity whose links lead to different
destinations is in conflict; one whose links all lead to one destination can be given a definition.
-/

namespace MarkdownLinks

def nonEmpty? (t : Text) : Option Text := if t.isEmpty then none else some t

/-- The destination and the title of a target, empty ones left out. -/
def Target.resolved (t : Target) : Option Text × Option Text := (nonEmpty? t.dest, t.title.bind nonEmpty?)

/-- Where a link leads: its destination and title, as far as it has them. -/
def Index.resolve (index : Index) : LinkForm → Option Text × Option Text
  | .inline target => target.resolved
  | .reference label _ => ((index.definition? (identifierOf label)).map (·.target.resolved)).getD (none, none)

/-- The different destinations of an identity in order of discovery, and its first title. -/
structure Findings where
  id : Nat
  urls : List Text
  title : Option Text
  deriving DecidableEq, Repr

structure Report where
  findings : List Findings
  deriving DecidableEq, Repr

/-- Adds where one link leads. A title counts only together with a destination. -/
def Findings.note (f : Findings) (url title : Option Text) : Findings :=
  match url with
  | none => f
  | some url => ⟨f.id, if f.urls.contains url then f.urls else f.urls ++ [url], f.title <|> title⟩

namespace Report

def note (id : Nat) (url title : Option Text) : List Findings → List Findings
  | [] => [Findings.note ⟨id, [], none⟩ url title]
  | f :: fs => if f.id = id then f.note url title :: fs else f :: note id url title fs

def detect (index : Index) : Report :=
  ⟨index.links.foldl (fun fs r =>
    note r.id (index.resolve r.node.form).1 (index.resolve r.node.form).2 fs) []⟩

def findings? (report : Report) (id : Nat) : Option Findings := report.findings.find? (·.id = id)

def urls (report : Report) (id : Nat) : List Text := ((report.findings? id).map (·.urls)).getD []

def title (report : Report) (id : Nat) : Option Text := (report.findings? id).bind (·.title)

def resolvedUrl (report : Report) (id : Nat) : Option Text :=
  match report.urls id with
  | [url] => some url
  | _ => none

def isConflicting (report : Report) (id : Nat) : Bool := 1 < (report.urls id).length

def conflicting (report : Report) : List Nat :=
  (report.findings.filter fun f => 1 < f.urls.length).map (·.id)

def conflictsFound (report : Report) : Nat := report.conflicting.length

end Report
end MarkdownLinks
