import MarkdownLinks.Text.Quoted
import MarkdownLinks.Text.Utf8

/-!
# Files

A working directory with files in it. Paths are taken relative to that directory; what lies outside it is not
known, except that its ancestors are directories.

There are no links, so that no file stands in two places, and no permissions: a file that is found can be read and written.
There is always room for what is written. Names are texts, so that no name is known that is not UTF-8.
-/

namespace MarkdownLinks

inductive Entry
  | file (bytes : List UInt8)
  | directory
  deriving DecidableEq, Repr

/-- A path as it is used: without empty components and those that stand for the directory itself. The root is
empty for paths that are relative to the working directory. -/
structure Path where
  root : Text
  parts : List Text
  deriving DecidableEq, Repr

/-- The entries of a working directory by path. Entries elsewhere are known only by the path under which
they are listed. -/
structure FileTree where
  entries : List (Path × Entry)
  deriving DecidableEq, Repr

/-- Why a file cannot be read or written. The last three are no failures of the file system: a path with a NUL never
reaches it, and what is undecodable or unencodable is the content. -/
inductive FileError
  | missing
  | isDirectory
  | notDirectory
  | nameTooLong
  | nullByte
  | undecodable
  | unencodable
  deriving DecidableEq, Repr

namespace Path

def splitSlashes (t : Text) : List Text := go [] t
where
  go (part : Text) : Text → List Text
    | [] => [part.reverse]
    | c :: t => if c = '/' then part.reverse :: go [] t else go (c :: part) t

/-- The root of the path that a text names. Exactly two slashes are a root of their own, any other number
of them counts as one. -/
def rootOf (t : Text) : Text :=
  let slashes := t.takeWhile (· = '/')
  if slashes.length = 2 then slashes else slashes.take 1

def ofText (t : Text) : Path :=
  ⟨rootOf t, (splitSlashes t).filter fun part => !part.isEmpty && part ≠ ['.']⟩

def toText (p : Path) : Text :=
  let t := p.root ++ Text.joinWith ['/'] p.parts
  if t.isEmpty then ['.'] else t

def inside (parts : List Text) : Path := ⟨[], parts⟩

end Path

namespace FileError

/-- The number and the wording of a failure of the file system. -/
def description : FileError → Nat × String
  | missing => (2, "No such file or directory")
  | isDirectory => (21, "Is a directory")
  | notDirectory => (20, "Not a directory")
  | nameTooLong => (36, "File name too long")
  | nullByte => (22, "Invalid argument")
  | undecodable | unencodable => (84, "Invalid or incomplete multibyte or wide character")

def message (e : FileError) (path : Path) : Text :=
  "[Errno ".toList ++ Text.ofNat e.description.1 ++ "] ".toList ++ e.description.2.toList ++ ": ".toList ++
    Quoted.encode path.toText

end FileError

namespace FileTree

def entryAt (f : FileTree) (parts : List Text) : Option Entry :=
  if parts.isEmpty then some .directory else f.entries.lookup (.inside parts)

def maxName : Nat := 255

def maxPath : Nat := 4095

/-- Where a path leads, if that is a place in the tree, and what is there. -/
structure Found where
  place : Option Path
  entry : Option Entry

/-- Follows a path from a place that lies `outside` directories above the working directory, or in it
when that is zero, down to its last component. -/
def follow (f : FileTree) : Nat → List Text → List Text → Except FileError Found
  | outside, place, [] =>
    .ok (if outside = 0 then ⟨some (.inside place), f.entryAt place⟩ else ⟨none, some .directory⟩)
  | outside, place, part :: rest =>
    if part = ['.', '.'] then
      if place.isEmpty || 0 < outside then follow f (outside + 1) [] rest else follow f 0 place.dropLast rest
    else if maxName < (Utf8.encode part).length then .error .nameTooLong
    else if 0 < outside then (if rest.isEmpty then .ok ⟨none, none⟩ else .error .missing)
    else
      let place := place ++ [part]
      match f.entryAt place with
      | some .directory => follow f 0 place rest
      | some (.file bytes) =>
        if rest.isEmpty then .ok ⟨some (.inside place), some (.file bytes)⟩ else .error .notDirectory
      | none => if rest.isEmpty then .ok ⟨some (.inside place), none⟩ else .error .missing

/-- Why a path leads nowhere in any tree, if it does. -/
def fault? (path : Path) : Option FileError :=
  if '\x00' ∈ path.toText then some .nullByte
  else if maxPath < (Utf8.encode path.toText).length then some .nameTooLong
  else none

/-- Where a path leads. A path that is listed as it stands is not followed. -/
def find (f : FileTree) (path : Path) : Except FileError Found :=
  match fault? path with
  | some e => .error e
  | none => match f.entries.lookup path with
    | some entry => .ok ⟨some path, some entry⟩
    | none => f.follow (if path.root.isEmpty then 0 else 1) [] path.parts

def read (f : FileTree) (path : Path) : Except FileError (List UInt8) := do
  match (← f.find path).entry with
  | some (.file bytes) => .ok bytes
  | some .directory => .error .isDirectory
  | none => .error .missing

def put (f : FileTree) (place : Path) (e : Entry) : FileTree :=
  if f.entries.any (·.1 = place) then
    ⟨f.entries.map fun entry => if entry.1 = place then (place, e) else entry⟩
  else ⟨f.entries ++ [(place, e)]⟩

def write (f : FileTree) (path : Path) (bytes : List UInt8) : Except FileError FileTree := do
  match ← f.find path with
  | ⟨_, some .directory⟩ => .error .isDirectory
  | ⟨some place, _⟩ => .ok (f.put place (.file bytes))
  | ⟨none, _⟩ => .error .missing

end FileTree
end MarkdownLinks
