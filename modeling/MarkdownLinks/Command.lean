import MarkdownLinks.FileTree
import MarkdownLinks.Link.Transform
import MarkdownLinks.Options

/-!
# The command

The command converts the links of one text and may write the result back to the file that the text came
from. It works in steps, announcing each stage before the work of that stage is done, and leaves its
summary at the end. What breaks it off leaves the files as they are then: a file is opened, and so emptied, before
its new text is encoded.
-/

namespace MarkdownLinks

inductive Stage
  | validating
  | parsing
  | rewriting
  | rendering
  | complete
  deriving DecidableEq, Repr

namespace Stage

/-- How much of the work a stage stands for, in tenths. -/
def tenths : Stage → Nat
  | validating => 1
  | parsing => 3
  | rewriting => 5
  | rendering => 8
  | complete => 10

def message : Stage → String
  | validating => "Validating configuration..."
  | parsing => "Parsing Markdown..."
  | rewriting => "Rewriting links..."
  | rendering => "Rendering Markdown..."
  | complete => "Complete"

end Stage

/-- A character for private use. Like half of a surrogate pair it has no meaning for any syntax. -/
def isPrivateUse (c : Char) : Bool := 0xE000 ≤ c.toNat && c.toNat ≤ 0xF8FF

/-- What the command is asked for. The string that it is called with may hold halves of surrogate pairs, which are no
characters. Each is stood for in the text by a character for private use, in their order and below all that the string holds or
refers to; `halves` are these. -/
structure Request where
  text : Text
  columnWidth : Setting
  path : Option Text
  inPlace : Bool
  halves : List { c : Char // isPrivateUse c }

structure Output where
  errors : List Text
  warnings : List Text
  path : Text
  markdown : Text
  changed : Bool
  written : Bool
  stats : Stats
  deriving DecidableEq, Repr

structure Summary where
  result : Text
  output : Output
  success : Bool
  deriving DecidableEq, Repr

inductive CommandError
  | render (e : RenderError)
  | file (e : FileError)
  deriving DecidableEq, Repr

/-- What has broken the command off, and the files as it has left them. -/
structure Failure where
  error : CommandError
  files : FileTree
  deriving DecidableEq, Repr

inductive Phase
  | ready
  | validating
  | parsing (options : Options)
  | rewriting (options : Options) (tree : Node) (fresh : Nat)
  | rendering (tree : Node) (stats : Stats)
  | complete (output : Output)
  | finished (summary : Summary)

/-- The command at work: how far it is, and the files. -/
structure Run where
  phase : Phase
  files : FileTree

namespace Request

def sourceName (r : Request) : Text :=
  match r.path with
  | none | some [] => "standard input".toList
  | some path => path

def announcement (r : Request) : Text := "Converting links in ".toList ++ r.sourceName ++ "...".toList

/-- The summary for options that are not accepted: nothing has been done. -/
def rejected (r : Request) (reason : Reason) : Summary :=
  ⟨"Invalid configuration".toList,
    ⟨[Problem.entry ⟨Options.widthName, reason⟩], [], r.path.getD [], r.text, false, false, .zero⟩, false⟩

def done (r : Request) (output : Output) : Summary :=
  let s := output.stats
  ⟨"Converted ".toList ++ Text.ofNat s.converted ++ " links in ".toList ++ r.sourceName ++ " (".toList ++
      Text.ofNat s.conflicts ++ " conflicts, ".toList ++ Text.ofNat s.added ++ " definitions added)".toList,
    output, true⟩

/-- The bytes of a text, unless half of a surrogate pair is stood for in it. -/
def encode? (r : Request) (t : Text) : Option (List UInt8) :=
  if t.any fun c => r.halves.any (·.val = c) then none else some (Utf8.encode t)

/-- Writes the markdown where it is asked for and has changed; with the files comes whether it was written. If it cannot be
encoded, that shows only when the file has been emptied. -/
def save (r : Request) (files : FileTree) (markdown : Text) : Except Failure (FileTree × Bool) :=
  match r.path with
  | some path =>
    if r.inPlace && markdown ≠ r.text then
      match files.write (Path.ofText path) ((r.encode? markdown).getD []) with
      | .error e => .error ⟨.file e, files⟩
      | .ok left => if (r.encode? markdown).isSome then .ok (left, true) else .error ⟨.file .unencodable, left⟩
    else .ok (files, false)
  | none => .ok (files, false)

/-- The warning that is due when there is no file to write to. -/
def warnings (r : Request) : List Text :=
  if r.inPlace && r.path.isNone then ["No file to write; output not written".toList] else []

/-- One step of the command: the work up to the next announcement, which is missing at the end. -/
def step (r : Request) (run : Run) : Except Failure (Option Stage × Run) :=
  match run.phase with
  | .ready => .ok (some .validating, { run with phase := .validating })
  | .validating => match Options.ofSetting r.columnWidth with
    | .error reason => .ok (none, { run with phase := .finished (r.rejected reason) })
    | .ok options => .ok (some .parsing, { run with phase := .parsing options })
  | .parsing options =>
    let (tree, fresh) := Document.parseFrom 0 r.text
    .ok (some .rewriting, { run with phase := .rewriting options tree fresh })
  | .rewriting options tree fresh => match tree.transform fresh options.budget with
    | .error e => .error ⟨.render e, run.files⟩
    | .ok outcome =>
      .ok (some .rendering, { run with phase := .rendering outcome.forest.document outcome.stats })
  | .rendering tree stats => match tree.render with
    | .error e => .error ⟨.render e, run.files⟩
    | .ok markdown => match r.save run.files markdown with
      | .error failure => .error failure
      | .ok (files, written) =>
        .ok (some .complete,
          ⟨.complete ⟨[], r.warnings, r.path.getD [], markdown, markdown ≠ r.text, written, stats⟩, files⟩)
  | .complete output => .ok (none, { run with phase := .finished (r.done output) })
  | .finished summary => .ok (none, { run with phase := .finished summary })

/-- At most `n` announcements, and the command as it stands then. -/
def pull (r : Request) : Nat → Run → Except Failure (List Stage × Run)
  | 0, run => .ok ([], run)
  | n + 1, run => do
    match ← r.step run with
    | (none, run) => .ok ([], run)
    | (some stage, run) =>
      let (stages, run) ← pull r n run
      .ok (stage :: stages, run)

def start (files : FileTree) : Run := ⟨.ready, files⟩

def allStages : Nat := 6

def run (r : Request) (files : FileTree) : Except Failure (List Stage × Run) :=
  r.pull allStages (start files)

end Request

def Run.summary? (run : Run) : Option Summary :=
  match run.phase with
  | .finished summary => some summary
  | _ => none

end MarkdownLinks
