import MarkdownLinks.Command
import MarkdownLinks.Text.Control

/-!
# The command line

`mdreflink [OPTIONS] [FILE]` converts a file or standard input. Converted text goes to standard output or
back to the file, all messages go to standard error. Standard output is no terminal.
-/

namespace MarkdownLinks.CommandLine

inductive Eager
  | help
  | version
  deriving DecidableEq, Repr

/-- The arguments of a command line, the last of repeated options counting. -/
structure Arguments where
  files : List Text
  inPlace : Bool
  stats : Bool
  width : Option Text
  eager : Option Eager
  deriving DecidableEq, Repr

def Arguments.none : Arguments := ⟨[], false, false, .none, .none⟩

def Arguments.withEager (a : Arguments) (e : Eager) : Arguments := { a with eager := a.eager <|> some e }

/-- The arguments with an option that has a long name and takes no value. -/
def longFlag? (a : Arguments) (name : Text) : Option Arguments :=
  if name = "--write-in-place".toList then some { a with inPlace := true }
  else if name = "--stats".toList then some { a with stats := true }
  else if name = "--version".toList then some (a.withEager .version)
  else if name = "--help".toList then some (a.withEager .help)
  else none

def shortFlag? (a : Arguments) (letter : Char) : Option Arguments :=
  if letter = 'w' then some { a with inPlace := true }
  else if letter = 'v' then some (a.withEager .version)
  else if letter = 'h' then some (a.withEager .help)
  else none

def widthOption : Text := "--column-width".toList

def assigned? (arg : Text) : Option Text :=
  if arg.startsWith (widthOption ++ ['=']) then some (arg.drop (widthOption.length + 1)) else none

/-- Reads arguments. Options may stand anywhere before `--`; there are none for arguments that name an unknown
option, lack the value of one, or give a value to one that takes none. -/
def readArguments (a : Arguments) : List Text → Option Arguments
  | [] => some a
  | arg :: rest =>
    if arg = ['-', '-'] then some { a with files := a.files ++ rest }
    else if arg.head? ≠ some '-' || arg.length = 1 then
      readArguments { a with files := a.files ++ [arg] } rest
    else if arg = widthOption then
      match rest with
      | value :: rest => readArguments { a with width := some value } rest
      | [] => none
    else match assigned? arg with
      | some value => readArguments { a with width := some value } rest
      | none =>
        let flags := if arg.startsWith ['-', '-'] then longFlag? a arg else arg.tail.foldlM shortFlag? a
        match flags with
        | some a => readArguments a rest
        | none => none

/-- What the process does: its exit status, what it prints, and the files that it leaves. -/
structure Response where
  status : Nat
  stdout : Text
  stderr : Text
  files : FileTree

def version : Text := "0.1.0".toList

def usage : Text :=
  "Usage: mdreflink [-w | --write-in-place] [--stats] [--column-width N] [-v | --version] [FILE]\n".toList

def errorLine (message : Text) : Text := "Error: ".toList ++ message ++ ['\n']

def refuse (files : FileTree) (message : Text) : Response := ⟨1, [], errorLine message, files⟩

def misuse (files : FileTree) : Response := ⟨2, [], usage, files⟩

/-- A conversion to be done: where the text comes from, and how it is converted. -/
structure Job where
  path : Option Text
  inPlace : Bool
  stats : Bool
  columnWidth : Option Int
  deriving DecidableEq, Repr

/-- The job that a command line asks for, unless it is answered at once. -/
def plan (files : FileTree) (argv : List Text) : Except Response Job :=
  match readArguments .none argv with
  | none => .error (misuse files)
  | some a => match a.eager with
    | some .version => .error ⟨0, version ++ ['\n'], [], files⟩
    | some .help => .error ⟨0, usage, [], files⟩
    | none => match a.width, a.width.bind Numeral.readArgument? with
      | some _, none => .error (misuse files)
      | _, columnWidth =>
        if a.files.length > 1 then .error (refuse files "Only one file may be specified.".toList)
        else
          let path := a.files.head?.filter (· ≠ ['-'])
          if a.inPlace && path.isNone then
            .error (refuse files "The -w flag cannot be used with standard input.".toList)
          else .ok ⟨path, a.inPlace, a.stats, columnWidth⟩

def readFailure (path : Text) (e : FileError) : Text :=
  match e with
  | .missing => "File not found at '".toList ++ path ++ ['\'', '.']
  | e => "Cannot read '".toList ++ path ++ ['\'', ':', ' '] ++ e.message (Path.ofText path)

/-- The bytes of the file that a job reads, or of standard input. -/
def Job.source (job : Job) (stdin : List UInt8) (files : FileTree) : Except FileError (List UInt8) :=
  match job.path with
  | some path => files.read (Path.ofText path)
  | none => .ok stdin

def statsLines (s : Stats) : Text :=
  "Links converted: ".toList ++ Text.ofNat s.converted ++ "\nConflicts found: ".toList ++
    Text.ofNat s.conflicts ++ "\nDefinitions added: ".toList ++ Text.ofNat s.added ++ ['\n']

def Job.report (job : Job) (summary : Summary) (files : FileTree) : Response :=
  let output := summary.output
  if summary.success then
    let warnings := output.warnings.flatMap fun w => "Warning: ".toList ++ w ++ ['\n']
    ⟨0, if job.inPlace then [] else output.markdown.withoutControls,
      warnings ++ (if job.stats then statsLines output.stats else []), files⟩
  else ⟨1, [], output.errors.flatMap errorLine, files⟩

def Job.convert (job : Job) (text : Text) (files : FileTree) : Except CommandError Response :=
  let width := match job.columnWidth with
    | some n => Setting.integer n
    | none => .null
  match (Request.mk text width job.path job.inPlace []).run files with
  | .error failure => .error failure.error
  | .ok (_, run) => match run.summary? with
    | some summary => .ok (job.report summary run.files)
    | none => .ok (misuse run.files)

/-- Runs a command line. A path with a NUL breaks it off, and a file that is not UTF-8. -/
def run (argv : List Text) (stdin : List UInt8) (files : FileTree) : Except CommandError Response :=
  match plan files argv with
  | .error response => .ok response
  | .ok job => match job.source stdin files with
    | .error .nullByte => .error (.file .nullByte)
    | .error e => .ok (refuse files (readFailure (job.path.getD []) e))
    | .ok bytes => match Utf8.decode bytes with
      | none => .error (.file .undecodable)
      | some text => job.convert text.readNewlines files

end MarkdownLinks.CommandLine
