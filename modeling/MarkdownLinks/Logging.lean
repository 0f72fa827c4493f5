import MarkdownLinks.Link.Transform

/-!
# Logging

Messages go to named loggers below a common root and are written from a level on, which the first successful
configuration fixes. Later configurations change nothing. Before it there is no handler, and a message that none handles
falls to the last resort of the standard library.
-/

namespace MarkdownLinks

namespace Event

def logger : Event → String
  | collected _ _ _ _ _ => "mdreflink.api.reflink.transform"
  | reflowed _ _ => "mdreflink.api.reflink.reflow_links"
  | rewritten _ => "mdreflink.api.reflink.rewrite_links"
  | placed _ _ => "mdreflink.api.reflink.place_definitions"

def message : Event → String
  | collected links identities definitions headings conflicts =>
    "Collected " ++ toString links ++ " links (" ++ toString identities ++ " identities), " ++
      toString definitions ++ " definitions, " ++ toString headings ++ " headings; " ++ toString conflicts ++
      " conflicts"
  | reflowed width wrapped =>
    "Reflow at width " ++ toString width ++ ": wrapped " ++ toString wrapped ++ " links"
  | rewritten converted => "Converted " ++ toString converted ++ " inline links to shortcut references"
  | placed sections added =>
    "Placed definitions across " ++ toString sections ++ " sections, " ++ toString added ++ " definitions"

end Event

/-- What a configuration may name as the lowest level to be written. -/
inductive LevelSpec
  | number (n : Int)
  | name (t : Text)
  | other
  deriving DecidableEq, Repr

inductive LevelError
  | unknownName
  | notALevel
  deriving DecidableEq, Repr

namespace Level

def names : List (String × Int) :=
  [("CRITICAL", 50), ("FATAL", 50), ("ERROR", 40), ("WARN", 30), ("WARNING", 30), ("INFO", 20), ("DEBUG", 10),
   ("NOTSET", 0)]

def ofName? (t : Text) : Option Int := (names.find? (·.1.toList = t)).map (·.2)

/-- How a level is written: by its name, or by its number if it has none. -/
def label (n : Int) : Text :=
  if n = 50 then "CRITICAL".toList
  else if n = 40 then "ERROR".toList
  else if n = 30 then "WARNING".toList
  else if n = 20 then "INFO".toList
  else if n = 10 then "DEBUG".toList
  else if n = 0 then "NOTSET".toList
  else "Level ".toList ++ Text.ofInt n

/-- The upper case of a letter as far as it is an ASCII letter. -/
def upperChar (c : Char) : Char :=
  if c = '\u0131' then 'I' else if c = '\u017F' then 'S' else c.toUpper

/-- What a configuration asks for: the given level, else the one that the environment names, else warnings. -/
def asked (environment : Option Text) (spec : Option LevelSpec) : LevelSpec :=
  spec.getD (.name ((environment.getD "WARNING".toList).map upperChar))

def ofSpec : LevelSpec → Except LevelError Int
  | .number n => .ok n
  | .name t => match ofName? t with
    | some n => .ok n
    | none => .error .unknownName
  | .other => .error .notALevel

end Level

/-- The state of logging: the level that the environment asks for, whether logging has been configured,
the level of the root logger, and the number of its handlers. -/
structure Logging where
  environment : Option Text
  configured : Bool
  level : Int
  handlers : Nat
  deriving DecidableEq, Repr

namespace Logging

def initial : Logging := ⟨none, false, 0, 0⟩

def setEnvironment (s : Logging) (level : Option Text) : Logging := { s with environment := level }

def configure (s : Logging) (spec : Option LevelSpec) : Except LevelError Logging :=
  if s.configured then .ok s
  else do
    let level ← Level.ofSpec (Level.asked s.environment spec)
    .ok { s with configured := true, level, handlers := s.handlers + 1 }

def warningLevel : Int := 30

/-- The lowest level that is written. The root logger's level zero leaves it at warnings. -/
def effectiveLevel (s : Logging) : Int := if s.level = 0 then warningLevel else s.level

def loggerName (name : Text) : Text := "mdreflink.".toList ++ name

/-- The line that a handler writes for a message. -/
def line (time name : Text) (level : Int) (message : Text) : Text :=
  let dash : Text := [' ', '-', ' ']
  time ++ dash ++ loggerName name ++ dash ++ Level.label level ++ dash ++ message ++ ['\n']

/-- What is written to standard error for a message: a line by each handler. Without any, the last resort takes messages from
warnings on, and writes nothing but their text. -/
def written (s : Logging) (time name : Text) (level : Int) (message : Text) : Text :=
  if 0 < level && s.effectiveLevel ≤ level then
    if s.handlers = 0 then if warningLevel ≤ level then message ++ ['\n'] else []
    else (List.replicate s.handlers (line time name level message)).flatten
  else []

end Logging
end MarkdownLinks
