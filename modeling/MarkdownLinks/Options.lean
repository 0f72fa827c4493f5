import MarkdownLinks.Text.Numeral

/-!
# Options

The only option is a column budget for link texts. Options are read from named settings; every setting that is
not accepted is reported, first the column budget, then unknown names in their order.
-/

namespace MarkdownLinks

/-- The value of a setting. A binary fraction is `mantissa` times two to the `exponent`. -/
inductive Setting
  | null
  | flag (value : Bool)
  | integer (value : Int)
  | fraction (mantissa exponent : Int)
  | text (value : Text)
  | compound
  deriving DecidableEq, Repr

inductive Reason
  | notPositive
  | fractional
  | unreadable
  | notANumber
  | unknownName
  deriving DecidableEq, Repr

structure Problem where
  name : Text
  reason : Reason
  deriving DecidableEq, Repr

structure Options where
  columnWidth : Option Nat
  columnWidth_pos : ∀ w, columnWidth = some w → 0 < w

namespace Reason

def message : Reason → String
  | notPositive => "Input should be greater than 0"
  | fractional => "Input should be a valid integer, got a number with a fractional part"
  | unreadable => "Input should be a valid integer, unable to parse string as an integer"
  | notANumber => "Input should be a valid integer"
  | unknownName => "Extra inputs are not permitted"

end Reason

namespace Problem

/-- The name of a setting and what is wrong with it. -/
def entry (p : Problem) : Text :=
  (if p.name.isEmpty then "config".toList else p.name) ++ [':', ' '] ++ p.reason.message.toList

/-- The report on settings that are not accepted: a line with their number and one for each. -/
def summary (entries : List Text) : Text :=
  "Invalid reflink options (".toList ++ Text.ofNat entries.length ++ "):\n".toList ++
    Text.joinWith ['\n'] (entries.map ("  - ".toList ++ ·))

end Problem

namespace Setting

def wholeValue? (mantissa exponent : Int) : Option Int :=
  let scale : Int := Nat.pow 2 exponent.natAbs
  if 0 ≤ exponent then some (mantissa * scale)
  else if mantissa % scale = 0 then some (mantissa / scale)
  else none

/-- The integer that a setting stands for; `none` inside stands for a setting that is left open. -/
def integer? : Setting → Except Reason (Option Int)
  | null => .ok none
  | flag b => .ok (some (if b then 1 else 0))
  | integer n => .ok (some n)
  | fraction m e => match wholeValue? m e with
    | some n => .ok (some n)
    | none => .error .fractional
  | text t => match Numeral.readSetting? t with
    | some n => .ok (some n)
    | none => .error .unreadable
  | compound => .error .notANumber

end Setting

namespace Options

def none : Options := ⟨.none, by simp⟩

/-- The options with a column budget, which has to be positive. -/
def ofWidth (n : Int) : Except Reason Options :=
  if h : 0 < n then .ok ⟨some n.toNat, by intro w hw; cases hw; omega⟩ else .error .notPositive

def ofSetting (s : Setting) : Except Reason Options := do
  match ← s.integer? with
  | some n => ofWidth n
  | .none => .ok none

def widthName : Text := "column_width".toList

/-- The options that named settings make, or all that is wrong with them. -/
def ofSettings (settings : List (Text × Setting)) : Except (List Problem) Options :=
  let unknown := (settings.filter (·.1 ≠ widthName)).map fun s => ⟨s.1, .unknownName⟩
  match ofSetting ((settings.lookup widthName).getD .null) with
  | .error reason => .error (⟨widthName, reason⟩ :: unknown)
  | .ok options => if unknown.isEmpty then .ok options else .error unknown

def budget (o : Options) : Option Int := o.columnWidth.map Int.ofNat

end Options
end MarkdownLinks
