import DynamicRange.Decimal.Literal
import DynamicRange.Scalar.Decibel
import DynamicRange.Settings.Fault
import DynamicRange.Text.Ending

/-!
# Settings as text

Reads the value of a control from text and writes it. Numbers may carry a unit: decibels for
levels, seconds or milliseconds for times, percent for the mix, `:1` for the ratio.

## Main definitions

* `ControlValue`: a value of some control, `ControlValue.parse`: the value in a text
* `Settings.assign`, `Settings.apply`: settings with one value replaced
* `Settings.format`: the text of a control's value
-/

namespace DynamicRange

/-- A value of a control. -/
inductive ControlValue where
  /-- A number, linear or in milliseconds. -/
  | number (x : Float32)
  | ratio (r : Ratio Float32)
  | link (mode : LinkMode)
  | detection (law : Detection)

namespace ControlValue

open Text (dropEnding? dropAnyEnding?)

/-- The number in a text, blanks around it aside. -/
def parseNumber (c : Control) (cs : List Char) : Except Fault Float32 :=
  match Decimal.single? (Text.trim cs) with
  | some x => .ok x
  | none => .error (.notANumber c (String.ofList cs))

/-- A linear number, or decibels. -/
def parseLevel (c : Control) (cs : List Char) : Except Fault Float32 :=
  match dropAnyEnding? ["dB".toList, "db".toList, "DB".toList] cs with
  | some decibels => (parseNumber c decibels).map Scalar.gainOfDecibels
  | none => parseNumber c cs

/-- A time in milliseconds, or in seconds. -/
def parseTime (c : Control) (cs : List Char) : Except Fault Float32 :=
  match dropEnding? "ms".toList cs with
  | some milliseconds => parseNumber c milliseconds
  | none =>
    match dropEnding? "s".toList cs with
    | some seconds => (parseNumber c seconds).map (· * 1000)
    | none => parseNumber c cs

/-- A number, or percent. -/
def parseShare (c : Control) (cs : List Char) : Except Fault Float32 :=
  match dropEnding? "%".toList cs with
  | some percent => (parseNumber c percent).map (· / 100)
  | none => parseNumber c cs

/-- The words for the limit, in lower case. -/
def limitWords : List (List Char) :=
  ["limit", "inf", "infinity", "∞", "∞:1", "inf:1"].map String.toList

/-- A word for the limit, or a number with an optional `:1`. -/
def parseRatio (c : Control) (cs : List Char) : Except Fault (Ratio Float32) :=
  let word := Text.lower cs
  if limitWords.contains word then .ok .limit
  else (parseNumber c ((dropEnding? ":1".toList word).getD word)).map .finite

/-- A label, or the index of one. -/
def parseChoice {κ : Type} (ofName? : String → Option κ) (ofIndex : Nat → κ) (count : Nat)
    (c : Control) (cs : List Char) : Except Fault κ :=
  match ofName? (String.ofList cs) with
  | some choice => .ok choice
  | none =>
    match Decimal.boundedNatural? ((1 <<< 64) - 1) cs with
    | some i => if i < count then .ok (ofIndex i) else .error (.notOneOf c (String.ofList cs))
    | none => .error (.notOneOf c (String.ofList cs))

/-- The value of a control in a text. -/
def parse (c : Control) (text : String) : Except Fault ControlValue :=
  let cs := Text.trim text.toList
  match c with
  | .threshold | .makeup | .knee => (parseLevel c cs).map number
  | .attack | .release => (parseTime c cs).map number
  | .mix => (parseShare c cs).map number
  | .ratio => (parseRatio c cs).map ratio
  | .link => (parseChoice LinkMode.ofName? LinkMode.ofIndex LinkMode.labels.length c cs).map link
  | .detection =>
    (parseChoice Detection.ofName? Detection.ofIndex Detection.labels.length c cs).map detection

/-- The value of a named control in a text. -/
def parseNamed (name text : String) : Except Fault ControlValue := do
  parse (← Control.resolve name) text

end ControlValue

namespace Settings

/-- The settings with one value replaced; none if the value is not of the control's kind. -/
def assign? (s : Settings) : Control → ControlValue → Option Settings
  | .threshold, .number x => some { s with threshold := x }
  | .attack, .number x => some { s with attack := x }
  | .release, .number x => some { s with release := x }
  | .makeup, .number x => some { s with makeup := x }
  | .knee, .number x => some { s with knee := x }
  | .mix, .number x => some { s with mix := x }
  | .ratio, .ratio r => some { s with ratio := r }
  | .link, .link mode => some { s with link := mode }
  | .detection, .detection law => some { s with detection := law }
  | _, _ => none

/-- The settings with the named control set to the value in a text. -/
def apply (s : Settings) (name text : String) : Except Fault Settings := do
  let value ← ControlValue.parseNamed name text
  let c ← Control.resolve name
  match s.assign? c value with
  | some s => .ok s
  | none => .error (.unknownName name)

/-- The text of a control's value, which reads back to the same value. -/
def format (s : Settings) (c : Control) : String :=
  match c with
  | .ratio =>
    match s.ratio with
    | .finite r => Decimal.text r
    | .limit => "limit"
  | .link => s.link.label
  | .detection => s.detection.label
  | _ => Decimal.text (s.get c)

end Settings

end DynamicRange
