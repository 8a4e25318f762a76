import DynamicRange.Decimal.Literal
import DynamicRange.Decimal.Shortest

/-!
# Dates and times

A moment is a date, a time of day, or both; with both there may be an offset from universal time.

## Main definitions

* `Date`, `Time`, `Offset`, `Moment`
* `moment?`: the moment that a text denotes
* `Moment.text`: a moment in its one plain form, with a capital `T` and no superfluous zeros
-/

namespace DynamicRange.Toml

/-- A day of the calendar. -/
structure Date where
  /-- The year, of four digits. -/
  year : Nat
  /-- The month, from 1. -/
  month : Nat
  /-- The day of the month, from 1. -/
  day : Nat
deriving DecidableEq, Repr

/-- A time of day. -/
structure Time where
  /-- The hour, up to 23. -/
  hour : Nat
  /-- The minute, up to 59. -/
  minute : Nat
  /-- The second, up to 60 for a leap second. -/
  second : Nat
  /-- The fraction of the second in billionths. -/
  nanosecond : Nat
deriving DecidableEq, Repr

/-- An offset from universal time. -/
inductive Offset where
  /-- The letter for universal time itself. -/
  | universal
  /-- A number of minutes, negative to the west. -/
  | minutes (count : Int)
deriving DecidableEq, Repr

/-- A date, a time, or both. -/
structure Moment where
  date : Option Date := none
  time : Option Time := none
  /-- The offset of a time that has a date. -/
  offset : Option Offset := none
deriving DecidableEq, Repr

/-! ## Reading -/

/-- The number that so many digits at the head of a text denote, and the rest. -/
def fixedDigits? (count : Nat) (cs : List Char) : Option (Nat × List Char) := do
  let n ← Decimal.natural? (cs.take count)
  if count ≤ cs.length then some (n, cs.drop count) else none

/-- The text after a given character. -/
def after? (c : Char) (cs : List Char) : Option (List Char) :=
  if cs.head? = some c then some (cs.drop 1) else none

/-- The number of days of a month. -/
def daysOf (year month : Nat) : Nat :=
  if month = 2 then if year % 4 = 0 ∧ (year % 100 ≠ 0 ∨ year % 400 = 0) then 29 else 28
  else if month = 4 ∨ month = 6 ∨ month = 9 ∨ month = 11 then 30
  else 31

/-- A date at the head of a text, and the rest. -/
def date? (cs : List Char) : Option (Date × List Char) := do
  let (year, cs) ← fixedDigits? 4 cs
  let (month, cs) ← fixedDigits? 2 (← after? '-' cs)
  let (day, cs) ← fixedDigits? 2 (← after? '-' cs)
  if 1 ≤ month ∧ month ≤ 12 ∧ 1 ≤ day ∧ day ≤ daysOf year month then
    some (⟨year, month, day⟩, cs)
  else none

/-- An hour and a minute at the head of a text, and the rest. -/
def clock? (cs : List Char) : Option ((Nat × Nat) × List Char) := do
  let (hour, cs) ← fixedDigits? 2 cs
  let (minute, cs) ← fixedDigits? 2 (← after? ':' cs)
  if hour < 24 ∧ minute < 60 then some ((hour, minute), cs) else none

/-- The billionths that the digits of a fraction denote. Digits after the ninth are cut off. -/
def billionths (ds : List Char) : Nat := Decimal.value ((ds ++ List.replicate 9 '0').take 9)

/-- A time at the head of a text, and the rest. The second may have a fraction. -/
def time? (cs : List Char) : Option (Time × List Char) := do
  let ((hour, minute), cs) ← clock? cs
  let (second, cs) ← fixedDigits? 2 (← after? ':' cs)
  if 60 < second then none
  else
    match cs with
    | '.' :: rest =>
      let ds := rest.takeWhile Char.isDigit
      if ds.isEmpty then none
      else some (⟨hour, minute, second, billionths ds⟩, rest.dropWhile Char.isDigit)
    | _ => some (⟨hour, minute, second, 0⟩, cs)

/-- The offset that a text denotes. -/
def offset? : List Char → Option Offset
  | ['Z'] | ['z'] => some .universal
  | c :: rest => do
    let ((hour, minute), rest) ← clock? rest
    let count : Int := 60 * hour + minute
    if !rest.isEmpty then none
    else if c = '+' then some (.minutes count)
    else if c = '-' then some (.minutes (-count))
    else none
  | [] => none

/-- The moment that a text denotes. A letter or a space divides a date from a time. -/
def moment? (cs : List Char) : Option Moment :=
  match time? cs with
  | some (time, []) => some { time }
  | _ => do
    let (date, rest) ← date? cs
    match rest with
    | [] => return { date }
    | c :: rest =>
      if c ≠ 'T' ∧ c ≠ 't' ∧ c ≠ ' ' then none
      else
        let (time, rest) ← time? rest
        if rest.isEmpty then return { date, time }
        else return { date, time, offset := ← offset? rest }

/-! ## Writing -/

/-- A number with zeros in front, up to the width. -/
def zeroPadded (width n : Nat) : List Char :=
  let ds := Decimal.digits n
  List.replicate (width - ds.length) '0' ++ ds

/-- The characters of a date. -/
def Date.chars (d : Date) : List Char :=
  zeroPadded 4 d.year ++ '-' :: zeroPadded 2 d.month ++ '-' :: zeroPadded 2 d.day

/-- The characters of an hour and a minute. -/
def clockChars (hour minute : Nat) : List Char := zeroPadded 2 hour ++ ':' :: zeroPadded 2 minute

/-- The characters of a time, with a fraction only if it is not zero. -/
def Time.chars (t : Time) : List Char :=
  clockChars t.hour t.minute ++ ':' :: zeroPadded 2 t.second ++
    if t.nanosecond = 0 then [] else '.' :: Decimal.stripZeros (zeroPadded 9 t.nanosecond)

/-- The characters of an offset. An offset of zero has a plus sign. -/
def Offset.chars : Offset → List Char
  | universal => ['Z']
  | minutes count =>
    (if count < 0 then '-' else '+') :: clockChars (count.natAbs / 60) (count.natAbs % 60)

/-- A moment in its plain form. -/
def Moment.text (m : Moment) : String :=
  let date := (m.date.map Date.chars).getD []
  let time := (m.time.map Time.chars).getD []
  let divider := if m.date.isSome ∧ m.time.isSome then ['T'] else []
  String.ofList (date ++ divider ++ time ++ (m.offset.map Offset.chars).getD [])

end DynamicRange.Toml
