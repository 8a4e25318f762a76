import DynamicRange.Toml.Moment

/-!
# Atoms of TOML

Numbers, truth values, dates and times. An atom is a run of characters that fits one of the forms;
a date may be followed by a space and a time. Which number is denoted is of no concern here.

## Main definitions

* `isInteger`, `isFloat`: the forms of numbers
* `Atom`, `atom?`: an atom at the head of a text
-/

namespace DynamicRange.Toml

/-- Digits in which single underscores may stand between two digits, without these. -/
def ungroup (isDigit : Char → Bool) : List Char → Option (List Char)
  | [] => none
  | [c] => if isDigit c then some [c] else none
  | c :: '_' :: rest => if isDigit c then (ungroup isDigit rest).map (c :: ·) else none
  | c :: rest => if isDigit c then (ungroup isDigit rest).map (c :: ·) else none

/-- Grouped decimal digits. -/
def decimalDigits? (cs : List Char) : Option (List Char) := ungroup Char.isDigit cs

/-- Grouped decimal digits without a superfluous zero in front. -/
def wholeDigits? (cs : List Char) : Option (List Char) := do
  let ds ← decimalDigits? cs
  if ds.head? = some '0' ∧ 1 < ds.length then none else some ds

/-- The digit that a character denotes, of any base up to sixteen. -/
def digitValue (c : Char) : Nat :=
  if c.isDigit then c.toNat - '0'.toNat else c.toLower.toNat - 'a'.toNat + 10

/-- Whether the text is a number of the given base below `2 ^ 63`. -/
def isBased (base : Nat) (cs : List Char) : Bool :=
  let isDigit (c : Char) : Bool := (c.isDigit || c.isAlpha) && digitValue c < base
  (ungroup isDigit cs).any fun ds => ds.foldl (fun n c => base * n + digitValue c) 0 < 1 <<< 63

/-- Whether the text is an integer of 64 bits. Only decimal integers have a sign. -/
def isInteger (cs : List Char) : Bool :=
  match cs with
  | '0' :: 'x' :: rest => isBased 16 rest
  | '0' :: 'o' :: rest => isBased 8 rest
  | '0' :: 'b' :: rest => isBased 2 rest
  | _ =>
    let (negative, rest) := Decimal.splitSign cs
    (wholeDigits? rest).any fun ds =>
      if negative then Decimal.value ds ≤ 1 <<< 63 else Decimal.value ds < 1 <<< 63

/-- Whether a decimal is too large for a double. The power of ten of its first digit decides, unless
it is close to the largest double. -/
def overflows (d : Decimal) : Bool :=
  let size := (Decimal.digits d.units).length + d.exponent
  d.units ≠ 0 && (310 < size || (300 < size && d.toDouble.isInf))

/-- The digits of a fraction, empty if there is none. -/
def fraction? : List Char → Option (List Char)
  | [] => some []
  | '.' :: rest => decimalDigits? rest
  | _ => none

/-- The power of ten of an exponent, zero if there is none. -/
def exponent? : List Char → Option Int
  | [] => some 0
  | _ :: rest => do
    let (negative, rest) := Decimal.splitSign rest
    let n := Decimal.value (← decimalDigits? rest)
    return if negative then -(n : Int) else n

/-- Whether the text is a float: with a fraction, an exponent or both, or a word. A positive one
must not overflow. -/
def isFloat (cs : List Char) : Bool :=
  let (negative, rest) := Decimal.splitSign cs
  let isE (c : Char) : Bool := c == 'e' || c == 'E'
  let mantissa := rest.takeWhile fun c => !isE c
  let whole := mantissa.takeWhile (· != '.')
  let digits : Option Decimal := do
    let ws ← wholeDigits? whole
    let fs ← fraction? (mantissa.drop whole.length)
    let e ← exponent? (rest.drop mantissa.length)
    return ⟨Decimal.value (ws ++ fs), e - fs.length⟩
  rest == "inf".toList || rest == "nan".toList ||
    (whole.length < rest.length && digits.any fun d => negative || !overflows d)

/-- A number, truth value, date or time. -/
inductive Atom where
  /-- A number or truth value, as it is written. -/
  | plain (written : String)
  /-- A date, a time, or both. -/
  | moment (m : Moment)
deriving DecidableEq, Repr

/-- Whether a character can be part of an atom. -/
def isAtomChar (c : Char) : Bool :=
  c.isAlphanum || c == '+' || c == '-' || c == '.' || c == ':' || c == '_'

/-- The atom that a run of characters denotes. -/
def Atom.ofRun? (run : List Char) : Option Atom :=
  if run == "true".toList || run == "false".toList || isInteger run || isFloat run then
    some (.plain (String.ofList run))
  else (moment? run).map .moment

/-- An atom at the head of a text, and what follows it. After a date, a space and a time belong to
the atom. -/
def atom? (cs : List Char) : Option (Atom × List Char) :=
  let run := cs.takeWhile isAtomChar
  let rest := cs.dropWhile isAtomChar
  let longer := run ++ ' ' :: (rest.drop 1).takeWhile isAtomChar
  match rest.head?, date? run, moment? longer with
  | some ' ', some (_, []), some m => some (.moment m, (rest.drop 1).dropWhile isAtomChar)
  | _, _, _ => (Atom.ofRun? run).map fun atom => (atom, rest)

end DynamicRange.Toml
