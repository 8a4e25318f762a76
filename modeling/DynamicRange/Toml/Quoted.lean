/-!
# Quoted text in TOML

The four kinds of TOML strings. Double quotes delimit a basic string, in which a backslash starts
an escape; single quotes a literal one, in which every character stands for itself. One quote opens
a string on one line, three quotes a block that may span lines.

## Main definitions

* `basic`, `literal`: the content after the opening quotes
* `quoted?`: a string of any kind
* `quote`: the written form of a text, the plainest that can hold it
-/

namespace DynamicRange.Toml

/-- The single quote. -/
def apostrophe : Char := '\x27'

/-- Whether a character can stand for itself on one line. -/
def isPlain (c : Char) : Bool := c == '\t' || (' ' ≤ c && c != '\x7f')

/-- The two extents of a string. -/
inductive Form where
  /-- Between single quote characters, on one line. -/
  | line
  /-- Between three quote characters each, over any number of lines. -/
  | block
deriving DecidableEq, Repr

/-! ## Reading -/

/-- The closing quotes at the head of a text: the quotes before them that belong to the content, at
most two, and what follows them. -/
def closing? (quote : Char) (form : Form) (cs : List Char) : Option (List Char × List Char) :=
  match form with
  | .line => if cs.head? = some quote then some ([], cs.drop 1) else none
  | .block =>
    let run := min 5 (cs.takeWhile (· == quote)).length
    if 3 ≤ run then some (List.replicate (run - 3) quote, cs.drop run) else none

/-- Puts a character, if there is one, before the content of a string. -/
def prepend (c? : Option Char) (string? : Option (List Char × List Char)) :
    Option (List Char × List Char) := do
  let c ← c?
  let (content, rest) ← string?
  return (c :: content, rest)

/-- The character of a one-letter escape. -/
def unescape? : Char → Option Char
  | 'b' => some '\x08'
  | 't' => some '\t'
  | 'n' => some '\n'
  | 'f' => some '\x0c'
  | 'r' => some '\r'
  | '"' => some '"'
  | '\\' => some '\\'
  | _ => none

/-- The value of a hexadecimal digit. -/
def hexValue? (c : Char) : Option Nat :=
  if c.isDigit then some (c.toNat - '0'.toNat)
  else if 'a' ≤ c && c ≤ 'f' then some (c.toNat - 'a'.toNat + 10)
  else if 'A' ≤ c && c ≤ 'F' then some (c.toNat - 'A'.toNat + 10)
  else none

/-- The character whose code is written in hexadecimal digits. Surrogates are no characters. -/
def codePoint? (ds : List Char) : Option Char := do
  let n ← ds.foldlM (fun n c => (hexValue? c).map (16 * n + ·)) 0
  if n < 0xd800 ∨ (0xdfff < n ∧ n < 0x110000) then some (.ofNat n) else none

/-- Whether a character is a line feed, or a carriage return that belongs to one. -/
def breaksLine (c : Char) (rest : List Char) : Bool :=
  c == '\n' || (c == '\r' && rest.head? == some '\n')

/-- Spaces and tabs. -/
def isSpace (c : Char) : Bool := c == ' ' || c == '\t'

/-- The text without the spaces and tabs at its head. -/
def dropSpaces (cs : List Char) : List Char := cs.dropWhile isSpace

/-- Whether nothing but spaces is left of the line. -/
def endsLine (cs : List Char) : Bool :=
  match dropSpaces cs with
  | c :: rest => breaksLine c rest
  | [] => false

/-- The content of a basic string and what follows it. In a block, a backslash at the end of a line
skips all blanks up to the next other character; the flag tells that this is going on. -/
def basic (form : Form) (skipping : Bool) : List Char → Option (List Char × List Char)
  | [] => none
  | c :: rest =>
    match closing? '"' form (c :: rest) with
    | some done => some done
    | none =>
      if skipping && (isSpace c || breaksLine c rest) then basic form true rest
      else if c == '\\' then
        match rest with
        | [] => none
        | 'u' :: a :: b :: c :: d :: more =>
          prepend (codePoint? [a, b, c, d]) (basic form false more)
        | 'U' :: a :: b :: c :: d :: e :: f :: g :: h :: more =>
          prepend (codePoint? [a, b, c, d, e, f, g, h]) (basic form false more)
        | e :: more =>
          if form = .block ∧ endsLine (e :: more) then basic form true more
          else prepend (unescape? e) (basic form false more)
      else if isPlain c then prepend (some c) (basic form false rest)
      else if form = .block ∧ breaksLine c rest then
        if c == '\r' then basic form false rest else prepend (some c) (basic form false rest)
      else none

/-- The content of a literal string and what follows it. -/
def literal (form : Form) : List Char → Option (List Char × List Char)
  | [] => none
  | c :: rest =>
    match closing? apostrophe form (c :: rest) with
    | some done => some done
    | none =>
      if isPlain c then prepend (some c) (literal form rest)
      else if form = .block ∧ breaksLine c rest then
        if c == '\r' then literal form rest else prepend (some c) (literal form rest)
      else none

/-- The text without a line break at its head. -/
def dropBreak : List Char → List Char
  | '\n' :: rest => rest
  | '\r' :: '\n' :: rest => rest
  | rest => rest

/-- The content of a string and what follows it. A line break after the opening of a block is not
part of the content. -/
def quoted? : List Char → Option (List Char × List Char)
  | '"' :: '"' :: '"' :: rest => basic .block false (dropBreak rest)
  | '"' :: rest => basic .line false rest
  | '\x27' :: '\x27' :: '\x27' :: rest => literal .block (dropBreak rest)
  | '\x27' :: rest => literal .line rest
  | _ => none

/-! ## Writing -/

/-- Whether a character can only be written as an escape: a control other than tab and line feed. -/
def isControl (c : Char) : Bool := (c < ' ' && c != '\t' && c != '\n') || c == '\x7f'

/-- The escape of a control by its code, in four hexadecimal digits. -/
def codeEscape (c : Char) : List Char :=
  ['\\', 'u', '0', '0',
    (Nat.digitChar (c.toNat / 16)).toUpper, (Nat.digitChar (c.toNat % 16)).toUpper]

/-- A character of a basic string, quotes and line feeds aside. -/
def encodeChar (c : Char) : List Char :=
  if c == '\x08' then ['\\', 'b']
  else if c == '\t' then ['\\', 't']
  else if c == '\x0c' then ['\\', 'f']
  else if c == '\r' then ['\\', 'r']
  else if c == '\\' then ['\\', '\\']
  else if isControl c then codeEscape c
  else [c]

/-- The content of a basic string on one line. -/
def encodeLine : List Char → List Char
  | [] => []
  | c :: cs =>
    let written :=
      if c == '"' then ['\\', '"'] else if c == '\n' then ['\\', 'n'] else encodeChar c
    written ++ encodeLine cs

/-- The content of a basic block. A third quote in a row would close it, so it is escaped; `run` is
the number of quotes just written. -/
def encodeBlock (run : Nat) : List Char → List Char
  | [] => []
  | c :: cs =>
    if c == '"' then
      if run < 2 then c :: encodeBlock (run + 1) cs else '\\' :: c :: encodeBlock 0 cs
    else if c == '\n' then c :: encodeBlock 0 cs
    else encodeChar c ++ encodeBlock 0 cs

/-- The length of the longest run of a character, where `run` of them come just before. -/
def longestRun (q : Char) (run : Nat) : List Char → Nat
  | [] => run
  | c :: cs => if c == q then longestRun q (run + 1) cs else max run (longestRun q 0 cs)

/-- Whether a text can be written. Runs of each quote are counted in one byte. -/
def isWritable (cs : List Char) : Bool :=
  longestRun '"' 0 cs < 256 && longestRun apostrophe 0 cs < 256

/-- A text between delimiters of three quotes. One that spans lines starts on a line of its own. -/
def inBlock (q : Char) (spansLines : Bool) (content : List Char) : List Char :=
  let delimiter := List.replicate 3 q
  delimiter ++ (if spansLines then ['\n'] else []) ++ content ++ delimiter

/-- A text between one quote on each side. -/
def inLine (q : Char) (content : List Char) : List Char := q :: content ++ [q]

/-- The written form of a text: a basic string if nothing has to be escaped, else a literal one,
else a block, and an escaped string if there is no other way. -/
def quote (cs : List Char) : List Char :=
  let verbatim := !cs.any isControl
  let spansLines := cs.contains '\n'
  if verbatim && !cs.contains '\\' && !cs.contains '"' && !spansLines then
    inLine '"' (encodeLine cs)
  else if verbatim && !cs.contains apostrophe && !spansLines then inLine apostrophe cs
  else if verbatim && !cs.contains '\\' && longestRun '"' 0 cs ≤ 2 then
    inBlock '"' spansLines (encodeBlock 0 cs)
  else if verbatim && longestRun apostrophe 0 cs ≤ 2 then inBlock apostrophe spansLines cs
  else if spansLines then inBlock '"' true (encodeBlock 0 cs)
  else inLine '"' (encodeLine cs)

end DynamicRange.Toml
