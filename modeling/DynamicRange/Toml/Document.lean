import DynamicRange.Toml.Quoted
import DynamicRange.Toml.Table

/-!
# TOML documents

Reads a TOML document in two steps: the text into statements (headers and assignments), and the
statements into a table.

## Main definitions

* `keyPath?`, `value?`: a dotted key and a value at the head of a text
* `Statement`, `statements?`
* `Document.read?`: the table of a text
* `writeKey`, `writeEntry`: the text of an assignment of a string
-/

namespace DynamicRange.Toml

/-! ## Keys -/

/-- Whether a character may stand in a key without quotes. -/
def isBare (c : Char) : Bool := c.isAlphanum || c == '_' || c == '-'

/-- One key and what follows it. -/
def key? (cs : List Char) : Option (List Char × List Char) :=
  match cs with
  | '"' :: rest => basic .line false rest
  | '\x27' :: rest => literal .line rest
  | _ =>
    let run := cs.takeWhile isBare
    if run.isEmpty then none else some (run, cs.dropWhile isBare)

/-- At most `depth` keys with points between them, and what follows them. Spaces may stand around
each key. -/
def keyPath? : Nat → List Char → Option (List String × List Char)
  | 0, _ => none
  | depth + 1, cs => do
    let (key, cs) ← key? (dropSpaces cs)
    match dropSpaces cs with
    | '.' :: cs =>
      let (path, cs) ← keyPath? depth cs
      return (String.ofList key :: path, cs)
    | cs => return ([String.ofList key], cs)

/-- The bound on the nesting of values and on the keys of a path. -/
def maxDepth : Nat := 80

/-! ## Values -/

/-- The text after a line break. -/
def afterBreak? : List Char → Option (List Char)
  | '\n' :: rest => some rest
  | '\r' :: '\n' :: rest => some rest
  | _ => none

/-- The text after blanks, line breaks and comments, with at most `fuel` lines. -/
def skipLines : Nat → List Char → List Char
  | 0, cs => cs
  | fuel + 1, cs =>
    let cs := dropSpaces cs
    let afterComment := match cs with
      | '#' :: rest => rest.dropWhile isPlain
      | _ => cs
    match afterBreak? afterComment with
    | some rest => skipLines fuel rest
    | none => cs

/-- The text after blanks, line breaks and comments. -/
def skipBlanks (cs : List Char) : List Char := skipLines cs.length cs

/-- The items of an array up to its closing bracket. A comma may follow the last item. -/
def items? (value? : List Char → Option (Value × List Char)) :
    Nat → List Char → Option (List Value × List Char)
  | 0, _ => none
  | fuel + 1, cs =>
    match skipBlanks cs with
    | ']' :: rest => some ([], rest)
    | cs => do
      let (value, cs) ← value? cs
      match skipBlanks cs with
      | ',' :: rest =>
        let (values, rest) ← items? value? fuel rest
        return (value :: values, rest)
      | ']' :: rest => return ([value], rest)
      | _ => none

/-- An assignment: key, equals sign, value. -/
def assignment? (value? : List Char → Option (Value × List Char)) (cs : List Char) :
    Option ((List String × Value) × List Char) := do
  let (path, cs) ← keyPath? (maxDepth - 1) cs
  match cs with
  | '=' :: cs =>
    let (value, cs) ← value? (dropSpaces cs)
    return ((path, value), cs)
  | _ => none

/-- The assignments of a table in braces up to the closing one. No comma follows the last, and all
is on one line. -/
def members? (value? : List Char → Option (Value × List Char)) :
    Nat → Table → List Char → Option (Table × List Char)
  | 0, _, _ => none
  | fuel + 1, t, cs => do
    let ((path, value), cs) ← assignment? value? cs
    let t ← t.assign? path.dropLast (path.getLast?.getD "") value
    match dropSpaces cs with
    | ',' :: rest => members? value? fuel t rest
    | '}' :: rest => return (t, rest)
    | _ => none

/-- A value and what follows it, nested fewer than `depth` deep. -/
def value? : Nat → List Char → Option (Value × List Char)
  | 0, _ => none
  | depth + 1, cs =>
    match cs with
    | '[' :: rest =>
      if depth = 0 then none
      else
        (items? (value? depth) (rest.length + 1) rest).map fun (items, rest) => (.array items, rest)
    | '{' :: rest =>
      if depth = 0 then none
      else
        match dropSpaces rest with
        | '}' :: rest => some (.table .braces [], rest)
        | rest =>
          (members? (value? depth) (rest.length + 1) ⟨.braces, []⟩ rest).map fun (t, rest) =>
            (t.toValue, rest)
    | '"' :: _ | '\x27' :: _ =>
      (quoted? cs).map fun (content, rest) => (.text (String.ofList content), rest)
    | _ => (atom? cs).map fun (content, rest) => (.atom content, rest)

/-! ## Statements -/

/-- A line of a document. The last key of a path stands by itself. -/
inductive Statement where
  /-- A header in brackets. -/
  | table (path : List String) (key : String)
  /-- A header in double brackets. -/
  | row (path : List String) (key : String)
  /-- An assignment. -/
  | assign (path : List String) (key : String) (value : Value)

/-- The text after the rest of a line: blanks and a comment. -/
def afterLine? (cs : List Char) : Option (List Char) :=
  let cs := dropSpaces cs
  let cs := match cs with
    | '#' :: rest => rest.dropWhile isPlain
    | _ => cs
  if cs.isEmpty then some [] else afterBreak? cs

/-- A statement without the rest of its line. -/
def statement? (cs : List Char) : Option (Statement × List Char) :=
  match cs with
  | '[' :: '[' :: rest => do
    let (path, rest) ← keyPath? (maxDepth - 1) rest
    match rest with
    | ']' :: ']' :: rest => return (.row path.dropLast (path.getLast?.getD ""), rest)
    | _ => none
  | '[' :: rest => do
    let (path, rest) ← keyPath? (maxDepth - 1) rest
    match rest with
    | ']' :: rest => return (.table path.dropLast (path.getLast?.getD ""), rest)
    | _ => none
  | _ => do
    let ((path, value), rest) ← assignment? (value? maxDepth) cs
    return (.assign path.dropLast (path.getLast?.getD "") value, rest)

/-- The statements of a text of at most `fuel` lines. -/
def statements? : Nat → List Char → Option (List Statement)
  | 0, _ => none
  | fuel + 1, cs =>
    match skipBlanks cs with
    | [] => some []
    | '#' :: rest => if (rest.dropWhile isPlain).isEmpty then some [] else none
    | cs => do
      let (statement, rest) ← statement? cs
      let others ← statements? fuel (← afterLine? rest)
      return statement :: others

/-! ## Documents -/

/-- A document while it is read. -/
structure Document where
  /-- The table of the whole document. -/
  root : Table
  /-- The path of the table that assignments go to. -/
  here : List String

namespace Document

/-- The document without statements. -/
def empty : Document := ⟨⟨.header, []⟩, []⟩

/-- Adds a statement. -/
def add? (d : Document) : Statement → Option Document
  | .table path key => (d.root.openTable? path key).map fun root => ⟨root, path ++ [key]⟩
  | .row path key => (d.root.openRow? path key).map fun root => ⟨root, path ++ [key]⟩
  | .assign path key value =>
    (d.root.update false (·.assign? path key value) d.here).map fun root => { d with root }

/-- The table of a text. A byte order mark in front is skipped. -/
def read? (text : String) : Option Table := do
  let cs := text.toList
  let cs := if cs.head? = some '\ufeff' then cs.drop 1 else cs
  let statements ← statements? (cs.length + 1) cs
  let document ← statements.foldlM add? empty
  return document.root

end Document

/-! ## Writing -/

/-- The written form of a key: bare if possible, else quoted on one line. -/
def writeKey (cs : List Char) : List Char :=
  let verbatim := !cs.any fun c => isControl c || c == '\n'
  if !cs.isEmpty && cs.all isBare then cs
  else if verbatim && !cs.contains '\\' && !cs.contains '"' then inLine '"' (encodeLine cs)
  else if verbatim && !cs.contains apostrophe then inLine apostrophe cs
  else inLine '"' (encodeLine cs)

/-- The line that assigns a string to a key. -/
def writeEntry (key content : String) : List Char :=
  writeKey key.toList ++ " = ".toList ++ quote content.toList ++ ['\n']

end DynamicRange.Toml
