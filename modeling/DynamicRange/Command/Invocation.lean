import DynamicRange.Command.Grammar
import DynamicRange.Decimal.Literal
import DynamicRange.Text.Blank

/-!
# Invocations

The commands with their arguments, and how they are read from a command line.

## Main definitions

* `Job`: a command with its arguments
* `keyValue?`, `bitDepth?`: values of options
* `invocation`: the job of a command line
-/

namespace DynamicRange.Command

/-- Where the settings of a run come from. -/
structure Source where
  /-- The name of a preset or of a file with one. -/
  preset : Option String
  /-- Keys and texts that override it, in order. -/
  overrides : List (String × String)

/-- A command with its arguments. -/
inductive Job where
  /-- Compresses a file. -/
  | compress (input output : String) (source : Source) (blockSize bits : Nat)
  /-- Compresses a file by the level of another. -/
  | sidechain (main sidechain output : String) (source : Source)
      (blockSize sidechainBlockSize bits : Nat)
  /-- Shows what a file holds. -/
  | info (file : String) (levels : Bool)
  /-- Lists the controls, or describes one. -/
  | params (name : Option String)
  /-- Lists the factory presets, or shows a preset. -/
  | presets (name : Option String) (target : Option String)

/-- A text of the form `key=value`, both without blanks around them. -/
def keyValue? (text : String) : Option (String × String) :=
  let key := text.toList.takeWhile (· != '=')
  match text.toList.drop key.length with
  | [] => none
  | _ :: value => some (String.ofList (Text.trim key), String.ofList (Text.trim value))

/-- What is said of a text that is not of the form. -/
def keyValueMessage (text : String) : String :=
  s!"Invalid parameter format: '{text}' (expected key=value)"

/-- A number of bits that samples can be written with. -/
def bitDepth? (text : String) : Option Nat :=
  (Decimal.boundedNatural? ((1 <<< 16) - 1) text.toList).filter fun n => n = 16 || n = 24 || n = 32

/-- What is said of a text that is no such number. -/
def bitDepthMessage (text : String) : String :=
  s!"Unsupported bit depth '{text}' (expected 16, 24 or 32)"

/-- A number of samples. -/
def blockSize? (text : String) : Option Nat := Decimal.boundedNatural? ((1 <<< 64) - 1) text.toList

/-- Whether a text can be a path. -/
def isPath (text : String) : Bool := !text.isEmpty

/-- Accepts all texts. -/
def isText (_ : String) : Bool := true

/-- The options that tell the settings of a run. -/
def sourceRules : List OptionRule :=
  [{ long := "preset", short := 'p', value := some isText },
   { long := "param", value := some fun text => (keyValue? text).isSome, isRepeatable := true }]

/-- The option for the number of bits. -/
def bitDepthRule : OptionRule :=
  { long := "bit-depth", value := some fun text => (bitDepth? text).isSome }

/-- An option for a number of samples. -/
def blockRule (long : String) : OptionRule :=
  { long, value := some fun text => (blockSize? text).isSome }

namespace Given

/-- The settings of a run. -/
def source (g : Given) : Source where
  preset := g.value? "preset"
  overrides := (g.values "param").filterMap keyValue?

/-- The number of bits, 32 unless given. -/
def bits (g : Given) : Nat := ((g.value? "bit-depth").bind bitDepth?).getD 32

/-- A number of samples. -/
def blockSize? (g : Given) (long : String) : Option Nat := (g.value? long).bind Command.blockSize?

end Given

/-- The arguments of `compress`. -/
def compressGrammar : Grammar where
  options := sourceRules ++ [blockRule "block-size", bitDepthRule]
  operands := [isPath, isPath]
  required := 2

/-- The arguments of `sidechain`. -/
def sidechainGrammar : Grammar where
  options :=
    sourceRules ++ [blockRule "block-size", blockRule "sidechain-block-size", bitDepthRule]
  operands := [isPath, isPath, isPath]
  required := 3

/-- The arguments of `info`. -/
def infoGrammar : Grammar where
  options := [{ long := "levels" }]
  operands := [isPath]
  required := 1

/-- The arguments of `params`. -/
def paramsGrammar : Grammar where
  options := []
  operands := [isText]
  required := 0

/-- The arguments of `presets`. -/
def presetsGrammar : Grammar where
  options := [{ long := "export", value := some isPath }]
  operands := [isText]
  required := 0

/-- The job of a command and its arguments. -/
def job (command : String) (args : List String) : Except Interruption Job := do
  match command with
  | "compress" =>
    let g ← compressGrammar.parse args
    match g.operands with
    | [input, output] =>
      return .compress input output g.source ((g.blockSize? "block-size").getD 512) g.bits
    | _ => throw .misuse
  | "sidechain" =>
    let g ← sidechainGrammar.parse args
    let size := (g.blockSize? "block-size").getD 512
    match g.operands with
    | [main, sidechain, output] =>
      return .sidechain main sidechain output g.source size
        ((g.blockSize? "sidechain-block-size").getD size) g.bits
    | _ => throw .misuse
  | "info" =>
    let g ← infoGrammar.parse args
    match g.operands with
    | [file] => return .info file (g.value? "levels").isSome
    | _ => throw .misuse
  | "params" => return .params (← paramsGrammar.parse args).operands.head?
  | "presets" =>
    let g ← presetsGrammar.parse args
    let target := g.value? "export"
    if target.isSome && g.operands.isEmpty then throw .misuse
    return .presets g.operands.head? target
  | _ => throw .misuse

/-- The names of the commands. -/
def commandNames : List String := ["compress", "sidechain", "info", "params", "presets", "help"]

/-- Options before the command. They take no values. -/
def leadingGrammar : Grammar := { options := [versionRule], operands := [], required := 0 }

/-- The job of a command line. `given` holds the options met so far. -/
def invocationFrom (given : Given) : List String → Except Interruption Job
  | [] => .error .misuse
  | arg :: rest =>
    if isOptionLike arg then do
      let rules := [helpRule, versionRule, verboseRule]
      let given ← (tokens rules none [arg]).foldlM leadingGrammar.add given
      if arg = "--" then throw .misuse
      invocationFrom given rest
    else if arg = "help" then
      .error (if rest.all commandNames.contains && rest.length ≤ 1 then .help else .misuse)
    else job arg rest

/-- The job of a command line. -/
def invocation (args : List String) : Except Interruption Job := invocationFrom {} args

end DynamicRange.Command
