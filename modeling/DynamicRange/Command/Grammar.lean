/-!
# Grammar of arguments

Splits the arguments of a command into options and operands. Long options may take their value
after an equals sign, short ones directly; otherwise the next argument is the value, unless it
looks like an option itself. After a double hyphen all arguments are operands.

## Main definitions

* `OptionRule`, `Grammar`
* `Token`, `tokens`: the arguments one by one, up to the first that fits no rule
* `Grammar.parse`: options and operands, each checked when it is met
-/

namespace DynamicRange.Command

/-- An option. -/
structure OptionRule where
  /-- The name after two hyphens. -/
  long : String
  /-- The letter after one hyphen. -/
  short : Option Char := none
  /-- The check of a value, if the option takes one. -/
  value : Option (String → Bool) := none
  /-- Whether the option may be given several times. -/
  isRepeatable : Bool := false

/-- The part of an argument list that was understood as one thing. -/
inductive Token where
  /-- An option, with its value if it takes one. -/
  | option (rule : OptionRule) (value : String)
  /-- An operand. -/
  | operand (text : String)
  /-- Something that fits no rule. -/
  | misfit

/-- Whether an argument can only be an option. -/
def isOptionLike (arg : String) : Bool := arg.startsWith "-" && arg != "-"

/-- The letters of a short option group as tokens, and the last option if its value is still to
come. -/
def letters (rules : List OptionRule) : List Char → List Token × Option OptionRule
  | [] => ([], none)
  | c :: cs =>
    match rules.find? (·.short == some c) with
    | none => ([.misfit], none)
    | some rule =>
      if rule.value.isNone then
        let (others, waiting) := letters rules cs
        (.option rule "" :: others, waiting)
      else
        match cs with
        | [] => ([], some rule)
        | '=' :: value => ([.option rule (String.ofList value)], none)
        | value => ([.option rule (String.ofList value)], none)

/-- A long option as tokens, or the option if its value is still to come. -/
def word (rules : List OptionRule) (cs : List Char) : List Token × Option OptionRule :=
  let name := cs.takeWhile (· != '=')
  let value := cs.drop name.length
  match rules.find? (·.long.toList == name) with
  | none => ([.misfit], none)
  | some rule =>
    match rule.value, value with
    | none, [] => ([.option rule ""], none)
    | none, _ => ([.misfit], none)
    | some _, [] => ([], some rule)
    | some _, _ :: value => ([.option rule (String.ofList value)], none)

/-- One argument as tokens, and the option whose value is still to come. -/
def argument (rules : List OptionRule) (arg : String) : List Token × Option OptionRule :=
  match arg.toList with
  | '-' :: '-' :: cs => word rules cs
  | '-' :: c :: cs => letters rules (c :: cs)
  | _ => ([.operand arg], none)

/-- The arguments as tokens. `waiting` is an option that waits for its value. -/
def tokens (rules : List OptionRule) (waiting : Option OptionRule) : List String → List Token
  | [] => if waiting.isSome then [.misfit] else []
  | arg :: rest =>
    match waiting with
    | some rule =>
      if isOptionLike arg then [.misfit] else .option rule arg :: tokens rules none rest
    | none =>
      if arg = "--" then rest.map .operand
      else
        let (found, waiting) := argument rules arg
        found ++ tokens rules waiting rest

/-- The options and operands of a command. -/
structure Grammar where
  options : List OptionRule
  /-- The checks of the operands, in order. -/
  operands : List (String → Bool)
  /-- The number of operands that must be there. -/
  required : Nat

/-- Options and operands as they were given. -/
structure Given where
  /-- The options with their values, in order. -/
  options : List (String × String) := []
  /-- The operands, in order. -/
  operands : List String := []

/-- The value of an option. -/
def Given.value? (g : Given) (long : String) : Option String := g.options.lookup long

/-- The values of an option, in order. -/
def Given.values (g : Given) (long : String) : List String :=
  (g.options.filter (·.1 == long)).map Prod.snd

/-- Why arguments are not those of a command. -/
inductive Interruption where
  | help
  | version
  /-- The arguments fit no rule. -/
  | misuse

/-- The options that ask for help and the version. -/
def helpRule : OptionRule := { long := "help", short := 'h' }

@[inherit_doc helpRule]
def versionRule : OptionRule := { long := "version", short := 'V' }

/-- The option that asks for more messages. -/
def verboseRule : OptionRule := { long := "verbose", short := 'v' }

namespace Grammar

/-- Adds a token. -/
def add (g : Grammar) (given : Given) : Token → Except Interruption Given
  | .misfit => .error .misuse
  | .option rule value =>
    if rule.long = helpRule.long then .error .help
    else if rule.long = versionRule.long then .error .version
    else if !rule.isRepeatable && (given.value? rule.long).isSome then .error .misuse
    else if rule.value.all (· value) then
      .ok { given with options := given.options ++ [(rule.long, value)] }
    else .error .misuse
  | .operand text =>
    match g.operands[given.operands.length]? with
    | some check =>
      if check text then .ok { given with operands := given.operands ++ [text] }
      else .error .misuse
    | none => .error .misuse

/-- The options and operands in a list of arguments. -/
def parse (g : Grammar) (args : List String) : Except Interruption Given := do
  let rules := helpRule :: verboseRule :: g.options
  let given ← (tokens rules none args).foldlM g.add {}
  if given.operands.length < g.required then throw .misuse
  return given

end Grammar

end DynamicRange.Command
