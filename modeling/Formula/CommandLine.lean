import Formula.Compilation
import Formula.Number.Layout
import Formula.Program.Listing
import Formula.Text.Blank
import Formula.Text.Visible

/-!
# The command line

A formula is computed from the arguments of a command: its text, settings for its
variables and switches.

Arguments are taken from left to right. The value of an option follows it as the next
argument or after an equals sign. A value after an equals sign is read at once; one that
stands by itself waits until the next option, switch or text comes, or the end. So an
argument that is not known is reported before a value that waits, and all other errors
in the order of the arguments. After `--` there are no more options, and what follows a
request for help is not read.

* `Arguments.read`: the arguments of a command, or what is wrong with them.
* `answer`: what a command prints, and its exit code.
-/

namespace Formula.CommandLine

/-- What takes a value. -/
inductive Setting where
  | var
  | iterations
deriving DecidableEq

/-- What is either given or not. -/
inductive Switch where
  | noFold
  | debugLexer
  | debugParser
  | debugBytecode
  | help
deriving DecidableEq

/-- A setting as it is named in messages. -/
def Setting.title : Setting → String
  | var => "--var <VARIABLES>"
  | iterations => "--iterations <ITERATIONS>"

/-- A switch as it is written. -/
def Switch.title : Switch → String
  | noFold => "--no-fold"
  | debugLexer => "--debug-lexer"
  | debugParser => "--debug-parser"
  | debugBytecode => "--debug-bytecode"
  | help => "--help"

/-- The setting with a name. -/
def Setting.ofName? : String → Option Setting
  | "var" => some var
  | "iterations" => some iterations
  | _ => none

/-- The switch with a name. -/
def Switch.ofName? : String → Option Switch
  | "no-fold" => some noFold
  | "debug-lexer" => some debugLexer
  | "debug-parser" => some debugParser
  | "debug-bytecode" => some debugBytecode
  | "help" => some help
  | _ => none

/-- What can be wrong with a value. -/
inductive Flaw where
  /-- There is no equals sign in what should be a name and a number. -/
  | noEquals (text : String)
  /-- There is no number after the equals sign. -/
  | noNumber (name : String)
  /-- What stands after the equals sign is no number. -/
  | notNumber (name : String)
  /-- There are no digits. -/
  | noDigits
  /-- Something is not a digit. -/
  | notDigits
  /-- A count does not fit into 64 bits. -/
  | tooLarge

/-- A flaw in words. -/
def Flaw.message : Flaw → String
  | noEquals text => "expected name=value, got `" ++ text ++ "`"
  | noNumber name => "invalid value for `" ++ name ++ "`: cannot parse float from empty string"
  | notNumber name => "invalid value for `" ++ name ++ "`: invalid float literal"
  | noDigits => "cannot parse integer from empty string"
  | notDigits => "invalid digit found in string"
  | tooLarge => "number too large to fit in target type"

/-- What can be wrong with the arguments. -/
inductive Complaint where
  | invalidValue (setting : Setting) (value : String) (flaw : Flaw)
  | missingValue (setting : Setting)
  | unneededValue (switch : Switch) (value : String)
  | repeatedSetting (setting : Setting)
  | repeatedSwitch (switch : Switch)
  | unexpected (arg : String)
  | missingText

/-- A message in parts, with a hint at its end. Each part is set off from its neighbours,
which ends every control sequence, and is shown by itself. -/
def compose (parts : List String) (last : String) : String :=
  let hint := [last ++ "\n\nFor more information, try '", Switch.help.title, "'."]
  String.join ((parts ++ hint).map Text.visible)

/-- What is said about a complaint. -/
def Complaint.message : Complaint → String
  | invalidValue setting value flaw =>
    compose ["error: invalid value '", value, "' for '", setting.title] ("': " ++ flaw.message)
  | missingValue setting =>
    compose ["error: a value is required for '", setting.title] "' but none was supplied"
  | unneededValue switch value =>
    compose ["error: unexpected value '", value, "' for '", switch.title]
      "' found; no more were expected"
  | repeatedSetting setting =>
    compose ["error: the argument '", setting.title] "' cannot be used multiple times"
  | repeatedSwitch switch =>
    compose ["error: the argument '", switch.title] "' cannot be used multiple times"
  | unexpected arg => compose ["error: unexpected argument '", arg] "' found"
  | missingText =>
    compose ["error: the following required arguments were not provided:\n  "] "<EXPRESSION>"

/-- What the command is for. -/
def usage : String :=
  "Computes the value of an expression.\n\n" ++
  "Usage: [OPTIONS] <EXPRESSION>\n\n" ++
  "Options:\n" ++
  "  " ++ Setting.var.title ++ "  A variable and its value, such as x=1.5; as often as needed\n" ++
  "  " ++ Setting.iterations.title ++ "  How often the value is computed\n" ++
  "  " ++ Switch.noFold.title ++ "  Compute nothing ahead of time\n" ++
  "  " ++ Switch.debugLexer.title ++ "  Only split the expression into tokens\n" ++
  "  " ++ Switch.debugParser.title ++ "  Only read the expression\n" ++
  "  " ++ Switch.debugBytecode.title ++ "  Print the instructions before the value\n" ++
  "  " ++ Switch.help.title ++ "  Print this\n"

/-- A variable and its value, written with an equals sign between them. White space
around either does not count. -/
def readVariable (text : String) : Except Flaw (String × Float) :=
  let name := text.toList.takeWhile (· != '=')
  match text.toList.dropWhile (· != '=') with
  | [] => .error (.noEquals text)
  | _ :: rest =>
    let number := Text.trim rest
    if number.isEmpty then .error (.noNumber (String.ofList name))
    else
      match Number.read? number with
      | none => .error (.notNumber (String.ofList name))
      | some value => .ok (String.ofList (Text.trim name), value)

/-- Reads on after the digits of a count. The first character that is no digit, or with
which the count no longer fits into 64 bits, settles what is wrong. -/
def readDigits (count : Nat) : List Char → Except Flaw Nat
  | [] => .ok count
  | c :: rest =>
    if c.isDigit then
      let more := 10 * count + (c.toNat - '0'.toNat)
      if more < 0x10000000000000000 then readDigits more rest else .error .tooLarge
    else .error .notDigits

/-- A count of at most 64 bits, which may have a plus sign. -/
def readCount (text : String) : Except Flaw Nat :=
  match text.toList with
  | [] => .error .noDigits
  | ['+'] => .error .notDigits
  | '+' :: digits => readDigits 0 digits
  | digits => readDigits 0 digits

/-- What a command is asked to do. -/
structure Arguments where
  text : Option String := none
  /-- What the variables hold. -/
  contents : List (Cell × Float) := []
  /-- How often to compute the value, which is the same each time. -/
  iterations : Option Nat := none
  switches : List Switch := []
  /-- A setting whose value has not been read, and its value if that has come. -/
  waiting : Option (Setting × Option String) := none
  /-- Whether there are no more options. -/
  textOnly : Bool := false

namespace Arguments

/-- Takes over the value of a setting. -/
def assign (a : Arguments) (setting : Setting) (value : String) : Except Complaint Arguments :=
  match setting with
  | .var =>
    match readVariable value with
    | .error flaw => .error (.invalidValue setting value flaw)
    | .ok assigned => .ok { a with contents := a.contents ++ [assigned] }
  | .iterations =>
    if a.iterations.isSome then .error (.repeatedSetting setting)
    else
      match readCount value with
      | .error flaw => .error (.invalidValue setting value flaw)
      | .ok count => .ok { a with iterations := some count }

/-- Takes over the value of the setting that waits, if there is one. -/
def settle (a : Arguments) : Except Complaint Arguments :=
  match a.waiting with
  | none => .ok a
  | some (setting, none) => .error (.missingValue setting)
  | some (setting, some value) => { a with waiting := none }.assign setting value

/-- Takes an argument that is not an option. -/
def takeText (a : Arguments) (arg : String) : Except Complaint Arguments :=
  if a.text.isSome then .error (.unexpected arg)
  else
    match a.settle with
    | .error complaint => .error complaint
    | .ok a => .ok { a with text := some arg }

/-- Takes an option by its name and the value after the equals sign, if there is one. -/
def takeOption (a : Arguments) (name : String) (value : Option String) :
    Except Complaint Arguments :=
  match Setting.ofName? name, Switch.ofName? name, value with
  | some setting, _, some value =>
    match a.settle with
    | .error complaint => .error complaint
    | .ok a => a.assign setting value
  | some setting, _, none =>
    match a.settle with
    | .error complaint => .error complaint
    | .ok a => .ok { a with waiting := some (setting, none) }
  | none, some switch, some value => .error (.unneededValue switch value)
  | none, some switch, none =>
    match a.settle with
    | .error complaint => .error complaint
    | .ok a =>
      if switch ∈ a.switches then .error (.repeatedSwitch switch)
      else .ok { a with switches := switch :: a.switches }
  | none, none, _ => .error (.unexpected ("--" ++ name))

/-- Takes the next argument. -/
def take (a : Arguments) (arg : String) : Except Complaint Arguments :=
  if .help ∈ a.switches then .ok a
  else if a.textOnly then a.takeText arg
  else
    match arg.toList with
    | ['-', '-'] => .ok { a with textOnly := true }
    | '-' :: '-' :: option =>
      let name := String.ofList (option.takeWhile (· != '='))
      match option.dropWhile (· != '=') with
      | [] => a.takeOption name none
      | _ :: value => a.takeOption name (some (String.ofList value))
    | '-' :: 'h' :: _ => a.takeOption "help" none
    | '-' :: c :: _ => .error (.unexpected (String.ofList ['-', c]))
    | _ =>
      match a.waiting with
      | some (setting, none) => .ok { a with waiting := some (setting, some arg) }
      | _ => a.takeText arg

/-- The arguments of a command. -/
def read (args : List String) : Except Complaint Arguments :=
  match args.foldlM take {} with
  | .error complaint => .error complaint
  | .ok a => a.settle

/-- What the variables stand for: each reads the cell of its name. -/
def scope (a : Arguments) : Scope :=
  .ofList (a.contents.map fun (name, _) => (name, .cell name))

end Arguments

/-- What a command prints. -/
structure Answer where
  exitCode : UInt32
  output : String
  complaint : Option String

/-- The answer to a text in which something is wrong. -/
def Answer.refusal (d : Diagnostic) : Answer :=
  ⟨1, "", some ("Error: " ++ d.fault.code)⟩

/-- The answer to a text. Scanning alone always succeeds, and neither it nor reading
alone computes a value. -/
def evaluate (a : Arguments) (text : String) : Answer :=
  if .debugLexer ∈ a.switches then ⟨0, "", none⟩
  else if .debugParser ∈ a.switches then
    match parse a.scope ({} : Options).maxLevels text with
    | .error d => .refusal d
    | .ok _ => ⟨0, "", none⟩
  else
    match compile { fold := decide (.noFold ∉ a.switches) } a.scope text with
    | .error d => .refusal d
    | .ok program =>
      let listing := if .debugBytecode ∈ a.switches then program.listing else ""
      let value := program.eval (Store.ofList a.contents)
      ⟨0, listing ++ Number.Layout.plain.write value ++ "\n", none⟩

/-- The answer to a command. -/
def answer (args : List String) : Answer :=
  match Arguments.read args with
  | .error complaint => ⟨2, "", some complaint.message⟩
  | .ok a =>
    if .help ∈ a.switches then ⟨0, usage, none⟩
    else
      match a.text with
      | none => ⟨2, "", some Complaint.missingText.message⟩
      | some text => evaluate a text

end Formula.CommandLine
