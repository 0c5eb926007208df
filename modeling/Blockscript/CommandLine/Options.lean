import Blockscript.Decimal.Literal
import Blockscript.Stmt.Parser

/-!
# Command-line arguments

The arguments say what to do and with which options. They are read from left to right: the first
one that asks for help or for the version decides, whatever follows it, and the first one that is
wrong is the error.

## Main definitions

* `Options`, `Task`, `UsageError` : what arguments can say, and what can be wrong with them.
* `CommandLine.depth?` : the value of `--max-depth`.
* `CommandLine.parse` : what a list of arguments says.
* `CommandLine.usage` : the help text.
-/

namespace Blockscript

/-- The options of a run. -/
structure Options where
  /-- The permitted nesting of expressions and blocks. -/
  limit : Nat := Program.defaultLimit
  /-- Whether the outline of each program is shown before it runs. -/
  showOutline : Bool := false
deriving DecidableEq, Repr

/-- What the command line asks for. -/
inductive Task where
  /-- Run the lines that are typed in. -/
  | repl
  /-- Run a file. -/
  | file (path : String)
  /-- Show the version. -/
  | version
  /-- Show the help text. -/
  | help
deriving DecidableEq, Repr

/-- What is wrong with the arguments. -/
inductive UsageError where
  | unknownOption (option : String)
  | missingValue (option : String)
  | invalidValue (option value : String)
  | unexpectedArgument (arg : String)
deriving DecidableEq, Repr

/-- The wording of an error in the arguments. -/
def UsageError.message : UsageError → String
  | .unknownOption option => "unknown option `" ++ option ++ "`"
  | .missingValue option => "option `" ++ option ++ "` requires a value"
  | .invalidValue option value => "invalid value `" ++ value ++ "` for `" ++ option ++ "`"
  | .unexpectedArgument arg => "unexpected argument `" ++ arg ++ "`"

namespace CommandLine

/-- The value of `--max-depth`: digits, perhaps after a plus sign, for a number from 1 up to what
64 bits can hold. -/
def depth? (value : String) : Option Nat :=
  let digits := match value.toList with
    | '+' :: rest => rest
    | cs => cs
  let n := Decimal.ofDigits digits
  if digits ≠ [] ∧ digits.all Char.isDigit ∧ 0 < n ∧ n < Nat.pow 2 64 then some n else none

/-- Whether an argument has the form of an option. A minus sign alone does not. -/
def isOption (arg : String) : Bool :=
  match arg.toList with
  | '-' :: _ :: _ => true
  | _ => false

/-- What arguments say after those that led to `options` and `file`. -/
def parseFrom (options : Options) (file : Option String) :
    List String → Except UsageError (Options × Task)
  | [] =>
    match file with
    | none => .ok (options, .repl)
    | some path => .ok (options, .file path)
  | arg :: rest =>
    if arg = "-h" ∨ arg = "--help" then .ok (options, .help)
    else if arg = "-V" ∨ arg = "--version" then .ok (options, .version)
    else if arg = "--dump-ast" then parseFrom { options with showOutline := true } file rest
    else if arg = "--max-depth" then
      match rest with
      | [] => .error (.missingValue arg)
      | value :: rest =>
        match depth? value with
        | none => .error (.invalidValue arg value)
        | some limit => parseFrom { options with limit } file rest
    else if isOption arg then .error (.unknownOption arg)
    else
      match file with
      | none => parseFrom options (some arg) rest
      | some _ => .error (.unexpectedArgument arg)

/-- What a list of arguments says. -/
def parse (args : List String) : Except UsageError (Options × Task) :=
  parseFrom {} none args

/-- The help text. -/
def usage : String :=
  "Usage: rsl [OPTIONS] [FILE]\n\n" ++
  "Runs FILE, or starts an interactive session when no FILE is given.\n\n" ++
  "Options:\n" ++
  "    --dump-ast         Print the parsed program to stderr before running it\n" ++
  "    --max-depth <N>    Maximum nesting of expressions and block invocations\n" ++
  "    -V, --version      Print version information\n" ++
  "    -h, --help         Print this message"

/-- The name and the version of the program. -/
def banner : String :=
  "rsl 0.1.0"

end CommandLine

end Blockscript
