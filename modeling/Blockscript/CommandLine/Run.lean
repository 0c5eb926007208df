import Blockscript.CommandLine.Options
import Blockscript.Session
import Blockscript.Stmt.Outline
import Blockscript.Text.Blank
import Blockscript.Text.Position

/-!
# What the command does

The command as a function: from the arguments, the bytes of the standard input and the contents of
files to the texts that it writes and the code with which it ends. A file is run as one program; at
the prompt every line is a program of its own.

## Main definitions

* `Write`, `Outcome` : what the command writes, and how it ends.
* `FileError` : why a file could not be read.
* `CommandLine.runSource` : one source text with its output and the report of its failure.
* `Prompt`, `Prompt.feed` : one line typed at the prompt.
* `CommandLine.run` : the whole command.
-/

namespace Blockscript

/-- A text written to one of the two outputs. -/
inductive Write where
  | out (text : String)
  | err (text : String)
deriving DecidableEq, Repr

/-- How the command ends. -/
structure Outcome where
  /-- What it writes, in order. -/
  writes : List Write
  /-- The code with which it ends. -/
  exit : UInt8

namespace Outcome

/-- What is written to the standard output. -/
def stdout (outcome : Outcome) : String :=
  String.join (outcome.writes.map fun
    | .out text => text
    | .err _ => "")

/-- What is written to the standard error. -/
def stderr (outcome : Outcome) : String :=
  String.join (outcome.writes.map fun
    | .out _ => ""
    | .err text => text)

end Outcome

/-- Why a file could not be read. -/
inductive FileError where
  | missing
  | isDirectory
  | notText
  | other (text : String)
deriving DecidableEq, Repr

/-- The wording of a file error. -/
def FileError.message : FileError → String
  | .missing => "No such file or directory (os error 2)"
  | .isDirectory => "Is a directory (os error 21)"
  | .notText => "stream did not contain valid UTF-8"
  | .other text => text

namespace CommandLine

/-- The report of a failure: its stage and wording, and for a syntax error the place in the source
text, which is called `name`. -/
def report (name source : String) (failure : Failure) : List Write :=
  let line := "error[" ++ failure.stage ++ "]: " ++ failure.message ++ "\n"
  match failure.span? with
  | none => [.err line]
  | some span =>
    let place := Text.Position.ofOffset source.toList span.start
    [.err line,
      .err ("  --> " ++ name ++ ":" ++ Nat.repr place.line ++ ":" ++ Nat.repr place.column ++ "\n")]

/-- The outline of a source text, if it is wanted and the text is a program. -/
def outlineOf (options : Options) (source : String) : List Write :=
  match options.showOutline, Program.parse source options.limit with
  | true, .ok program => [.err program.outline.text]
  | _, _ => []

/-- Runs a source text, which is called `name`: its result, what is written, and the session after
it. The outline of the program comes first, if it is wanted; then what the program prints, then the
report of a failure. -/
def runSource (options : Options) (session : Session) (name source : String) :
    Except Failure (Option Value) × List Write × Session :=
  let (result, after) := session.run source
  let printed := after.state.output.toList.drop session.state.output.size
  let reported := match result with
    | .ok _ => []
    | .error failure => report name source failure
  (result, outlineOf options source ++ printed.map (Write.out <| · ++ "\n") ++ reported, after)

/-- Runs a file. -/
def runFile (options : Options) (path : String) (content : Except FileError ByteArray) : Outcome :=
  let text := content.bind fun bytes =>
    match String.fromUTF8? bytes with
    | some text => .ok text
    | none => .error .notText
  match text with
  | .error e => ⟨[.err ("error: cannot read " ++ path ++ ": " ++ e.message ++ "\n")], 1⟩
  | .ok source =>
    let (result, writes, _) := runSource options (.initial options.limit) path source
    match result with
    | .ok _ => ⟨writes, 0⟩
    | .error _ => ⟨writes, 1⟩

end CommandLine

/-- An interactive session. -/
structure Prompt where
  /-- The options of the run. -/
  options : Options
  /-- The session in which every line is run. -/
  session : Session

namespace Prompt

/-- An interactive session in which no line has been run. -/
def initial (options : Options) : Prompt :=
  ⟨options, .initial options.limit⟩

/-- What is written first. -/
def greeting : Write :=
  .out (CommandLine.banner ++ "\nType !quit! to exit.\n")

/-- What is written before each line is read. -/
def mark : Write :=
  .out " -> "

/-- Runs a line: what is written, and the session that goes on, unless the line ends it. The value
of a line is shown. A line that is not text is an error that ends the session. -/
def feed (prompt : Prompt) (line : Option String) : List Write × Option Prompt :=
  match line with
  | none => ([.err ("error: " ++ FileError.notText.message ++ "\n")], none)
  | some source =>
    if Text.trim source.toList = "!quit!".toList then ([], none)
    else
      let (result, writes, session) :=
        CommandLine.runSource prompt.options prompt.session "<repl>" source
      let echo := match result with
        | .ok (some value) => [Write.out (value.text ++ "\n")]
        | _ => []
      (writes ++ echo, some { prompt with session })

/-- Runs lines until they end or one of them ends the session. -/
def feedAll (prompt : Prompt) : List (Option String) → List Write
  | [] => [mark]
  | line :: lines =>
    match prompt.feed line with
    | (writes, none) => mark :: writes
    | (writes, some prompt) => mark :: writes ++ prompt.feedAll lines

end Prompt

namespace CommandLine

/-- Cuts bytes after each line feed. -/
def splitLines : List UInt8 → List (List UInt8)
  | [] => []
  | b :: bs =>
    if b = 10 then [b] :: splitLines bs
    else
      match splitLines bs with
      | [] => [[b]]
      | line :: lines => (b :: line) :: lines

/-- The lines of the standard input, each with its line feed. One that is not UTF-8 is no text. -/
def inputLines (stdin : ByteArray) : List (Option String) :=
  (splitLines stdin.toList).map fun line => String.fromUTF8? ⟨line.toArray⟩

/-- What the command does when the arguments are wrong. -/
def refuse (e : UsageError) : Outcome :=
  ⟨[.err ("error: " ++ e.message ++ "\n\n" ++ usage ++ "\n")], 2⟩

/-- The whole command. -/
def run (args : List String) (stdin : ByteArray)
    (readFile : String → Except FileError ByteArray) : Outcome :=
  match parse args with
  | .error e => refuse e
  | .ok (_, .help) => ⟨[.out (usage ++ "\n")], 0⟩
  | .ok (_, .version) => ⟨[.out (banner ++ "\n")], 0⟩
  | .ok (options, .file path) => runFile options path (readFile path)
  | .ok (options, .repl) =>
    ⟨Prompt.greeting :: (Prompt.initial options).feedAll (inputLines stdin), 0⟩

end CommandLine

end Blockscript
