import Blockscript.CommandLine.Run

/-!
# The command

The outermost layer: it fetches what `CommandLine` asks for and writes what it answers.

## Main definitions

* `main` : the command.
-/

namespace Blockscript.CommandLine

/-- Writes texts to the two outputs. -/
def perform (writes : List Write) : IO Unit := do
  let stdout ← IO.getStdout
  let stderr ← IO.getStderr
  for w in writes do
    match w with
    | .out text => stdout.putStr text
    | .err text => stderr.putStr text
  stdout.flush

/-- The contents of a file. -/
def readFile (path : String) : IO (Except FileError ByteArray) := do
  try
    return .ok (← IO.FS.readBinFile path)
  catch e =>
    match e with
    | .noFileOrDirectory .. => return .error .missing
    | .inappropriateType .. => return .error .isDirectory
    | e => return .error (.other e.toString)

/-- The bytes of a line with its line feed, after those of `line`. There are none at the end of the
input. -/
partial def readLine (stdin : IO.FS.Stream) (line : ByteArray) : IO ByteArray := do
  let byte ← stdin.read 1
  let line := line ++ byte
  if byte.isEmpty || byte.data == #[10] then return line else readLine stdin line

/-- Reads and runs lines until they end or one of them ends the session. -/
partial def converse (prompt : Prompt) : IO Unit := do
  perform [Prompt.mark]
  let line ← readLine (← IO.getStdin) .empty
  unless line.isEmpty do
    let (writes, next) := prompt.feed (String.fromUTF8? line)
    perform writes
    if let some prompt := next then converse prompt

end Blockscript.CommandLine

open Blockscript in
/-- The command. -/
def main (args : List String) : IO UInt32 := do
  match CommandLine.parse args with
  | .ok (options, .repl) =>
    CommandLine.perform [Prompt.greeting]
    CommandLine.converse (.initial options)
    return 0
  | .ok (options, .file path) =>
    let outcome := CommandLine.runFile options path (← CommandLine.readFile path)
    CommandLine.perform outcome.writes
    return outcome.exit.toUInt32
  | _ =>
    let outcome := CommandLine.run args .empty fun _ => .error .missing
    CommandLine.perform outcome.writes
    return outcome.exit.toUInt32
