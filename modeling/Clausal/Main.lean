import Clausal.CommandLine

/-!
The program: it reads files, settings and lines, and prints answers.
-/

namespace Clausal.Terminal

def readFailure : IO.Error → ReadError
  | .noFileOrDirectory .. => .notFound
  | .inappropriateType _ code details =>
    .other (details ++ " (os error " ++ toString code ++ ")")
  | .permissionDenied _ code details =>
    .other (details ++ " (os error " ++ toString code ++ ")")
  | e => .other (toString e)

def readSource (path : String) : IO (Except ReadError String) :=
  try
    let bytes ← IO.FS.readBinFile path
    match String.fromUTF8? bytes with
    | some text => return .ok text
    | none => return .error (.other "stream did not contain valid UTF-8")
  catch e => return .error (readFailure e)

def put (output : Output) : IO Unit := do
  IO.print output.out
  IO.eprint output.err
  (← IO.getStdout).flush

partial def converse (terminal prompting : Bool) (repl : Repl) : IO Unit := do
  if prompting then
    IO.print repl.prompt
    (← IO.getStdout).flush
  let raw ← (← IO.getStdin).getLine
  unless raw.isEmpty do
    let ended := raw.endsWith "\n"
    let line := if ended then raw.toList.dropLast else raw.toList
    match repl.feed terminal (Repl.readLine line ended) with
    | none => return
    | some (output, repl) =>
      put output
      converse terminal prompting repl

/-- A whole run with the given arguments; the answer is the exit code. -/
def run (args : List String) : IO UInt32 := do
  let depth ← IO.getEnv Config.maxDepthVariable
  let terminal ← (← IO.getStderr).isTty
  match CommandLine.configure (fun _ => depth) args with
  | .error e =>
    let answer := CommandLine.complain e
    put answer.output
    return answer.code.toUInt32
  | .ok (config, .repl) =>
    put (.line Repl.banner)
    converse terminal (← (← IO.getStdin).isTty) (.new config)
    return 0
  | .ok (config, command) =>
    let contents ← match command with
      | .onFile _ path => readSource path
      | _ => pure (.error .notFound)
    let answer := command.perform config terminal (fun _ => contents) ""
    put answer.output
    return answer.code.toUInt32

end Clausal.Terminal

def main (args : List String) : IO UInt32 := Clausal.Terminal.run args
