import Clausal.CommandLine.Editing
import Clausal.CommandLine.Folder
import Clausal.CommandLine.Names
import Clausal.Tree.Outline

/-!
The command line. Flags may stand anywhere; of the other arguments the first is the command and
the second the path of a file. A path that ends like a source file may stand without a command.
-/

namespace Clausal

structure Answer where
  code : Nat
  output : Output

namespace Answer

def success (out : String) : Answer := ⟨0, ⟨out, ""⟩⟩

def failure (err : String) : Answer := ⟨1, ⟨"", err⟩⟩

end Answer

namespace CommandLine

def usage : String :=
  "TrudWave

Usage: trud <command> [options]

Commands:
  run <file.tw>     Evaluate a program and print its final value
  lex <file.tw>     Tokenize and display tokens
  parse <file.tw>   Parse and display the AST
  repl              Start an interactive session
  help              Show this help message
  version           Show version information

Options:
  --max-depth=<n>   Recursion limit (default 10000). 0 removes the limit:
                    the stack then grows on the heap, so runaway recursion
                    runs until the process is out of memory
  --color=<mode>    Diagnostic colors: auto, always, never

Environment:
  TRUD_MAX_DEPTH    Default for --max-depth
  TRUD_LOG          Log filter, e.g. trud_eval=debug (falls back to RUST_LOG)
  TRUD_LOG_TREE=1   Render logs as an indented call tree

Examples:
  trud run fib.tw
  trud fib.tw --max-depth=50000
  trud repl
"

inductive FileCommand
  | run
  | lex
  | parse

def FileCommand.name : FileCommand → String
  | run => "run"
  | lex => "lex"
  | parse => "parse"

inductive Command
  | help
  | version
  | repl
  | onFile (command : FileCommand) (path : String)
  | withoutFile (command : FileCommand)
  | unknown (name : String)

def fileName? (path : String) : Option String :=
  match ((pathSegments path).filter fun s => s ≠ "" ∧ s ≠ ".").getLast? with
  | some name => if name = ".." then none else some name
  | none => none

/-- The part of a name after its last dot, unless nothing stands before that dot. -/
def extension? (name : String) : Option (List Char) :=
  match (name.toList.reverse.dropWhile (· ≠ '.')).drop 1 with
  | [] => none
  | _ => some (name.toList.reverse.takeWhile (· ≠ '.')).reverse

/-- Whether a path names a source file, in small or capital letters. -/
def isSourcePath (path : String) : Bool :=
  ((fileName? path).bind extension?).any fun ext => ext.map Char.toLower == ['t', 'w']

def Command.ofArguments : List String → Command
  | [] => help
  | name :: rest =>
    let withFile (c : FileCommand) : Command :=
      match rest with
      | path :: _ => onFile c path
      | [] => withoutFile c
    if name = "run" then withFile .run
    else if name = "lex" then withFile .lex
    else if name = "parse" then withFile .parse
    else if name = "repl" then repl
    else if name = "help" ∨ name = "--help" ∨ name = "-h" then help
    else if name = "version" ∨ name = "--version" ∨ name = "-V" then version
    else if isSourcePath name then onFile .run name
    else unknown name

/-- Takes the flags out of the arguments and applies them in order. -/
def applyFlags (config : Config) : List String → Except ConfigError (Config × List String)
  | [] => .ok (config, [])
  | arg :: rest => do
    match ← config.withFlag arg with
    | some config => applyFlags config rest
    | none =>
      let (config, others) ← applyFlags config rest
      return (config, arg :: others)

def configure (lookup : String → Option String) (args : List String) :
    Except ConfigError (Config × Command) := do
  let config ← Config.ofEnvironment lookup
  let (config, others) ← applyFlags config args
  return (config, .ofArguments others)

def complain (e : ConfigError) : Answer := .failure ("error: " ++ e.message ++ "\n")

def cannotRead (path : String) (e : ReadError) : Answer :=
  .failure ("error: cannot read '" ++ path ++ "': " ++ e.text ++ "\n")

def FileCommand.shown (c : FileCommand) (config : Config) (source : String) :
    Except Failure String :=
  match c with
  | run => (runSource source config.maxDepth).map fun v =>
      if v.isNull then "" else v.text ++ "\n"
  | lex => (lexSource source).map fun ts => String.join (ts.map fun t => t.describe ++ "\n")
  | parse => (parseSource source).map fun p => p.outline.render ++ "\n"

def FileCommand.perform (c : FileCommand) (config : Config) (terminal : Bool) (path : String)
    (contents : Except ReadError String) : Answer :=
  match contents with
  | .error e => cannotRead path e
  | .ok source =>
    match c.shown config source with
    | .ok text => .success text
    | .error e => .failure (e.render path source config.color terminal)

/-- Carries out a command on files that are read by path and an input that is given as a whole. -/
def Command.perform (config : Config) (terminal : Bool)
    (read : String → Except ReadError String) (input : String) : Command → Answer
  | help => .success usage
  | version => .success ("TrudWave " ++ Repl.version ++ "\n")
  | repl => ⟨0, Repl.run config terminal input⟩
  | onFile c path => c.perform config terminal path (read path)
  | withoutFile c => .failure ("Usage: trud " ++ c.name ++ " <file.tw>\n")
  | unknown name => ⟨1, usage, "Unknown command: " ++ name ++ "\n\n"⟩

/-- A whole run in a folder, with the outputs going to no terminal. -/
def run (folder : Folder) (lookup : String → Option String) (input : String)
    (args : List String) : Answer :=
  match configure lookup args with
  | .error e => complain e
  | .ok (config, command) => command.perform config false folder.read input

end CommandLine

end Clausal
