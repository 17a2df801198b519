import Clausal.Session

/-!
The interactive loop, line by line. Lines are gathered until they can be run together. A line that
starts with a colon is a command, unless lines were gathered before it. The loop takes lines as they
are handed to it; how a line is edited before that is left to the layer around it.
-/

namespace Clausal

structure Output where
  out : String
  err : String

namespace Output

def nothing : Output := ⟨"", ""⟩

def line (s : String) : Output := ⟨s ++ "\n", ""⟩

def append (a b : Output) : Output := ⟨a.out ++ b.out, a.err ++ b.err⟩

end Output

/-- A failure against the source that it points into. -/
def Failure.render (e : Failure) (path source : String) (color : Report.ColorMode)
    (terminal : Bool) : String :=
  (((Report.Renderer.ofMode color terminal).withSource source).withPath path).render e.diagnostic

structure Repl where
  session : Session
  /-- Lines that wait for more; empty when there are none. -/
  buffer : String

namespace Repl

def version : String := "0.1.0"

def banner : String := "TrudWave " ++ version ++ " (type :help for commands)"

def sourceName : String := "<repl>"

def helpLines : List String :=
  ["Commands:",
    "  :help, :h    Show this help",
    "  :vars, :v    List global bindings",
    "  :reset, :r   Drop all bindings",
    "  :quit, :q    Exit",
    "",
    "Statements end with ';'. Input continues on the next line until",
    "braces balance and the statement is terminated."]

inductive Command
  | help
  | quit
  | vars
  | reset
  | unknown (text : String)

def Command.ofText (s : String) : Command :=
  if s = ":help" ∨ s = ":h" then help
  else if s = ":quit" ∨ s = ":q" ∨ s = ":exit" then quit
  else if s = ":vars" ∨ s = ":v" then vars
  else if s = ":reset" ∨ s = ":r" then reset
  else unknown s

def new (config : Config) : Repl := ⟨.new config, ""⟩

def lines (ss : List String) : Output := ⟨String.join (ss.map (· ++ "\n")), ""⟩

def varLines (s : Session) : List String :=
  match s.vars with
  | [] => ["(no bindings)"]
  | vars => vars.map fun (name, value) => name ++ " = " ++ value

def prompt (r : Repl) : String := if r.buffer.isEmpty then "trud> " else "....> "

/-- Carries out a command; none when the loop ends. -/
def command (r : Repl) : Command → Option (Output × Repl)
  | .help => some (lines helpLines, r)
  | .quit => none
  | .vars => some (lines (varLines r.session), r)
  | .reset => some (.line "environment reset", { r with session := r.session.reset })
  | .unknown s => some (.line ("unknown command " ++ s ++ "; type :help for commands"), r)

/-- Runs what was gathered. Blank input is passed over, and a null value is not shown. -/
def runInput (terminal : Bool) (s : Session) (input : String) : Output × Session :=
  if (Text.dropBlank input.toList).isEmpty then (.nothing, s)
  else
    match s.eval input with
    | (.ok v, s) => (if v.isNull then .nothing else .line v.text, s)
    | (.error e, s) =>
      let report := e.render sourceName input s.config.color terminal
      let loss := if e.isFatal then "session reset after fatal error\n" else ""
      (⟨"", report ++ loss⟩, s)

def isCommand (line : String) : Bool :=
  match Text.dropBlank line.toList with
  | ':' :: _ => true
  | _ => false

/-- Takes one line; none when the loop ends. -/
def feed (terminal : Bool) (r : Repl) (line : String) : Option (Output × Repl) :=
  if r.buffer.isEmpty && isCommand line then r.command (.ofText (Text.trimBlank line))
  else
    let input := r.buffer ++ line ++ "\n"
    if isInputComplete input then
      let (output, session) := runInput terminal r.session input
      some (output, ⟨session, ""⟩)
    else some (.nothing, { r with buffer := input })

/-- Takes lines until there are no more or the loop ends. -/
def feedAll (terminal : Bool) (r : Repl) : List String → Output
  | [] => .nothing
  | line :: rest =>
    match r.feed terminal line with
    | none => .nothing
    | some (output, r) => output.append (feedAll terminal r rest)

end Repl

end Clausal
