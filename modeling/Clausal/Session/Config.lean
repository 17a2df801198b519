import Clausal.Evaluation.Interpreter
import Clausal.Report.Rendering
import Clausal.Text.Blank
import Clausal.Token.Literal

/-!
Settings: the recursion limit and the use of colors. The limit has a default in the environment,
and flags go before that.
-/

namespace Clausal

structure Config where
  /-- The recursion limit; none when absent. -/
  maxDepth : Option Nat
  color : Report.ColorMode

inductive ConfigError
  | invalidMaxDepth (value : String)
  | invalidColor (value : String)
  deriving DecidableEq

def ConfigError.message : ConfigError → String
  | invalidMaxDepth value =>
    "invalid max depth '" ++ value ++ "': expected a non-negative integer"
  | invalidColor value =>
    "invalid color mode '" ++ value ++ "': expected auto, always, or never"

namespace Config

def maxDepthVariable : String := "TRUD_MAX_DEPTH"

def default : Config := ⟨some Interpreter.defaultLimit, .auto⟩

def maxLimit : Nat := UInt64.size - 1

/-- Decimal digits, after a plus sign if there is one. -/
def natural? (s : String) : Option Nat :=
  let digits := match s.toList with
    | '+' :: cs => cs
    | cs => cs
  if digits.isEmpty || !digits.all Lexeme.isDigit then none
  else
    let n := Literal.digitsValue digits
    if n ≤ maxLimit then some n else none

/-- A limit as it is set; zero removes it. -/
def parseMaxDepth (value : String) : Except ConfigError (Option Nat) :=
  match natural? (Text.trimBlank value) with
  | some 0 => .ok none
  | some n => .ok (some n)
  | none => .error (.invalidMaxDepth value)

def ofEnvironment (lookup : String → Option String) : Except ConfigError Config :=
  match lookup maxDepthVariable with
  | none => .ok default
  | some value => (parseMaxDepth value).map fun limit => { default with maxDepth := limit }

/-- The rest of a text that starts with the given one. -/
def afterStart? (start s : String) : Option String :=
  if start.toList.isPrefixOf s.toList then some (String.ofList (s.toList.drop start.length))
  else none

/-- The settings after a flag; none for an argument that is no flag. -/
def withFlag (c : Config) (arg : String) : Except ConfigError (Option Config) :=
  match afterStart? "--max-depth=" arg with
  | some value => (parseMaxDepth value).map fun limit => some { c with maxDepth := limit }
  | none =>
    match afterStart? "--color=" arg with
    | none => .ok none
    | some value =>
      match Report.ColorMode.ofFlag? value with
      | some mode => .ok (some { c with color := mode })
      | none => .error (.invalidColor value)

def interpreter (c : Config) : Interpreter := .new c.maxDepth

end Config

end Clausal
