import Clausal.Report.Diagnostic
import Clausal.Report.Lines

/-!
Diagnostics as text. With the source at hand the place of an error is shown as a line and a
column, followed by the line itself with the offending part underlined; without it only the
offsets are shown. Colors are terminal escapes around the parts that carry them.
-/

namespace Clausal.Report

inductive ColorMode
  | auto
  | always
  | never
  deriving DecidableEq

namespace ColorMode

/-- Whether colors are used; it depends on the terminal in one mode only. -/
def colored (mode : ColorMode) (terminal : Bool) : Bool :=
  match mode with
  | auto => terminal
  | always => true
  | never => false

def ofFlag? (s : String) : Option ColorMode :=
  if s = "auto" then some auto
  else if s = "always" then some always
  else if s = "never" then some never
  else none

end ColorMode

inductive Paint
  | error
  | help
  | bold

def Paint.opening : Paint → String
  | error => "\x1b[1;31m"
  | help => "\x1b[1;32m"
  | bold => "\x1b[1m"

def Paint.on (p : Paint) (colored : Bool) (text : String) : String :=
  if colored then p.opening ++ text ++ "\x1b[0m" else text

structure Source where
  path : Option String
  lines : Lines

structure Renderer where
  colored : Bool
  source : Option Source

namespace Renderer

def ofMode (mode : ColorMode) (terminal : Bool) : Renderer := ⟨mode.colored terminal, none⟩

/-- Shows a source; the path shown before stays. -/
def withSource (r : Renderer) (text : String) : Renderer :=
  { r with source := some ⟨r.source.bind (·.path), .ofSource text⟩ }

/-- Shows a path, if there is a source it can belong to. -/
def withPath (r : Renderer) (path : String) : Renderer :=
  { r with source := r.source.map fun s => { s with path := some path } }

def blanks (n : Nat) : String := String.ofList (List.replicate n ' ')

/-- How many characters of its first line a span is underlined with: what it covers of that line,
and one at least. -/
def underline (lines : Lines) (span : Span) (column : Nat) (lineText : List Char) : Nat :=
  let (stopLine, stopColumn) := lines.position span.stop
  if stopLine = lines.lineAt span.start then
    if column < stopColumn then stopColumn - column else 1
  else max (lineText.length + 1 - column) 1

def snippet (colored : Bool) (source : Source) (label : Label) : String :=
  let (line, column) := source.lines.position label.span.start
  let lineText := (source.lines.lineText? line).getD []
  let place := toString line ++ ":" ++ toString column
  let location := match source.path with
    | some path => path ++ ":" ++ place
    | none => place
  let margin := blanks (toString line).length
  let carets :=
    String.ofList (List.replicate (underline source.lines label.span column lineText) '^')
  let said := if label.message.isEmpty then "" else " " ++ Paint.error.on colored label.message
  margin ++ "--> " ++ location ++ "\n" ++
    margin ++ " |\n" ++
    toString line ++ " | " ++ String.ofList lineText ++ "\n" ++
    margin ++ " | " ++ blanks (column - 1) ++ Paint.error.on colored carets ++ said ++ "\n"

/-- The place of an error whose source is not at hand. -/
def bare (colored : Bool) (label : Label) : String :=
  "  --> " ++ label.span.text ++ ": " ++ Paint.error.on colored label.message ++ "\n"

def remark (colored : Bool) (paint : Paint) (heading text : String) : String :=
  "  = " ++ paint.on colored heading ++ ": " ++ text ++ "\n"

def render (r : Renderer) (d : Diagnostic) : String :=
  let heading := Paint.error.on r.colored "error" ++
    Paint.bold.on r.colored ("[" ++ d.code.text ++ "]") ++ ": " ++ d.message ++ "\n"
  let place := match d.label, r.source with
    | none, _ => ""
    | some label, some source => snippet r.colored source label
    | some label, none => bare r.colored label
  let notes := String.join (d.notes.map (remark r.colored .bold "note"))
  let suggestions := String.join (d.suggestions.map (remark r.colored .help "help"))
  heading ++ place ++ notes ++ suggestions ++ "\n"

end Renderer

end Clausal.Report
