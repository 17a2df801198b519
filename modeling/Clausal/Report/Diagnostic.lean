import Clausal.Span

/-!
Diagnostics: what is reported when a source cannot be read or run. Work stops at the first error,
so a diagnostic is always an error and points to one place at most.
-/

namespace Clausal.Report

/-- One code for each thing that can be wrong; the first digit tells the stage. -/
inductive Code
  | unexpectedCharacter
  | unterminatedString
  | malformedNumber
  | expectedToken
  | unexpectedToken
  | unexpectedEnd
  | missingReturnType
  | expectedClause
  | invalidNumber
  | undefinedVariable
  | notCallable
  | arityMismatch
  | invalidBinary
  | invalidUnary
  | nonBoolCondition
  | noMatchingClause
  | stackOverflow
  deriving DecidableEq

namespace Code

def text : Code → String
  | unexpectedCharacter => "E0001"
  | unterminatedString => "E0002"
  | malformedNumber => "E0003"
  | expectedToken => "E1001"
  | unexpectedToken => "E1002"
  | unexpectedEnd => "E1003"
  | missingReturnType => "E1004"
  | expectedClause => "E1005"
  | invalidNumber => "E1006"
  | undefinedVariable => "E6001"
  | notCallable => "E6002"
  | arityMismatch => "E6003"
  | invalidBinary => "E6004"
  | invalidUnary => "E6005"
  | nonBoolCondition => "E6006"
  | noMatchingClause => "E6007"
  | stackOverflow => "E6031"

end Code

structure Label where
  span : Span
  message : String
  deriving DecidableEq

structure Diagnostic where
  code : Code
  message : String
  label : Option Label
  notes : List String
  suggestions : List String
  deriving DecidableEq

namespace Diagnostic

/-- Points to a place; a later label replaces an earlier one. -/
def withLabel (d : Diagnostic) (span : Span) (message : String) : Diagnostic :=
  { d with label := some ⟨span, message⟩ }

def withNote (d : Diagnostic) (note : String) : Diagnostic :=
  { d with notes := d.notes ++ [note] }

end Diagnostic

end Clausal.Report
