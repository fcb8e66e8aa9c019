import CommandScript.Text.Span
/-!
# CommandScript — issues

What the reader of a script reports about it: a code, a message, the span it is
about, and how bad it is. The issues the library raises itself are listed in
`Issue.Kind`; a host may hand in issues with codes of its own, so an issue
carries its code as text.

`Issue.sort` puts issues in the order of the text and keeps the order of
emission between issues that compare equal.
-/

namespace CommandScript

/-- How bad an issue is. -/
inductive Severity where
  | error
  | warning
  deriving DecidableEq, Repr

namespace Severity

def name : Severity → String
  | .error => "error"
  | .warning => "warning"

end Severity

/-- One thing to report about a text. -/
structure Issue where
  code : String
  message : String
  span : Span
  severity : Severity := .error
  hint : Option String := none
  category : Option String := none
  deriving DecidableEq, Repr

namespace Issue

/-- The issues that reading and checking a script can raise. -/
inductive Kind where
  | invalidCharacter
  | unterminatedString
  | expectedToken
  | expectedExpression
  | unexpectedToken
  | missingSeparator
  | unreachableStatement
  | invalidAssignment
  | tooDeep
  | unknownCommand
  | argumentCount
  | typeMismatch
  | unknownVariable
  | analysisTooDeep
  deriving DecidableEq, Repr

namespace Kind

/-- The code an issue of this kind is known by. -/
def code : Kind → String
  | .invalidCharacter => "LEXER_INVALID_CHARACTER"
  | .unterminatedString => "LEXER_UNTERMINATED_STRING"
  | .expectedToken => "PARSER_EXPECTED_TOKEN"
  | .expectedExpression => "PARSER_EXPECTED_EXPRESSION"
  | .unexpectedToken => "PARSER_UNEXPECTED_TOKEN"
  | .missingSeparator => "PARSER_MISSING_SEPARATOR"
  | .unreachableStatement => "PARSER_UNREACHABLE_STATEMENT"
  | .invalidAssignment => "PARSER_INVALID_ASSIGNMENT"
  | .tooDeep => "PARSER_TOO_DEEP"
  | .unknownCommand => "ANALYSIS_UNKNOWN_COMMAND"
  | .argumentCount => "ANALYSIS_ARGUMENT_COUNT"
  | .typeMismatch => "ANALYSIS_TYPE_MISMATCH"
  | .unknownVariable => "ANALYSIS_UNKNOWN_VARIABLE"
  | .analysisTooDeep => "ANALYSIS_TOO_DEEP"

/-- The message used where nothing more precise is known. -/
def message : Kind → String
  | .invalidCharacter => "Unrecognized characters."
  | .unterminatedString => "Unterminated string literal."
  | .expectedToken => "Expected token"
  | .expectedExpression => "Expected an expression"
  | .unexpectedToken => "Unexpected token"
  | .missingSeparator => "Expected `,` between list items"
  | .unreachableStatement =>
    "Statements cannot follow `break`, `continue` or `return` in the same block"
  | .invalidAssignment => "Cannot assign to a computed variable root"
  | .tooDeep => "Expression nesting is too deep"
  | .unknownCommand => "Unknown command"
  | .argumentCount => "Wrong number of arguments"
  | .typeMismatch => "Argument does not match the declared type"
  | .unknownVariable => "Unknown variable"
  | .analysisTooDeep => "Input is nested too deeply to analyze"

/-- What the writer of the script may do about it. -/
def hint : Kind → Option String
  | .unterminatedString => some "Close the string with the same quote it was opened with."
  | .invalidAssignment => some "Assign to `$name`, `name` or a suffix such as `$table.field`."
  | .unknownVariable => some "Assign the variable before reading it."
  | _ => none

/-- A variable nobody assigned reads as nil and nesting past what can be checked
may still run, so these two only warn. -/
def severity : Kind → Severity
  | .unknownVariable | .analysisTooDeep => .warning
  | _ => .error

/-- The stage that raises the kind. -/
def category : Kind → String
  | .invalidCharacter | .unterminatedString => "lexer"
  | .unknownCommand | .argumentCount | .typeMismatch | .unknownVariable | .analysisTooDeep =>
    "analysis"
  | _ => "parser"

end Kind

/-- An issue of a kind with a message of its own. -/
def raise (k : Kind) (span : Span) (message : String) : Issue :=
  { code := k.code, message, span, severity := k.severity, hint := k.hint,
    category := some k.category }

/-- An issue of a kind with the message of the kind. -/
def of (k : Kind) (span : Span) : Issue := raise k span k.message

/-- Some issue is an error. -/
def anyError (issues : List Issue) : Bool := issues.any (·.severity == .error)

/-- The order of the text: start, end, code, message. -/
def before (a b : Issue) : Bool :=
  if a.span.start != b.span.start then a.span.start < b.span.start
  else if a.span.stop != b.span.stop then a.span.stop < b.span.stop
  else if a.code != b.code then decide (a.code < b.code)
  else decide (a.message ≤ b.message)

/-- Issues in the order of the text; equal ones keep their order. -/
def sort (issues : List Issue) : List Issue := issues.mergeSort before

/-- The message with the place it is about. -/
def format (i : Issue) : String := i.message ++ " " ++ i.span.halfOpen

end Issue

end CommandScript
