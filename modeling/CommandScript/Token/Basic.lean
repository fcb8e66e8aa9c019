import CommandScript.Token.Kind
import CommandScript.Text.Span
import CommandScript.Text.Quoted
import CommandScript.Text.Case
import CommandScript.Issue
/-!
# CommandScript — tokens

A token is a lexeme with its place in the text and what stands around it: the
grammar does not see line breaks and blanks, it sees tokens that come after one.
-/

namespace CommandScript

/-- What is worth knowing about a token besides its kind and text. -/
structure TokenFlags where
  /-- A line break stands between the last visible token and this one. -/
  lineBreakBefore : Bool := false
  /-- Blanks, a comment or a line break stand right before this token. -/
  triviaBefore : Bool := false
  /-- A string without its closing quote. -/
  unterminated : Bool := false
  /-- A string with a backslash in it. -/
  hasEscape : Bool := false
  deriving DecidableEq, Repr, Inhabited

namespace TokenFlags

/-- The flags that are set, each with its bit and its name in dumps. -/
def set (f : TokenFlags) : List (Nat × String) :=
  (if f.lineBreakBefore then [(1, "PRECEDING_LINE_BREAK")] else []) ++
  (if f.triviaBefore then [(2, "PRECEDING_TRIVIA")] else []) ++
  (if f.unterminated then [(4, "UNTERMINATED")] else []) ++
  (if f.hasEscape then [(8, "HAS_ESCAPE")] else [])

/-- The flags as the sum of their bits. -/
def bits (f : TokenFlags) : Nat := f.set.foldl (fun sum e => sum + e.1) 0

/-- The written form of the flags in dumps. -/
def display (f : TokenFlags) : String :=
  let names := if f.set.isEmpty then "NONE" else "|".intercalate (f.set.map (·.2))
  "<TokenFlags." ++ names ++ ": " ++ toString f.bits ++ ">"

end TokenFlags

/-- A lexeme at its place in a text. -/
structure Token where
  kind : TokenKind
  text : String
  span : Span
  flags : TokenFlags := {}
  deriving DecidableEq, Repr, Inhabited

namespace Token

/-- The issue a token gives rise to by itself: characters that start no token,
or a string without its end. -/
def issue? (t : Token) : Option Issue :=
  if t.kind = .unknown then
    some (.raise .invalidCharacter t.span ("Unrecognized characters " ++ Text.quoted t.text))
  else if t.kind = .string ∧ t.flags.unterminated then some (.of .unterminatedString t.span)
  else none

/-- One line of a dump: number, kind, place, flags, text. -/
def dumpLine (index : Nat) (t : Token) : String :=
  let number := toString index
  let label := t.kind.label
  String.ofList (List.replicate (3 - number.length) '0') ++ number ++ " " ++ label ++
    String.ofList (List.replicate (22 - label.length) ' ') ++ " range=" ++ t.span.pair ++
    " flags=" ++ t.flags.display ++ " text=" ++ Text.quoted t.text ++ "\n"

/-- Tokens line by line, with the issues after them if they are asked for. -/
def dump (tokens : List Token) (issues : Option (List Issue)) : String :=
  String.join (tokens.mapIdx dumpLine) ++
    match issues with
    | none => ""
    | some issues => "\nDiagnostics:\n" ++ String.join (issues.map fun i =>
        "- " ++ Text.upper i.severity.name ++ " " ++ i.code ++ " range=" ++ i.span.pair ++
          " message=" ++ i.message ++ "\n")

end Token

end CommandScript
