import CommandScript.Tree.Basic
import CommandScript.Token.Stream
/-!
# CommandScript — the cursor of the parser

The parser moves over the visible tokens of a text. A cursor holds those still
to come, the one read last, and the issues found so far. The token for the end
of the text is held apart: it is what the cursor is at when nothing is left, and
it is never read.

Two rules for issues live here. An issue that begins where the one before it
began is dropped, so one mistake is reported once. That the nesting is too deep
is reported once in a text and never dropped.
-/

namespace CommandScript

/-- Where the parser is, and what it has reported. -/
structure Cursor where
  /-- The visible tokens that are still to be read. -/
  upcoming : List Token
  /-- The token for the end of the text. -/
  ending : Token
  /-- The token read last. -/
  last : Option Token := none
  /-- The issues found so far, the newest first. -/
  found : List Issue := []
  /-- The nesting was reported to be too deep. -/
  deepReported : Bool := false
  /-- The parser found no way on. No text brings it there. -/
  stalled : Bool := false

namespace Cursor

/-- The cursor before the first token of a text. -/
def ofTokens (tokens : List Token) : Cursor :=
  let seen := Token.visible tokens
  { upcoming := seen.filter (·.kind ≠ .endOfInput)
    ending := seen.getLast?.getD { kind := .endOfInput, text := "", span := .point 0 } }

/-- The token the cursor is at. -/
def token (c : Cursor) : Token := c.upcoming.headD c.ending

/-- The token `n` places further on. -/
def ahead (c : Cursor) (n : Nat) : Token := c.upcoming[n]?.getD c.ending

/-- The kind of the token the cursor is at. -/
def kind (c : Cursor) : TokenKind := c.token.kind

/-- The cursor is at a token of the given kind. -/
def sees (c : Cursor) (k : TokenKind) : Bool := c.kind == k

/-- The cursor is at a token of the given kind. -/
def seesAny (c : Cursor) (ks : List TokenKind) : Bool := ks.contains c.kind

/-- Nothing is left to read. -/
def atEnd (c : Cursor) : Bool := c.sees .endOfInput

/-- The offset of the token the cursor is at. -/
def offset (c : Cursor) : Nat := c.token.span.start

/-- The token the cursor is at begins a line. -/
def onNewLine (c : Cursor) : Bool := c.token.flags.lineBreakBefore

/-- Where the token read last ended. -/
def lastStop (c : Cursor) : Nat := (c.last.map (·.span.stop)).getD 0

/-- The span from an offset to the end of the token read last, so that a node
never claims text that was not read for it. -/
def spanFrom (c : Cursor) (start : Nat) : Span := ⟨start, max start c.lastStop⟩

/-- The issues in the order in which they were found. -/
def issues (c : Cursor) : List Issue := c.found.reverse

end Cursor

/-- A step of the parser. -/
abbrev Parse := StateM Cursor

namespace Parse

/-- Read the token the cursor is at; at the end of the text nothing moves. -/
def bump : Parse Token := modifyGet fun c =>
  match c.upcoming with
  | [] => (c.ending, c)
  | t :: rest => (t, { c with upcoming := rest, last := some t })

/-- Read tokens as long as they satisfy a test. -/
def bumpWhile (p : Token → Bool) : Parse (List Token) := modifyGet fun c =>
  let taken := c.upcoming.takeWhile p
  (taken, { c with upcoming := c.upcoming.dropWhile p, last := taken.getLast?.or c.last })

/-- Read a token of the given kind, if the cursor is at one. -/
def eat (k : TokenKind) : Parse (Option Token) := do
  if (← get).sees k then some <$> bump else pure none

/-- The span from an offset to the end of the token read last. -/
def spanFrom (start : Nat) : Parse Span := return (← get).spanFrom start

/-- Report an issue, unless the one before it begins at the same place. -/
def report (i : Issue) : Parse Unit := modify fun c =>
  match c.found with
  | [] => { c with found := [i] }
  | before :: _ => if before.span.start = i.span.start then c else { c with found := i :: c.found }

/-- Report an issue about the token the cursor is at. -/
def reportHere (k : Issue.Kind) (message : String) : Parse Unit := do
  report (.raise k (← get).token.span message)

/-- Report that the nesting is too deep, the first time. -/
def reportTooDeep : Parse Unit := modify fun c =>
  if c.deepReported then c
  else { c with deepReported := true, found := .of .tooDeep c.token.span :: c.found }

/-- Note that the parser found no way on. -/
def stall : Parse Unit := modify fun c => { c with stalled := true }

/-- What is said of a token that should be here: what it is, what it would
close, and what is here instead. -/
def missingMessage (k : TokenKind) (opener : Option Token) (c : Cursor) : String :=
  "Expected `" ++ k.display ++ "`" ++
    (match opener with
      | some t => " to close `" ++ t.text ++ "` at " ++ toString t.span.start
      | none => "") ++
    if c.atEnd then " but reached the end of input" else " but found `" ++ c.token.text ++ "`"

/-- Read a token that has to be here, or report that it is missing. -/
def expect (k : TokenKind) (opener : Option Token := none) : Parse (Option Token) := do
  match ← eat k with
  | some t => pure (some t)
  | none =>
    let c ← get
    reportHere .expectedToken (missingMessage k opener c)
    pure none

/-- The rounds of a loop have to move the cursor: note where the round begins,
and stall if that is where the round before began. -/
def progressed (before : Option Nat) : Parse Bool := do
  let c ← get
  match before with
  | some offset => if offset < c.offset then pure true else do stall; pure false
  | none => pure true

end Parse

end CommandScript
