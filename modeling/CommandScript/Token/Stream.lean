import CommandScript.Token.Basic
import CommandScript.Token.Lexeme
/-!
# CommandScript — the tokens of a text

`tokenize` cuts a text into tokens and keeps everything: the texts of the tokens
joined are the text, and the last token is an empty one that stands for its end.

The walk is over the characters of the text. At a character where a token
begins, the lexeme is scanned and the walk goes on one character further,
remembering how many characters the token still covers.
-/

namespace CommandScript

/-- What the next token comes after. -/
structure Surroundings where
  lineBreak : Bool := false
  trivia : Bool := false
  deriving DecidableEq, Repr

namespace Surroundings

/-- The flags a token takes from what it comes after. -/
def flags (s : Surroundings) : TokenFlags := { lineBreakBefore := s.lineBreak, triviaBefore := s.trivia }

/-- What the token after one of the given kind comes after. -/
def past (s : Surroundings) (k : TokenKind) : Surroundings :=
  if k = .newline then ⟨true, true⟩
  else if k.isTrivia then { s with trivia := true }
  else {}

end Surroundings

namespace Token

/-- The tokens of the characters from an offset on, where the first `covered`
characters belong to a token already given. -/
def walk (offset : Nat) (around : Surroundings) : Nat → List Char → List Token
  | _, [] => [{ kind := .endOfInput, text := "", span := .point offset, flags := around.flags }]
  | covered + 1, _ :: rest => walk (offset + 1) around covered rest
  | 0, c :: rest =>
    let l := Lexeme.scan c rest
    { kind := l.kind
      text := String.ofList (c :: l.tail)
      span := ⟨offset, offset + 1 + l.tail.length⟩
      flags := { around.flags with unterminated := l.unterminated, hasEscape := l.hasEscape } } ::
    walk (offset + 1) (around.past l.kind) l.tail.length rest

/-- Every token of a text, trivia and the end included. -/
def tokenize (source : String) : List Token := walk 0 {} 0 source.toList

/-- The issues the tokens of a text give rise to, in the order of the text. -/
def issues (tokens : List Token) : List Issue := tokens.filterMap issue?

/-- The tokens the grammar sees. -/
def visible (tokens : List Token) : List Token := tokens.filter (!·.kind.isHidden)

end Token

end CommandScript
