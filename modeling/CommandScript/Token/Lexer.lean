import CommandScript.Token.Stream
/-!
# CommandScript — the lexer

`tokenize` says which tokens a text has. The lexer is how they are come by: it reads
one token after another, and what a token gives rise to is reported when the token is
read. Between two tokens it knows what it has still to read and where that begins, what
the next token comes after, and what it has reported.
-/

namespace CommandScript

/-- The token that a lexeme makes at an offset. -/
def Lexeme.token (l : Lexeme) (first : Char) (offset : Nat) (around : Surroundings) : Token :=
  { kind := l.kind
    text := String.ofList (first :: l.tail)
    span := ⟨offset, offset + 1 + l.tail.length⟩
    flags := { around.flags with unterminated := l.unterminated, hasEscape := l.hasEscape } }

/-- The token for the end of a text. -/
def Token.atEnd (offset : Nat) (around : Surroundings) : Token :=
  { kind := .endOfInput, text := "", span := .point offset, flags := around.flags }

/-- The lexer between two tokens. -/
structure Lexer where
  /-- The characters that are still to be read. -/
  rest : List Char
  /-- The offset of the first of them. -/
  offset : Nat := 0
  around : Surroundings := {}
  /-- The issues reported so far, the newest first. -/
  reported : List Issue := []

namespace Lexer

/-- The lexer before the first token of a text. -/
def start (source : String) : Lexer := { rest := source.toList }

/-- The next token, and the lexer behind it. At the end of the text the lexer stays
where it is. -/
def next (x : Lexer) : Token × Lexer :=
  match x.rest with
  | [] => (.atEnd x.offset x.around, x)
  | c :: rest =>
    let l := Lexeme.scan c rest
    let t := l.token c x.offset x.around
    (t, { rest := rest.drop l.tail.length
          offset := t.span.stop
          around := x.around.past l.kind
          reported := t.issue?.toList ++ x.reported })

/-- Each token but the one for the end takes a character. -/
theorem length_next_lt {x : Lexer} (h : x.next.1.kind ≠ .endOfInput) :
    x.next.2.rest.length < x.rest.length := by
  unfold next at h ⊢
  cases hrest : x.rest with
  | nil => simp [hrest, Token.atEnd] at h
  | cons c rest =>
    simp only [List.length_drop, List.length_cons]
    omega

/-- The tokens up to the end of the text, and the lexer behind them. -/
def run (x : Lexer) : List Token × Lexer :=
  let step := x.next
  if _ : step.1.kind = .endOfInput then ([step.1], step.2)
  else
    let behind := step.2.run
    (step.1 :: behind.1, behind.2)
termination_by x.rest.length
decreasing_by exact length_next_lt ‹_›

/-- What the lexer has reported, in the order in which it did. -/
def issues (x : Lexer) : List Issue := x.reported.reverse

/-- The tokens of a text, and what is reported while they are read. -/
def lex (source : String) : List Token × List Issue :=
  let behind := (start source).run
  (behind.1, behind.2.issues)

end Lexer

end CommandScript
