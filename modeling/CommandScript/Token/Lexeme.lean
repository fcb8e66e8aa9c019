import CommandScript.Token.Kind
import CommandScript.Text.Letter
/-!
# CommandScript — one lexeme

`Lexeme.scan` says which lexeme begins at a character. It looks at the
characters from there on and at nothing else, neither at the offset nor at what
went before, so a lexeme is determined by its own text and by what stops it.

A lexeme is given by its kind and the characters it takes after its first one;
that it takes a first one at all is what makes the reading of a text end.
-/

namespace CommandScript

/-- The two characters that end a line. -/
def isLineBreak (c : Char) : Bool := c == '\n' || c == '\r'

/-- The two characters that separate tokens on a line. -/
def isBlank (c : Char) : Bool := c == ' ' || c == '\t'

/-- The two characters that open a string. -/
def isQuote (c : Char) : Bool := c == '"' || c == '\''

/-- Digits of number literals; the digits of other scripts are none. -/
def isDecimalDigit (c : Char) : Bool := '0' ≤ c && c ≤ '9'

/-- The character begins an identifier. -/
def startsIdentifier (c : Char) : Bool := Text.isLetter c || c == '_'

/-- The character continues an identifier; a minus does. -/
def continuesIdentifier (c : Char) : Bool := Text.isLetterOrNumeral c || c == '_' || c == '-'

/-- A piece of text that makes one token. -/
structure Lexeme where
  kind : TokenKind
  /-- What the lexeme takes after its first character. -/
  tail : List Char
  unterminated : Bool := false
  hasEscape : Bool := false
  deriving DecidableEq, Repr

namespace Lexeme

/-- The lexeme with characters put before its tail. -/
def after (cs : List Char) (l : Lexeme) : Lexeme := { l with tail := cs ++ l.tail }

/-- The rest of a string behind its opening quote. A backslash takes the
character behind it along, but no line break: that ends an open string. -/
def stringTail (quote : Char) : List Char → Lexeme
  | [] => ⟨.string, [], true, false⟩
  | c :: rest =>
    if c = quote then ⟨.string, [c], false, false⟩
    else if isLineBreak c then ⟨.string, [], true, false⟩
    else if c = '\\' then
      match rest with
      | [] => ⟨.string, [c], true, true⟩
      | d :: rest =>
        if isLineBreak d then ⟨.string, [c], true, true⟩
        else { (stringTail quote rest).after [c, d] with hasEscape := true }
    else (stringTail quote rest).after [c]

/-- The rest of a number behind its first digit: digits, and one point among
them that a digit follows. -/
def numberTail (pointSeen : Bool) : List Char → List Char
  | [] => []
  | c :: rest =>
    if isDecimalDigit c then c :: numberTail pointSeen rest
    else if c = '.' ∧ ¬ pointSeen ∧ (rest.head?.map isDecimalDigit).getD false then
      c :: numberTail true rest
    else []

/-- Two characters that make one sign. -/
def pairAt (c : Char) (rest : List Char) : Option TokenKind :=
  rest.head?.bind (TokenKind.ofPair c)

/-- Some lexeme other than unknown characters begins with `c`. -/
def startsAt (c : Char) (rest : List Char) : Bool :=
  isBlank c || isLineBreak c || isQuote c || isDecimalDigit c || startsIdentifier c ||
    (TokenKind.ofSign c).isSome || (pairAt c rest).isSome

/-- Characters up to the next one that begins a lexeme. -/
def unknownTail : List Char → List Char
  | [] => []
  | c :: rest => if startsAt c rest then [] else c :: unknownTail rest

/-- The lexeme that begins with `c` and may go on into `rest`. -/
def scan (c : Char) (rest : List Char) : Lexeme :=
  if isLineBreak c then
    ⟨.newline, if c = '\r' ∧ rest.head? = some '\n' then ['\n'] else [], false, false⟩
  else if isBlank c then ⟨.whitespace, rest.takeWhile isBlank, false, false⟩
  else if c = '-' ∧ rest.head? = some '-' then
    ⟨.comment, rest.takeWhile (!isLineBreak ·), false, false⟩
  else if isQuote c then stringTail c rest
  else if isDecimalDigit c then ⟨.number, numberTail false rest, false, false⟩
  else if startsIdentifier c then
    let tail := rest.takeWhile continuesIdentifier
    ⟨.ofWord (String.ofList (c :: tail)), tail, false, false⟩
  else match pairAt c rest with
    | some kind => ⟨kind, rest.take 1, false, false⟩
    | none =>
      match TokenKind.ofSign c with
      | some kind => ⟨kind, [], false, false⟩
      | none => ⟨.unknown, unknownTail rest, false, false⟩

end Lexeme

/-- The text is an identifier that names can be registered under. -/
def isIdentifier : List Char → Bool
  | [] => false
  | c :: rest =>
    startsIdentifier c && rest.all continuesIdentifier &&
      TokenKind.ofWord (String.ofList (c :: rest)) == .identifier

end CommandScript
