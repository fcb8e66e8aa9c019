/-!
# CommandScript — kinds of token

Every lexeme of a script is of one of these kinds. The kinds are numbered in
bands, so that keywords and binary operators are each a range of numbers: `and`
and `or` are spelled like keywords and stand among the operators.
-/

namespace CommandScript

/-- What a token is. -/
inductive TokenKind where
  | endOfInput
  | whitespace
  | comment
  | newline
  | semicolon
  | identifier
  | string
  | number
  | unknown
  | equalEqual
  | notEqual
  | tildeEqual
  | greaterThan
  | lessThan
  | greaterThanOrEqual
  | lessThanOrEqual
  | star
  | slash
  | minus
  | plus
  | slashSlash
  | caret
  | percent
  | dotDot
  | kwAnd
  | kwOr
  | bang
  | ampersand
  | equal
  | leftParen
  | rightParen
  | dollar
  | comma
  | leftBrace
  | rightBrace
  | leftBracket
  | rightBracket
  | pipe
  | dot
  | kwTrue
  | kwFalse
  | kwNil
  | kwIf
  | kwElse
  | kwElseif
  | kwWhile
  | kwFor
  | kwReturn
  | kwBreak
  | kwContinue
  deriving DecidableEq, Repr, Inhabited

namespace TokenKind

/-- Every kind, in the order of their numbers. -/
def all : List TokenKind :=
  [.endOfInput, .whitespace, .comment, .newline, .semicolon, .identifier, .string, .number,
   .unknown, .equalEqual, .notEqual, .tildeEqual, .greaterThan, .lessThan, .greaterThanOrEqual,
   .lessThanOrEqual, .star, .slash, .minus, .plus, .slashSlash, .caret, .percent, .dotDot,
   .kwAnd, .kwOr, .bang, .ampersand, .equal, .leftParen, .rightParen, .dollar, .comma,
   .leftBrace, .rightBrace, .leftBracket, .rightBracket, .pipe, .dot, .kwTrue, .kwFalse, .kwNil,
   .kwIf, .kwElse, .kwElseif, .kwWhile, .kwFor, .kwReturn, .kwBreak, .kwContinue]

/-- The number of a kind. -/
def code : TokenKind → Nat
  | .endOfInput => 1
  | .whitespace => 10
  | .comment => 11
  | .newline => 15
  | .semicolon => 16
  | .identifier => 20
  | .string => 21
  | .number => 22
  | .unknown => 23
  | .equalEqual => 30
  | .notEqual => 31
  | .tildeEqual => 32
  | .greaterThan => 33
  | .lessThan => 34
  | .greaterThanOrEqual => 35
  | .lessThanOrEqual => 36
  | .star => 37
  | .slash => 38
  | .minus => 39
  | .plus => 40
  | .slashSlash => 41
  | .caret => 42
  | .percent => 43
  | .dotDot => 44
  | .kwAnd => 45
  | .kwOr => 46
  | .bang => 47
  | .ampersand => 50
  | .equal => 51
  | .leftParen => 52
  | .rightParen => 53
  | .dollar => 54
  | .comma => 55
  | .leftBrace => 56
  | .rightBrace => 57
  | .leftBracket => 58
  | .rightBracket => 59
  | .pipe => 60
  | .dot => 61
  | .kwTrue => 70
  | .kwFalse => 71
  | .kwNil => 72
  | .kwIf => 73
  | .kwElse => 74
  | .kwElseif => 75
  | .kwWhile => 76
  | .kwFor => 77
  | .kwReturn => 78
  | .kwBreak => 79
  | .kwContinue => 80

/-- The name of a kind in dumps. -/
def label : TokenKind → String
  | .endOfInput => "EOF"
  | .whitespace => "WHITESPACE"
  | .comment => "COMMENT"
  | .newline => "NEWLINE"
  | .semicolon => "SEMICOLON"
  | .identifier => "IDENTIFIER"
  | .string => "STRING"
  | .number => "NUMBER"
  | .unknown => "ERROR"
  | .equalEqual => "EQUAL_EQUAL"
  | .notEqual => "NOT_EQUAL"
  | .tildeEqual => "TILDE_EQUAL"
  | .greaterThan => "GREATER_THAN"
  | .lessThan => "LESS_THAN"
  | .greaterThanOrEqual => "GREATER_THAN_OR_EQUAL"
  | .lessThanOrEqual => "LESS_THAN_OR_EQUAL"
  | .star => "STAR"
  | .slash => "SLASH"
  | .minus => "MINUS"
  | .plus => "PLUS"
  | .slashSlash => "SLASH_SLASH"
  | .caret => "CARET"
  | .percent => "PERCENT"
  | .dotDot => "DOT_DOT"
  | .kwAnd => "AND"
  | .kwOr => "OR"
  | .bang => "BANG"
  | .ampersand => "AMP"
  | .equal => "EQUAL"
  | .leftParen => "LPAREN"
  | .rightParen => "RPAREN"
  | .dollar => "DOLLAR"
  | .comma => "COMMA"
  | .leftBrace => "LBRACE"
  | .rightBrace => "RBRACE"
  | .leftBracket => "LBRACKET"
  | .rightBracket => "RBRACKET"
  | .pipe => "PIPE"
  | .dot => "DOT"
  | .kwTrue => "TRUE"
  | .kwFalse => "FALSE"
  | .kwNil => "NIL"
  | .kwIf => "IF"
  | .kwElse => "ELSE"
  | .kwElseif => "ELSEIF"
  | .kwWhile => "WHILE"
  | .kwFor => "FOR"
  | .kwReturn => "RETURN"
  | .kwBreak => "BREAK"
  | .kwContinue => "CONTINUE"

/-- How a kind is called in messages: its spelling, where it has one. -/
def display : TokenKind → String
  | .endOfInput => "end of input"
  | .whitespace => "whitespace"
  | .comment => "comment"
  | .newline => "line break"
  | .semicolon => ";"
  | .identifier => "identifier"
  | .string => "string"
  | .number => "number"
  | .unknown => "invalid characters"
  | .equalEqual => "=="
  | .notEqual => "!="
  | .tildeEqual => "~="
  | .greaterThan => ">"
  | .lessThan => "<"
  | .greaterThanOrEqual => ">="
  | .lessThanOrEqual => "<="
  | .star => "*"
  | .slash => "/"
  | .minus => "-"
  | .plus => "+"
  | .slashSlash => "//"
  | .caret => "^"
  | .percent => "%"
  | .dotDot => ".."
  | .kwAnd => "and"
  | .kwOr => "or"
  | .bang => "!"
  | .ampersand => "&"
  | .equal => "="
  | .leftParen => "("
  | .rightParen => ")"
  | .dollar => "$"
  | .comma => ","
  | .leftBrace => "\x7b"
  | .rightBrace => "\x7d"
  | .leftBracket => "["
  | .rightBracket => "]"
  | .pipe => "|"
  | .dot => "."
  | .kwTrue => "true"
  | .kwFalse => "false"
  | .kwNil => "nil"
  | .kwIf => "if"
  | .kwElse => "else"
  | .kwElseif => "elseif"
  | .kwWhile => "while"
  | .kwFor => "for"
  | .kwReturn => "return"
  | .kwBreak => "break"
  | .kwContinue => "continue"

/-- Blanks and comments separate tokens and mean nothing themselves. -/
def isTrivia (k : TokenKind) : Bool := k == .whitespace || k == .comment

/-- Trivia and line breaks: what the grammar does not see. -/
def isHidden (k : TokenKind) : Bool := k.isTrivia || k == .newline

/-- The kind lies in the band of keywords. -/
def isKeyword (k : TokenKind) : Bool := kwTrue.code ≤ k.code && k.code ≤ kwContinue.code

/-- The kind lies in the band of binary operators. -/
def isBinaryOperator (k : TokenKind) : Bool := equalEqual.code ≤ k.code && k.code ≤ kwOr.code

/-- The kind with a given name in dumps. -/
def ofLabel? (s : String) : Option TokenKind := all.find? (·.label == s)

/-- The words that are no identifiers. -/
def keywords : List (String × TokenKind) :=
  [("true", .kwTrue), ("false", .kwFalse), ("nil", .kwNil), ("if", .kwIf), ("else", .kwElse),
   ("elseif", .kwElseif), ("while", .kwWhile), ("for", .kwFor), ("return", .kwReturn),
   ("break", .kwBreak), ("continue", .kwContinue), ("and", .kwAnd), ("or", .kwOr)]

/-- The kind of a word. -/
def ofWord (word : String) : TokenKind := (keywords.lookup word).getD .identifier

/-- The operators and signs of two characters. -/
def ofPair : Char → Char → Option TokenKind
  | '=', '=' => some .equalEqual
  | '!', '=' => some .notEqual
  | '~', '=' => some .tildeEqual
  | '>', '=' => some .greaterThanOrEqual
  | '<', '=' => some .lessThanOrEqual
  | '/', '/' => some .slashSlash
  | '.', '.' => some .dotDot
  | _, _ => none

/-- The operators and signs of one character. -/
def ofSign : Char → Option TokenKind
  | '*' => some .star
  | '+' => some .plus
  | '-' => some .minus
  | '^' => some .caret
  | '%' => some .percent
  | '/' => some .slash
  | '>' => some .greaterThan
  | '<' => some .lessThan
  | '!' => some .bang
  | '&' => some .ampersand
  | '=' => some .equal
  | '(' => some .leftParen
  | ')' => some .rightParen
  | '$' => some .dollar
  | ',' => some .comma
  | '\x7b' => some .leftBrace
  | '\x7d' => some .rightBrace
  | '[' => some .leftBracket
  | ']' => some .rightBracket
  | '|' => some .pipe
  | '.' => some .dot
  | ';' => some .semicolon
  | _ => none

theorem mem_all (k : TokenKind) : k ∈ all := by cases k <;> decide

end TokenKind

end CommandScript
