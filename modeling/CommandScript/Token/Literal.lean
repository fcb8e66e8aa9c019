import CommandScript.Token.Basic
import CommandScript.Number.Basic
/-!
# CommandScript — values of literal tokens

What a string token and a number token denote. Both depend on the text of the
token alone.
-/

namespace CommandScript

/-- What a character denotes behind a backslash. -/
def escapeMeaning : Char → Char
  | 'n' => '\n'
  | 't' => '\t'
  | 'r' => '\r'
  | '0' => Char.ofNat 0
  | c => c

/-- A text with its escapes resolved; a backslash at the very end stands for
itself. -/
def unescape : List Char → List Char
  | '\\' :: c :: rest => escapeMeaning c :: unescape rest
  | c :: rest => c :: unescape rest
  | [] => []

namespace Token

/-- The text between the quotes of a string token. -/
def stringBody (t : Token) : List Char :=
  let body := t.text.toList.drop 1
  if t.flags.unterminated then body else body.dropLast

/-- The text a token denotes: a string what is between its quotes, with escapes
resolved, and a bare word itself. -/
def stringValue (t : Token) : String :=
  if t.kind ≠ .string then t.text
  else String.ofList (if t.flags.hasEscape then unescape t.stringBody else t.stringBody)

/-- The number a token denotes; none for a whole number of too many digits. -/
def numberValue? (t : Token) : Option Number :=
  let cs := t.text.toList
  if cs.contains '.' then
    some (.float (Decimal.readFloat (cs.takeWhile (· ≠ '.')) ((cs.dropWhile (· ≠ '.')).drop 1)))
  else if cs.length ≤ Decimal.digitLimit then some (.int (Decimal.natOfDigits cs))
  else none

end Token

end CommandScript
