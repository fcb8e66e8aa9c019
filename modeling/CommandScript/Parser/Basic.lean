import CommandScript.Parser.Grammar
import CommandScript.Limit
/-!
# CommandScript — reading a script

`parse` reads any text. What it returns are the tokens, the issues in the order
of the text, and a tree unless the text holds nothing but trivia.

The grammar's rules ask for one another through a budget that falls by one at
each level. Between two levels that read nothing there are at most two more that
read nothing either, so a budget of four per token is never used up.
-/

namespace CommandScript

namespace Grammar

/-- The rules of the grammar, closed: what a rule asks for is read by a rule. -/
def read (limit : Nat) : Nat → (n : Nonterminal) → Parse n.Result
  | 0, .operand .. | 0, .expression .. | 0, .value .. => do Parse.stall; pure none
  | 0, .block _ _ start => do Parse.stall; return .mk [] none (← Parse.spanFrom start)
  | budget + 1, n => rule limit (read limit budget) n

/-- A budget that no text of so many tokens uses up. -/
def budgetFor (tokens : Nat) : Nat := 4 * (tokens + 2)

/-- Read a nonterminal at the cursor. -/
def readHere (limit : Nat) (n : Nonterminal) : Parse n.Result := do
  read limit (budgetFor (← get).upcoming.length) n

/-- Read a statement at the cursor. -/
def statementHere (limit : Nat) : Parse (Option Statement) := do
  statement limit (read limit (budgetFor (← get).upcoming.length)) 0

/-- Read the whole text as one block. -/
def source (limit : Nat) : Parse Block := do
  let c ← get
  let block ← readHere limit (.block 0 [.endOfInput] 0)
  return .mk block.body block.last ⟨0, c.ending.span.stop⟩

end Grammar

/-- What reading a text gives. -/
structure Parsed where
  /-- The issues of lexemes and grammar, in the order of the text. -/
  issues : List Issue
  /-- The tree; none if the text holds nothing but trivia. -/
  block : Option Block
  /-- Every token of the text. -/
  tokens : List Token

namespace Parsed

/-- Something is wrong with the text. -/
def hasErrors (p : Parsed) : Bool := Issue.anyError p.issues

end Parsed

/-- Read a text, nesting no deeper than the limit. -/
def parse (text : String) (limit : Nat := Limit.nesting) : Parsed :=
  let tokens := Token.tokenize text
  let cursor := Cursor.ofTokens tokens
  if cursor.upcoming.isEmpty then ⟨Issue.sort (Token.issues tokens), none, tokens⟩
  else
    let (block, after) := Grammar.source limit cursor
    ⟨Issue.sort (Token.issues tokens ++ after.issues), some block, tokens⟩

end CommandScript
