import CommandScript.Parser.Recovery
import CommandScript.Parser.Listing
import CommandScript.Parser.Precedence
/-!
# CommandScript — the grammar

The rules of the grammar. Where a rule needs an operand, an expression or a block
inside itself it asks for one through `self`, so no rule here calls another one in
a circle; `CommandScript.Parser.Basic` closes the circle.

Depth counts how many operands, braces and operators of one chain lie around the
cursor. Past the limit, the rest of the text is skipped.
-/

namespace CommandScript

/-- What a rule can ask for inside itself. -/
inductive Nonterminal where
  /-- One operand; among the arguments of a command a bare name is a word. -/
  | operand (depth : Nat) (argument : Bool)
  /-- Operands joined by operators of at least a precedence. -/
  | expression (depth precedence : Nat)
  /-- An expression, or a command behind `&`. -/
  | value (depth : Nat)
  /-- Statements up to one of the given kinds of token. -/
  | block (depth : Nat) (stop : List TokenKind) (start : Nat)

/-- What is read for a nonterminal. -/
@[reducible] def Nonterminal.Result : Nonterminal → Type
  | .operand .. | .expression .. | .value .. => Option Expression
  | .block .. => Block

namespace Grammar

/-- Kinds that begin an operand. -/
def operandStart : List TokenKind :=
  [.kwNil, .kwTrue, .kwFalse, .number, .string, .identifier, .dollar, .leftParen, .leftBracket,
   .leftBrace, .pipe, .minus, .bang, .unknown]

/-- Kinds that begin an expression or a command behind `&`. -/
def expressionStart : List TokenKind := operandStart ++ [.ampersand]

/-- Kinds that begin a statement which leaves its block. -/
def lastStart : List TokenKind := [.kwBreak, .kwContinue, .kwReturn]

/-- Kinds that end a statement. -/
def statementEnd : List TokenKind := [.semicolon, .rightBrace, .endOfInput]

/-- A statement does not go on here: the line is over, or the token ends it. -/
def endsStatement (c : Cursor) : Bool := c.onNewLine || c.seesAny statementEnd

/-- A binary operator on the same line. -/
def seesOperator (c : Cursor) : Bool := c.kind.precedence?.isSome && !c.onNewLine

/-- A minus with a blank before it and none behind it: `print -1` passes -1 and
`x - 1` subtracts. -/
def seesNegative (c : Cursor) : Bool :=
  c.sees .minus && c.token.flags.triviaBefore && !(c.ahead 1).flags.triviaBefore

/-- The arguments of a command are over here. -/
def endsArguments (c : Cursor) : Bool :=
  if endsStatement c then true
  else if c.sees .minus then !seesNegative c
  else c.kind.precedence?.isSome

/-- The bracket that the tokens begin with is closed and an equals sign follows. -/
def closesBeforeEquals : Nat → List Token → Bool
  | _, [] => false
  | depth, t :: rest =>
    if t.kind = .leftBracket then closesBeforeEquals (depth + 1) rest
    else if t.kind = .rightBracket then
      if depth = 1 then rest.head?.any (·.kind == .equal) else closesBeforeEquals (depth - 1) rest
    else closesBeforeEquals depth rest

/-- The statement read last ends with a brace, so another one may follow on its
line. -/
def endsWithBrace (c : Cursor) (s : Statement) : Bool :=
  s.isCompound && (c.last.bind (·.text.toList.getLast?)) == some '\x7d'

/-- The fields of a bracketed list of parameters. -/
def parameters : Listing Token where
  element := Parse.eat .identifier
  starts c := c.sees .identifier
  ends c := c.sees .pipe
  what := "parameter name"

section Rules

variable (limit : Nat) (self : (n : Nonterminal) → Parse n.Result)

/-- An expression or a command behind `&` that has to be here. -/
def required (depth : Nat) (message : String) : Parse (Option Expression) := do
  match ← self (.value depth) with
  | some e => pure (some e)
  | none =>
    Parse.reportHere .expectedExpression message
    pure none

/-! ## Variables and commands -/

/-- Where a variable chain begins: a name, or a dollar with a name or with
parentheses right behind it. -/
def varRoot (depth : Nat) : Parse VarRoot := do
  if (← get).sees .identifier then return .bare (← Parse.bump)
  let dollar ← Parse.bump
  let start := dollar.span.start
  let c ← get
  if c.sees .identifier && !c.token.flags.triviaBefore then
    let name ← Parse.bump
    return .named dollar (some name) (← Parse.spanFrom start)
  if c.sees .leftParen && !c.token.flags.triviaBefore then
    let left ← Parse.bump
    let inner ← required self depth "Expected an expression naming the variable"
    let right ← Parse.expect .rightParen (some left)
    return .computed dollar ⟨left, right⟩ inner (← Parse.spanFrom start)
  Parse.reportHere .expectedToken "Expected a variable name after `$`"
  return .named dollar none (← Parse.spanFrom start)

/-- A step of a variable chain; the cursor is at its period. -/
def varSuffix (depth : Nat) : Parse VarSuffix := do
  let period ← Parse.bump
  let start := period.span.start
  let c ← get
  if c.sees .identifier then
    let name ← Parse.bump
    return .field period (some name) (← Parse.spanFrom start)
  if c.sees .leftBracket then
    let left ← Parse.bump
    let inner ← required self depth "Expected an index expression"
    let right ← Parse.expect .rightBracket (some left)
    return .index period ⟨left, right⟩ inner (← Parse.spanFrom start)
  Parse.reportHere .expectedToken "Expected a field name or `[` after `.`"
  return .field period none (← Parse.spanFrom start)

/-- Steps of a variable chain, in at most the given number of rounds. -/
def varSuffixes (depth : Nat) : Nat → Parse (List VarSuffix)
  | 0 => do Parse.stall; pure []
  | n + 1 => do
    if (← get).sees .dot then return (← varSuffix self depth) :: (← varSuffixes depth n)
    else pure []

/-- A variable chain. -/
def var (depth : Nat) : Parse Var := do
  let c ← get
  let root ← varRoot self depth
  let suffixes ← varSuffixes self depth ((← get).upcoming.length + 1)
  return .mk root suffixes (← Parse.spanFrom c.offset)

/-- The arguments of a command, in at most the given number of rounds. -/
def arguments (depth : Nat) (before : Option Nat) : Nat → Parse (List Expression)
  | 0 => do Parse.stall; pure []
  | n + 1 => do
    let c ← get
    if endsArguments c then return []
    if !(← Parse.progressed before) then return []
    match ← self (.operand depth true) with
    | none => pure []
    | some e => return e :: (← arguments depth (some c.offset) n)

/-- A command whose callee was read. -/
def command (depth : Nat) (callee : Var) : Parse Command := do
  let args ← arguments self depth none ((← get).upcoming.length + 1)
  return .mk callee args (← Parse.spanFrom callee.span.start)

/-- A command behind `&`; the cursor is at the `&`. -/
def call (depth : Nat) : Parse Call := do
  let ampersand ← Parse.bump
  let inner ← if (← get).seesAny [.identifier, .dollar] then
      some <$> (do command self depth (← var self depth))
    else do
      Parse.reportHere .expectedToken "Expected a command name after `&`"
      pure none
  return .mk ampersand inner (← Parse.spanFrom ampersand.span.start)

/-! ## Expressions -/

/-- A chain of operators behind an operand, in at most the given number of
rounds. Every operator of a chain nests what stands before it one level deeper,
and so counts against the limit like brackets do. -/
def operators (depth precedence chain : Nat) (left : Expression) : Nat → Parse Expression
  | 0 => do Parse.stall; pure left
  | n + 1 => do
    let c ← get
    if !seesOperator c then return left
    match c.kind.precedence? with
    | none => return left
    | some p =>
      if p < precedence then return left
      let operator ← Parse.bump
      let right ← self (.expression (depth + chain + 1) (operator.kind.rightPrecedence p))
      if right.isNone then
        Parse.reportHere .expectedExpression ("Expected an expression after `" ++ operator.text ++ "`")
      let joined := Expression.binary left operator right (← Parse.spanFrom left.span.start)
      if right.isNone then return joined
      operators depth precedence (chain + 1) joined n

/-- A chain of operators behind an operand. -/
def operatorChain (depth precedence : Nat) (left : Expression) : Parse Expression := do
  operators self depth precedence 0 left ((← get).upcoming.length + 1)

/-- Operands joined by operators. -/
def expression (depth precedence : Nat) : Parse (Option Expression) := do
  match ← self (.operand depth false) with
  | none => pure none
  | some left => some <$> operatorChain self depth precedence left

/-- An expression, or a command behind `&`. -/
def value (depth : Nat) : Parse (Option Expression) := do
  if (← get).sees .ampersand then return some (.call (← call self depth))
  else self (.expression depth 1)

/-- A block between braces; the cursor is at the opening one. -/
def braced (depth : Nat) : Parse Braced := do
  let left ← Parse.bump
  let start := left.span.stop
  if limit < depth then
    let rest ← Parse.tooDeep
    return .mk ⟨left, none⟩
      (.mk (rest.map Statement.skipped).toList none (← Parse.spanFrom start))
  let block ← self (.block (depth + 1) [.rightBrace] start)
  let right ← Parse.expect .rightBrace (some left)
  return .mk ⟨left, right⟩ block

/-- A field of a table: a name and `=`, a key in brackets and `=`, or a value. -/
def tableField (depth : Nat) : Parse (Option TableField) := do
  let c ← get
  let start := c.offset
  if c.sees .identifier && (c.ahead 1).kind == .equal then
    let name ← Parse.bump
    let equals ← Parse.bump
    let value ← required self depth ("Expected a value for `" ++ name.text ++ "`")
    return some (.named name equals value (← Parse.spanFrom start))
  if c.sees .leftBracket && closesBeforeEquals 0 c.upcoming then
    let left ← Parse.bump
    let key ← required self depth "Expected a key expression"
    let right ← Parse.expect .rightBracket (some left)
    let equals ← Parse.expect .equal
    let value ← if equals.isSome then required self depth "Expected a value" else pure none
    return some (.keyed ⟨left, right⟩ key equals value (← Parse.spanFrom start))
  match ← self (.value depth) with
  | none => pure none
  | some e => return some (.positional e (← Parse.spanFrom start))

/-- The items of a vector. -/
def items (depth : Nat) : Listing Expression where
  element := self (.value depth)
  starts c := c.seesAny expressionStart
  ends c := c.sees .rightBracket

/-- The fields of a table. -/
def fields (depth : Nat) : Listing TableField where
  element := tableField self depth
  starts c := c.seesAny expressionStart
  ends c := c.sees .rightBrace
  what := "table field"

/-- The values behind `return`, all on its line. -/
def returned (depth : Nat) : Listing Expression where
  element := self (.value depth)
  starts c := c.seesAny expressionStart && !c.onNewLine
  ends c := endsStatement c

/-- A minus or `!` and its operand. -/
def unary (depth : Nat) : Parse Expression := do
  let operator ← Parse.bump
  let value ← self (.operand depth false)
  if value.isNone then
    Parse.reportHere .expectedExpression ("Expected an expression after `" ++ operator.text ++ "`")
  return .unary operator value (← Parse.spanFrom operator.span.start)

/-- Parentheses around an expression, or around nothing. -/
def group (depth : Nat) : Parse Expression := do
  let left ← Parse.bump
  let inner ← if (← get).sees .rightParen then pure none
    else required self depth "Expected an expression or command"
  let right ← Parse.expect .rightParen (some left)
  return .group ⟨left, right⟩ inner (← Parse.spanFrom left.span.start)

/-- A vector; the cursor is at its bracket. -/
def vector (depth : Nat) : Parse Expression := do
  let left ← Parse.bump
  let contents ← (items self depth).read
  let right ← Parse.expect .rightBracket (some left)
  return .vector ⟨left, right⟩ contents (← Parse.spanFrom left.span.start)

/-- A table; the cursor is at its brace. -/
def table (depth : Nat) : Parse Expression := do
  let left ← Parse.bump
  let contents ← (fields self depth).read
  let right ← Parse.expect .rightBrace (some left)
  return .table ⟨left, right⟩ contents (← Parse.spanFrom left.span.start)

/-- A lambda: parameters between bars, and a block if a brace follows. -/
def lambda (depth : Nat) : Parse Expression := do
  let left ← Parse.bump
  let names ← parameters.read
  let right ← Parse.expect .pipe (some left)
  let block ← if (← get).sees .leftBrace then some <$> braced limit self depth else pure none
  return .lambda (.mk ⟨left, right⟩ names block (← Parse.spanFrom left.span.start))

/-- One operand. Past the limit, the rest of the text is skipped instead. -/
def operand (depth : Nat) (argument : Bool) : Parse (Option Expression) := do
  if limit < depth then return (← Parse.tooDeep).map .skipped
  let c ← get
  match c.kind with
  | .kwNil => return some (.nil (← Parse.bump))
  | .kwTrue | .kwFalse => return some (.boolean (← Parse.bump))
  | .number => return some (.number (← Parse.bump))
  | .string => return some (.string (← Parse.bump))
  | .identifier =>
    if argument && (c.ahead 1).kind != .dot then return some (.string (← Parse.bump))
    else return some (.var (← var self (depth + 1)))
  | .dollar => return some (.var (← var self (depth + 1)))
  | .leftParen => some <$> group self (depth + 1)
  | .leftBracket => some <$> vector self (depth + 1)
  | .leftBrace => some <$> table self (depth + 1)
  | .pipe => some <$> lambda limit self (depth + 1)
  | .minus | .bang => some <$> unary self (depth + 1)
  | .unknown => return some (.skipped (.one (← Parse.bump)))
  | _ => pure none

/-! ## Statements and blocks -/

/-- A block that has to be here, behind the given keyword or behind a condition. -/
def requiredBlock (depth : Nat) (behind : Option Token := none) : Parse (Option Braced) := do
  if (← get).sees .leftBrace then return some (← braced limit self depth)
  let message := match behind with
    | some t => "Expected `\x7b` after `" ++ t.text ++ "`"
    | none => "Expected `\x7b` to start a block"
  Parse.reportHere .expectedToken message
  pure none

/-- A condition between parentheses. -/
def condition (depth : Nat) : Parse (Option Condition) := do
  if !(← get).sees .leftParen then
    Parse.reportHere .expectedToken "Expected `(` to start the condition"
    return none
  let left ← Parse.bump
  let inner ← required self depth "Expected a condition"
  let right ← Parse.expect .rightParen (some left)
  return some (.mk ⟨left, right⟩ inner)

/-- A condition and the block behind it. -/
def branch (depth : Nat) : Parse Branch := do
  let c ← get
  let condition ← condition self depth
  let block ← requiredBlock limit self depth
  return .mk condition block (← Parse.spanFrom c.offset)

/-- Branches behind `elseif`, in at most the given number of rounds. -/
def elseIfs (depth : Nat) : Nat → Parse (List ElseIf)
  | 0 => do Parse.stall; pure []
  | n + 1 => do
    if !(← get).sees .kwElseif then return []
    let token ← Parse.bump
    let branch ← branch limit self depth
    let first : ElseIf := .mk token branch (← Parse.spanFrom token.span.start)
    return first :: (← elseIfs depth n)

/-- The block behind `else`, if there is one. -/
def otherwise (depth : Nat) : Parse (Option Otherwise) := do
  if !(← get).sees .kwElse then return none
  let token ← Parse.bump
  let block ← requiredBlock limit self depth (some token)
  return some (.mk token block (← Parse.spanFrom token.span.start))

/-- `if` with its branches. -/
def conditional (depth : Nat) : Parse Statement := do
  let token ← Parse.bump
  let first ← branch limit self depth
  let others ← elseIfs limit self depth ((← get).upcoming.length + 1)
  let last ← otherwise limit self depth
  return .conditional token first others last (← Parse.spanFrom token.span.start)

/-- `while` with its condition and block. -/
def whileLoop (depth : Nat) : Parse Statement := do
  let token ← Parse.bump
  let condition ← condition self depth
  let block ← requiredBlock limit self depth
  return .whileLoop token condition block (← Parse.spanFrom token.span.start)

/-- `for` with what it runs over and the lambda it calls. -/
def forLoop (depth : Nat) : Parse Statement := do
  let token ← Parse.bump
  let subject ← condition self depth
  let c ← get
  let body ← if c.seesAny expressionStart && !c.onNewLine then self (.value depth)
    else do
      Parse.reportHere .expectedExpression "Expected a loop body such as `|v| \x7b ... \x7d`"
      pure none
  return .forLoop token subject body (← Parse.spanFrom token.span.start)

/-- A statement that begins with a variable chain: an assignment, an expression,
or a command. -/
def varStatement (depth : Nat) : Parse Statement := do
  let start := (← get).offset
  let target ← var self depth
  let c ← get
  if c.sees .equal then
    let equals ← Parse.bump
    match target with
    | .mk (.computed ..) [] span => Parse.report (.of .invalidAssignment span)
    | _ => pure ()
    let value ← required self depth ("Expected a value after `" ++ equals.text ++ "`")
    return .assign target equals value (← Parse.spanFrom start)
  if seesOperator c && !seesNegative c then
    return .expression (← operatorChain self depth 1 (.var target))
  return .command (← command self depth target)

/-- A statement, if one begins here. -/
def statement (depth : Nat) : Parse (Option Statement) := do
  let c ← get
  match c.kind with
  | .kwIf => some <$> conditional limit self depth
  | .kwWhile => some <$> whileLoop limit self depth
  | .kwFor => some <$> forLoop self depth
  | .ampersand => return some (.call (← call self depth))
  | .identifier | .dollar => some <$> varStatement self depth
  | _ =>
    if c.seesAny operandStart then return (← self (.expression depth 1)).map .expression
    else pure none

/-- `break`, `continue`, or `return` with its values. -/
def lastStatement (depth : Nat) : Parse LastStatement := do
  let token ← Parse.bump
  match token.kind with
  | .kwBreak => return .break token
  | .kwContinue => return .continue token
  | _ =>
    let values ← if endsStatement (← get) then pure [] else (returned self depth).read
    return .return token values (← Parse.spanFrom token.span.start)

/-- Skip to where the next statement can begin, and report what was skipped. -/
def recover (stop : List TokenKind) (context : String) : Parse (List Statement) := do
  let text := (← get).token.text
  match ← Recovery.skip ⟨.semicolon :: stop, true⟩ with
  | none => pure []
  | some node =>
    Parse.report (.raise .unexpectedToken node.span ("Unexpected `" ++ text ++ "`, " ++ context))
    return [.skipped node]

/-- Characters that start no token, a statement, or what stands where a statement
should, each with what has to be skipped before the next statement. -/
def someStatements (depth : Nat) (stop : List TokenKind) : Parse (List Statement) := do
  if (← get).sees .unknown then
    let node ← Recovery.skip ⟨.semicolon :: stop, true⟩
    return node.toList.map Statement.skipped
  match ← statement limit self depth with
  | none => recover stop "expected a statement"
  | some s =>
    let now ← get
    if endsStatement now || endsWithBrace now s then return [s]
    return s :: (← recover stop "after statement")

/-- The statements of a block and the one that leaves it, in at most the given
number of rounds. -/
def statements (depth : Nat) (stop : List TokenKind) (before : Option Nat) :
    Nat → Parse (List Statement × Option LastStatement)
  | 0 => do Parse.stall; pure ([], none)
  | n + 1 => do
    let c ← get
    if c.atEnd || c.seesAny stop then return ([], none)
    if !(← Parse.progressed before) then return ([], none)
    if c.sees .semicolon then
      let _ ← Parse.bump
      statements depth stop (some c.offset) n
    else if c.seesAny lastStart then return ([], some (← lastStatement self depth))
    else
      let read ← someStatements limit self depth stop
      let (others, last) ← statements depth stop (some c.offset) n
      return (read ++ others, last)

/-- A block; what stands behind the statement that leaves it is skipped. -/
def block (depth : Nat) (stop : List TokenKind) (start : Nat) : Parse Block := do
  let (body, last) ← statements limit self depth stop none ((← get).upcoming.length + 1)
  if last.isSome then Parse.skipUnreachable stop
  return .mk body last (← Parse.spanFrom start)

/-- The rule of a nonterminal. -/
def rule : (n : Nonterminal) → Parse n.Result
  | .operand depth argument => operand limit self depth argument
  | .expression depth precedence => expression self depth precedence
  | .value depth => value self depth
  | .block depth stop start => block limit self depth stop start

end Rules

end Grammar

end CommandScript
