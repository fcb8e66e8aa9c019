import CommandScript.Token.Basic
/-!
# CommandScript — the tree of a script

A tree says what was read so far, not what is valid: every part that may be
missing from a text is optional, and tokens that fit nowhere are kept in
`Skipped` nodes. A tree keeps its tokens, so places, spellings and literal
values are read off it.

Parts that are one token long have that token's span. All other parts carry the
span from their first token to the last one that was read for them.
-/

namespace CommandScript

/-- An opening token and the closing one, which may be missing. -/
structure Brackets where
  left : Token
  right : Option Token
  deriving DecidableEq, Repr

/-- An element of a list with the separator behind it. -/
structure SeparatedItem (α : Type) where
  value : Option α
  separator : Option Token
  span : Span

/-- The elements of a list between delimiters or behind `return`. -/
abbrev Separated (α : Type) := List (SeparatedItem α)

/-- Tokens that no rule of the grammar took. -/
structure Skipped where
  tokens : List Token
  span : Span

mutual

/-- What has a value. -/
inductive Expression where
  | nil (token : Token)
  | boolean (token : Token)
  | number (token : Token)
  /-- A quoted string, or a bare word among the arguments of a command. -/
  | string (token : Token)
  | binary (left : Expression) (operator : Token) (right : Option Expression) (span : Span)
  | unary (operator : Token) (value : Option Expression) (span : Span)
  | vector (brackets : Brackets) (items : List (SeparatedItem Expression)) (span : Span)
  | table (brackets : Brackets) (fields : List (SeparatedItem TableField)) (span : Span)
  | lambda (body : FunctionBody)
  /-- An expression between parentheses, which may be missing. -/
  | group (brackets : Brackets) (inner : Option Expression) (span : Span)
  | var (var : Var)
  | call (call : Call)
  | skipped (skipped : Skipped)

/-- An entry of a table: under a name, under the value of an expression, or
under the next position. -/
inductive TableField where
  | named (name equals : Token) (value : Option Expression) (span : Span)
  | keyed (brackets : Brackets) (key : Option Expression) (equals : Option Token)
    (value : Option Expression) (span : Span)
  | positional (value : Expression) (span : Span)

/-- Parameters and the block of a lambda. -/
inductive FunctionBody where
  | mk (bars : Brackets) (parameters : List (SeparatedItem Token)) (block : Option Braced)
    (span : Span)

/-- Where a variable chain begins: `name`, `$name` or `$(…)`. -/
inductive VarRoot where
  | bare (token : Token)
  | named (dollar : Token) (name : Option Token) (span : Span)
  | computed (dollar : Token) (brackets : Brackets) (inner : Option Expression) (span : Span)

/-- A step of a variable chain: `.name` or `.[…]`. -/
inductive VarSuffix where
  | field (period : Token) (name : Option Token) (span : Span)
  | index (period : Token) (brackets : Brackets) (inner : Option Expression) (span : Span)

/-- A variable chain. -/
inductive Var where
  | mk (root : VarRoot) (suffixes : List VarSuffix) (span : Span)

/-- A callee and its arguments. -/
inductive Command where
  | mk (callee : Var) (arguments : List Expression) (span : Span)

/-- `&` and the command behind it. -/
inductive Call where
  | mk (ampersand : Token) (command : Option Command) (span : Span)

/-- What stands on its own in a block. -/
inductive Statement where
  | command (command : Command)
  | call (call : Call)
  | expression (expression : Expression)
  | assign (target : Var) (equals : Token) (value : Option Expression) (span : Span)
  | conditional (token : Token) (first : Branch) (others : List ElseIf) (otherwise : Option Otherwise)
    (span : Span)
  | whileLoop (token : Token) (condition : Option Condition) (block : Option Braced) (span : Span)
  | forLoop (token : Token) (subject : Option Condition) (body : Option Expression) (span : Span)
  | skipped (skipped : Skipped)

/-- The parenthesized expression behind `if`, `elseif`, `while` or `for`. -/
inductive Condition where
  | mk (brackets : Brackets) (inner : Option Expression)

/-- A condition and the block it guards. -/
inductive Branch where
  | mk (condition : Option Condition) (block : Option Braced) (span : Span)

/-- A branch behind `elseif`. -/
inductive ElseIf where
  | mk (token : Token) (branch : Branch) (span : Span)

/-- The block behind `else`. -/
inductive Otherwise where
  | mk (token : Token) (block : Option Braced) (span : Span)

/-- What leaves a block. -/
inductive LastStatement where
  | continue (token : Token)
  | break (token : Token)
  | return (token : Token) (values : List (SeparatedItem Expression)) (span : Span)

/-- A block between braces. -/
inductive Braced where
  | mk (brackets : Brackets) (block : Block)

/-- Statements in order, with at most one that leaves the block, at the end. -/
inductive Block where
  | mk (body : List Statement) (last : Option LastStatement) (span : Span)

end

namespace Skipped

/-- One token that fits nowhere. -/
def one (t : Token) : Skipped := ⟨[t], t.span⟩

end Skipped

namespace FunctionBody

def bars : FunctionBody → Brackets | mk b _ _ _ => b
def parameters : FunctionBody → Separated Token | mk _ ps _ _ => ps
def block : FunctionBody → Option Braced | mk _ _ b _ => b
def span : FunctionBody → Span | mk _ _ _ s => s

/-- The names of the parameters that are there. -/
def names (f : FunctionBody) : List String :=
  f.parameters.filterMap fun item => item.value.map (·.text)

end FunctionBody

namespace VarRoot

def span : VarRoot → Span
  | bare t => t.span
  | named _ _ s | computed _ _ _ s => s

end VarRoot

namespace VarSuffix

def span : VarSuffix → Span | field _ _ s | index _ _ _ s => s

end VarSuffix

namespace Var

def root : Var → VarRoot | mk r _ _ => r
def suffixes : Var → List VarSuffix | mk _ ss _ => ss
def span : Var → Span | mk _ _ s => s

/-- The name of a chain that is a bare name and nothing more. -/
def bareName? : Var → Option String
  | mk (.bare t) [] _ => some t.text
  | _ => none

/-- How a step of a chain is shown. -/
def suffixName : VarSuffix → String
  | .field _ name _ => "." ++ (name.map (·.text)).getD ""
  | .index .. => ".[...]"

/-- How the begin of a chain is shown. -/
def rootName : VarRoot → String
  | .bare t => t.text
  | .named _ name _ => "$" ++ (name.map (·.text)).getD ""
  | .computed .. => "$(...)"

/-- The chain as traces and messages show it. -/
def display (v : Var) : String :=
  rootName v.root ++ String.join (v.suffixes.map suffixName)

end Var

namespace Command

def callee : Command → Var | mk v _ _ => v
def arguments : Command → List Expression | mk _ as _ => as
def span : Command → Span | mk _ _ s => s

end Command

namespace Call

def ampersand : Call → Token | mk t _ _ => t
def command : Call → Option Command | mk _ c _ => c
def span : Call → Span | mk _ _ s => s

end Call

namespace Expression

def span : Expression → Span
  | nil t | boolean t | number t | string t => t.span
  | binary _ _ _ s | unary _ _ s | vector _ _ s | table _ _ s | group _ _ s => s
  | lambda b => b.span
  | var v => v.span
  | call c => c.span
  | skipped k => k.span

/-- Parentheses with nothing between them. -/
def isEmptyGroup : Expression → Bool
  | group _ none _ => true
  | _ => false

end Expression

namespace TableField

def span : TableField → Span | named _ _ _ s | keyed _ _ _ _ s | positional _ s => s

/-- The expression for what the entry holds. -/
def value : TableField → Option Expression
  | named _ _ v _ | keyed _ _ _ v _ => v
  | positional v _ => some v

end TableField

namespace Branch

def condition : Branch → Option Condition | mk c _ _ => c
def block : Branch → Option Braced | mk _ b _ => b
def span : Branch → Span | mk _ _ s => s

end Branch

namespace ElseIf

def token : ElseIf → Token | mk t _ _ => t
def branch : ElseIf → Branch | mk _ b _ => b
def span : ElseIf → Span | mk _ _ s => s

end ElseIf

namespace Otherwise

def token : Otherwise → Token | mk t _ _ => t
def block : Otherwise → Option Braced | mk _ b _ => b
def span : Otherwise → Span | mk _ _ s => s

end Otherwise

namespace Statement

def span : Statement → Span
  | command c => c.span
  | call c => c.span
  | expression e => e.span
  | assign _ _ _ s | conditional _ _ _ _ s | whileLoop _ _ _ s | forLoop _ _ _ s => s
  | skipped k => k.span

/-- The statement ends in a block, if it is complete. -/
def isCompound : Statement → Bool
  | conditional .. | whileLoop .. | forLoop .. => true
  | _ => false

end Statement

namespace LastStatement

def token : LastStatement → Token | «continue» t | «break» t | «return» t _ _ => t

def span : LastStatement → Span
  | «continue» t | «break» t => t.span
  | «return» _ _ s => s

/-- The statement leaves a call, not a loop. -/
def isReturn : LastStatement → Bool
  | «return» .. => true
  | _ => false

end LastStatement

namespace Block

def body : Block → List Statement | mk b _ _ => b
def last : Block → Option LastStatement | mk _ l _ => l
def span : Block → Span | mk _ _ s => s

end Block

namespace Brackets

/-- The span from the opening token to the closing one, or where that is missing
to the end of what stands behind the opening one, given as `inner`. -/
def spanWith (b : Brackets) (inner : Option Span) : Span :=
  ⟨b.left.span.start,
    match b.right with
    | some t => t.span.stop
    | none => (inner.map (·.stop)).getD b.left.span.stop⟩

/-- The span around a list: a missing closing token is stood in for by the last
element. -/
def listSpan (b : Brackets) (items : Separated α) : Span :=
  b.spanWith (items.getLast?.map (·.span))

/-- The span around an expression. -/
def expressionSpan (b : Brackets) (inner : Option Expression) : Span :=
  b.spanWith (inner.map (·.span))

end Brackets

namespace Condition

def brackets : Condition → Brackets | mk b _ => b
def inner : Condition → Option Expression | mk _ e => e
def span (c : Condition) : Span := c.brackets.expressionSpan c.inner

end Condition

namespace Braced

def brackets : Braced → Brackets | mk b _ => b
def block : Braced → Block | mk _ b => b
def span (b : Braced) : Span := b.brackets.spanWith (some b.block.span)

end Braced

end CommandScript
