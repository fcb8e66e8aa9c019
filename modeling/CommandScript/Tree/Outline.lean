import CommandScript.Tree.Basic
/-!
# CommandScript — the outline of a tree

A tree has some fifteen kinds of part, and questions about places in it — which
part holds which, in what order tokens stand, how far spans reach — are the same
for all of them. The outline answers them once: it has one sort of inner node,
which carries the part it stands for, and tokens as leaves. Brackets, separators
and list items are flattened away, so the children of a node are its parts and
tokens in the order of the text.
-/

namespace CommandScript

/-- A part of a tree. -/
inductive Node where
  | block (block : Block)
  /-- An expression other than a variable chain, a call or skipped tokens. -/
  | expression (expression : Expression)
  | field (field : TableField)
  | body (body : FunctionBody)
  | root (root : VarRoot)
  | suffix (suffix : VarSuffix)
  | var (var : Var)
  | command (command : Command)
  | call (call : Call)
  | skipped (skipped : Skipped)
  /-- A statement other than a command, a call or skipped tokens. -/
  | statement (statement : Statement)
  | last (last : LastStatement)
  | branch (branch : Branch)
  | elseIf (elseIf : ElseIf)
  | otherwise (otherwise : Otherwise)

namespace Node

def span : Node → Span
  | block b => b.span
  | expression e => e.span
  | field f => f.span
  | body b => b.span
  | root r => r.span
  | suffix s => s.span
  | var v => v.span
  | command c => c.span
  | call c => c.span
  | skipped k => k.span
  | statement s => s.span
  | last l => l.span
  | branch b => b.span
  | elseIf e => e.span
  | otherwise o => o.span

end Node

/-- A tree seen as parts and tokens. -/
inductive Outline where
  | token (token : Token)
  | node (part : Node) (children : List Outline)

namespace Outline

/-- The tokens that are there. -/
def ofTokens (ts : List (Option Token)) : List Outline :=
  ts.flatMap fun t => t.toList.map token

/-- The parameters of a lambda with the commas between them. -/
def ofParameters (items : Separated Token) : List Outline :=
  items.flatMap fun item => ofTokens [item.value, item.separator]

/-- Skipped tokens. -/
def ofSkipped (k : Skipped) : Outline := .node (.skipped k) (k.tokens.map token)

/-- What stands between brackets, with the brackets. -/
def bracketed (b : Brackets) (inner : List Outline) : List Outline :=
  .token b.left :: inner ++ ofTokens [b.right]

mutual

def ofExpression : Expression → Outline
  | .nil t => .node (.expression (.nil t)) [.token t]
  | .boolean t => .node (.expression (.boolean t)) [.token t]
  | .number t => .node (.expression (.number t)) [.token t]
  | .string t => .node (.expression (.string t)) [.token t]
  | .binary l o r s =>
    .node (.expression (.binary l o r s)) (ofExpression l :: .token o :: ofOptional r)
  | .unary o v s => .node (.expression (.unary o v s)) (.token o :: ofOptional v)
  | .vector b is s => .node (.expression (.vector b is s)) (bracketed b (ofItems is))
  | .table b fs s => .node (.expression (.table b fs s)) (bracketed b (ofFields fs))
  | .lambda b => .node (.expression (.lambda b)) [ofBody b]
  | .group b i s => .node (.expression (.group b i s)) (bracketed b (ofOptional i))
  | .var v => ofVar v
  | .call c => ofCall c
  | .skipped k => ofSkipped k

def ofOptional : Option Expression → List Outline
  | none => []
  | some e => [ofExpression e]

def ofItem : SeparatedItem Expression → List Outline
  | ⟨v, s, _⟩ => ofOptional v ++ ofTokens [s]

def ofItems : List (SeparatedItem Expression) → List Outline
  | [] => []
  | i :: rest => ofItem i ++ ofItems rest

def ofField : TableField → Outline
  | .named n q v s => .node (.field (.named n q v s)) (.token n :: .token q :: ofOptional v)
  | .keyed b k q v s =>
    .node (.field (.keyed b k q v s)) (bracketed b (ofOptional k) ++ ofTokens [q] ++ ofOptional v)
  | .positional v s => .node (.field (.positional v s)) [ofExpression v]

def ofOptionalField : Option TableField → List Outline
  | none => []
  | some f => [ofField f]

def ofFieldItem : SeparatedItem TableField → List Outline
  | ⟨v, s, _⟩ => ofOptionalField v ++ ofTokens [s]

def ofFields : List (SeparatedItem TableField) → List Outline
  | [] => []
  | i :: rest => ofFieldItem i ++ ofFields rest

def ofBody : FunctionBody → Outline
  | .mk b ps bl s =>
    .node (.body (.mk b ps bl s)) (bracketed b (ofParameters ps) ++ ofOptionalBraced bl)

def ofRoot : VarRoot → Outline
  | .bare t => .node (.root (.bare t)) [.token t]
  | .named d n s => .node (.root (.named d n s)) (.token d :: ofTokens [n])
  | .computed d b i s => .node (.root (.computed d b i s)) (.token d :: bracketed b (ofOptional i))

def ofSuffix : VarSuffix → Outline
  | .field p n s => .node (.suffix (.field p n s)) (.token p :: ofTokens [n])
  | .index p b i s => .node (.suffix (.index p b i s)) (.token p :: bracketed b (ofOptional i))

def ofSuffixes : List VarSuffix → List Outline
  | [] => []
  | s :: rest => ofSuffix s :: ofSuffixes rest

def ofVar : Var → Outline
  | .mk r ss s => .node (.var (.mk r ss s)) (ofRoot r :: ofSuffixes ss)

def ofArguments : List Expression → List Outline
  | [] => []
  | e :: rest => ofExpression e :: ofArguments rest

def ofCommand : Command → Outline
  | .mk v as s => .node (.command (.mk v as s)) (ofVar v :: ofArguments as)

def ofOptionalCommand : Option Command → List Outline
  | none => []
  | some c => [ofCommand c]

def ofCall : Call → Outline
  | .mk a c s => .node (.call (.mk a c s)) (.token a :: ofOptionalCommand c)

def ofStatement : Statement → Outline
  | .command c => ofCommand c
  | .call c => ofCall c
  | .expression e => .node (.statement (.expression e)) [ofExpression e]
  | .assign v q e s => .node (.statement (.assign v q e s)) (ofVar v :: .token q :: ofOptional e)
  | .conditional t f es o s =>
    .node (.statement (.conditional t f es o s))
      (.token t :: ofBranch f :: ofElseIfs es ++ ofOptionalOtherwise o)
  | .whileLoop t c b s =>
    .node (.statement (.whileLoop t c b s)) (.token t :: ofOptionalCondition c ++ ofOptionalBraced b)
  | .forLoop t c b s =>
    .node (.statement (.forLoop t c b s)) (.token t :: ofOptionalCondition c ++ ofOptional b)
  | .skipped k => ofSkipped k

def ofStatements : List Statement → List Outline
  | [] => []
  | s :: rest => ofStatement s :: ofStatements rest

def ofCondition : Condition → List Outline
  | .mk b i => bracketed b (ofOptional i)

def ofOptionalCondition : Option Condition → List Outline
  | none => []
  | some c => ofCondition c

def ofBranch : Branch → Outline
  | .mk c b s => .node (.branch (.mk c b s)) (ofOptionalCondition c ++ ofOptionalBraced b)

def ofElseIf : ElseIf → Outline
  | .mk t b s => .node (.elseIf (.mk t b s)) [.token t, ofBranch b]

def ofElseIfs : List ElseIf → List Outline
  | [] => []
  | e :: rest => ofElseIf e :: ofElseIfs rest

def ofOtherwise : Otherwise → Outline
  | .mk t b s => .node (.otherwise (.mk t b s)) (.token t :: ofOptionalBraced b)

def ofOptionalOtherwise : Option Otherwise → List Outline
  | none => []
  | some o => [ofOtherwise o]

def ofBraced : Braced → List Outline
  | .mk b bl => bracketed b [ofBlock bl]

def ofOptionalBraced : Option Braced → List Outline
  | none => []
  | some b => ofBraced b

def ofLast : LastStatement → Outline
  | .continue t => .node (.last (.continue t)) [.token t]
  | .break t => .node (.last (.break t)) [.token t]
  | .return t vs s => .node (.last (.return t vs s)) (.token t :: ofItems vs)

def ofOptionalLast : Option LastStatement → List Outline
  | none => []
  | some l => [ofLast l]

def ofBlock : Block → Outline
  | .mk ss l s => .node (.block (.mk ss l s)) (ofStatements ss ++ ofOptionalLast l)

end

/-- The children of a part; a token has none. -/
def children : Outline → List Outline
  | token _ => []
  | node _ cs => cs

/-- The part a node stands for. -/
def part? : Outline → Option Node
  | token _ => none
  | node p _ => some p

/-- The span of a token or a part. -/
def span : Outline → Span
  | token t => t.span
  | node p _ => p.span

mutual

/-- A part and everything in it, in order, each part before what is in it;
tokens are left out. -/
def parts : Outline → List Node
  | token _ => []
  | node p cs => p :: partsOfAll cs

def partsOfAll : List Outline → List Node
  | [] => []
  | o :: rest => parts o ++ partsOfAll rest

end

mutual

/-- The tokens of a tree in order. -/
def tokens : Outline → List Token
  | token t => [t]
  | node _ cs => tokensOfAll cs

def tokensOfAll : List Outline → List Token
  | [] => []
  | o :: rest => tokens o ++ tokensOfAll rest

end

end Outline

end CommandScript
