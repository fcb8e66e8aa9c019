import CommandScript.Tree.Basic
/-!
# CommandScript — trees in other places

A relocation moves the spans of a tree and of the tokens in it, and may change what the
tokens say about their surroundings. It keeps what was read: kinds and texts of tokens,
and which part holds which.

Two trees that a relocation makes equal are the same tree but for what it changes. So
trees of two texts are compared up to their places.
-/

namespace CommandScript

/-- A change of the places that a tree speaks of, and of the flags of its tokens. -/
structure Relocation where
  span : Span → Span
  flags : TokenFlags → TokenFlags := id

namespace TokenFlags

/-- The flags without what stands before the token. -/
def withoutTrivia (f : TokenFlags) : TokenFlags :=
  { f with lineBreakBefore := false, triviaBefore := false }

end TokenFlags

namespace Relocation

/-- All places forgotten. -/
def forgotten : Relocation where span _ := .point 0

/-- Everything further on by a number of characters, and what stands before a token
forgotten. -/
def shifted (n : Nat) : Relocation where
  span s := ⟨s.start + n, s.stop + n⟩
  flags := TokenFlags.withoutTrivia

/-- Everything in its place, and what stands before a token forgotten. -/
def unmarked : Relocation where
  span := id
  flags := TokenFlags.withoutTrivia

variable (ρ : Relocation)

def token (t : Token) : Token := { t with span := ρ.span t.span, flags := ρ.flags t.flags }

def brackets (b : Brackets) : Brackets := ⟨ρ.token b.left, b.right.map ρ.token⟩

def skipped (k : Skipped) : Skipped := ⟨k.tokens.map ρ.token, ρ.span k.span⟩

/-- A parameter of a lambda. -/
def parameter (i : SeparatedItem Token) : SeparatedItem Token :=
  ⟨i.value.map ρ.token, i.separator.map ρ.token, ρ.span i.span⟩

mutual

def expression : Expression → Expression
  | .nil t => .nil (ρ.token t)
  | .boolean t => .boolean (ρ.token t)
  | .number t => .number (ρ.token t)
  | .string t => .string (ρ.token t)
  | .binary l o r s => .binary (expression l) (ρ.token o) (optional r) (ρ.span s)
  | .unary o v s => .unary (ρ.token o) (optional v) (ρ.span s)
  | .vector b is s => .vector (ρ.brackets b) (items is) (ρ.span s)
  | .table b fs s => .table (ρ.brackets b) (fields fs) (ρ.span s)
  | .lambda b => .lambda (body b)
  | .group b i s => .group (ρ.brackets b) (optional i) (ρ.span s)
  | .var v => .var (var v)
  | .call c => .call (call c)
  | .skipped k => .skipped (ρ.skipped k)

def optional : Option Expression → Option Expression
  | none => none
  | some e => some (expression e)

def item : SeparatedItem Expression → SeparatedItem Expression
  | ⟨v, s, r⟩ => ⟨optional v, s.map ρ.token, ρ.span r⟩

def items : List (SeparatedItem Expression) → List (SeparatedItem Expression)
  | [] => []
  | i :: rest => item i :: items rest

def field : TableField → TableField
  | .named n q v s => .named (ρ.token n) (ρ.token q) (optional v) (ρ.span s)
  | .keyed b k q v s =>
    .keyed (ρ.brackets b) (optional k) (q.map ρ.token) (optional v) (ρ.span s)
  | .positional v s => .positional (expression v) (ρ.span s)

def optionalField : Option TableField → Option TableField
  | none => none
  | some f => some (field f)

def fieldItem : SeparatedItem TableField → SeparatedItem TableField
  | ⟨v, s, r⟩ => ⟨optionalField v, s.map ρ.token, ρ.span r⟩

def fields : List (SeparatedItem TableField) → List (SeparatedItem TableField)
  | [] => []
  | i :: rest => fieldItem i :: fields rest

def body : FunctionBody → FunctionBody
  | .mk b ps bl s => .mk (ρ.brackets b) (ps.map ρ.parameter) (optionalBraced bl) (ρ.span s)

def root : VarRoot → VarRoot
  | .bare t => .bare (ρ.token t)
  | .named d n s => .named (ρ.token d) (n.map ρ.token) (ρ.span s)
  | .computed d b i s => .computed (ρ.token d) (ρ.brackets b) (optional i) (ρ.span s)

def suffix : VarSuffix → VarSuffix
  | .field p n s => .field (ρ.token p) (n.map ρ.token) (ρ.span s)
  | .index p b i s => .index (ρ.token p) (ρ.brackets b) (optional i) (ρ.span s)

def suffixes : List VarSuffix → List VarSuffix
  | [] => []
  | s :: rest => suffix s :: suffixes rest

def var : Var → Var
  | .mk r ss s => .mk (root r) (suffixes ss) (ρ.span s)

def arguments : List Expression → List Expression
  | [] => []
  | e :: rest => expression e :: arguments rest

def command : Command → Command
  | .mk v as s => .mk (var v) (arguments as) (ρ.span s)

def optionalCommand : Option Command → Option Command
  | none => none
  | some c => some (command c)

def call : Call → Call
  | .mk a c s => .mk (ρ.token a) (optionalCommand c) (ρ.span s)

def statement : Statement → Statement
  | .command c => .command (command c)
  | .call c => .call (call c)
  | .expression e => .expression (expression e)
  | .assign v q e s => .assign (var v) (ρ.token q) (optional e) (ρ.span s)
  | .conditional t f es o s =>
    .conditional (ρ.token t) (branch f) (elseIfs es) (optionalOtherwise o) (ρ.span s)
  | .whileLoop t c b s =>
    .whileLoop (ρ.token t) (optionalCondition c) (optionalBraced b) (ρ.span s)
  | .forLoop t c b s => .forLoop (ρ.token t) (optionalCondition c) (optional b) (ρ.span s)
  | .skipped k => .skipped (ρ.skipped k)

def statements : List Statement → List Statement
  | [] => []
  | s :: rest => statement s :: statements rest

def condition : Condition → Condition
  | .mk b i => .mk (ρ.brackets b) (optional i)

def optionalCondition : Option Condition → Option Condition
  | none => none
  | some c => some (condition c)

def branch : Branch → Branch
  | .mk c b s => .mk (optionalCondition c) (optionalBraced b) (ρ.span s)

def elseIf : ElseIf → ElseIf
  | .mk t b s => .mk (ρ.token t) (branch b) (ρ.span s)

def elseIfs : List ElseIf → List ElseIf
  | [] => []
  | e :: rest => elseIf e :: elseIfs rest

def otherwise : Otherwise → Otherwise
  | .mk t b s => .mk (ρ.token t) (optionalBraced b) (ρ.span s)

def optionalOtherwise : Option Otherwise → Option Otherwise
  | none => none
  | some o => some (otherwise o)

def braced : Braced → Braced
  | .mk b bl => .mk (ρ.brackets b) (block bl)

def optionalBraced : Option Braced → Option Braced
  | none => none
  | some b => some (braced b)

def last : LastStatement → LastStatement
  | .continue t => .continue (ρ.token t)
  | .break t => .break (ρ.token t)
  | .return t vs s => .return (ρ.token t) (items vs) (ρ.span s)

def optionalLast : Option LastStatement → Option LastStatement
  | none => none
  | some l => some (last l)

def block : Block → Block
  | .mk ss l s => .mk (statements ss) (optionalLast l) (ρ.span s)

end

/-! ## What a relocation keeps -/

@[simp] theorem kind_token (t : Token) : (ρ.token t).kind = t.kind := rfl

@[simp] theorem text_token (t : Token) : (ρ.token t).text = t.text := rfl

@[simp] theorem span_token (t : Token) : (ρ.token t).span = ρ.span t.span := rfl

@[simp] theorem span_var (v : Var) : (ρ.var v).span = ρ.span v.span := by
  cases v
  rfl

theorem span_expression (e : Expression) : (ρ.expression e).span = ρ.span e.span := by
  cases e with
  | lambda b => cases b; rfl
  | var v => cases v; rfl
  | call c => cases c; rfl
  | _ => simp only [expression, Expression.span, span_token, skipped]

/-- A relocation keeps whether an expression is there. -/
@[simp] theorem isSome_optional (e : Option Expression) : (ρ.optional e).isSome = e.isSome := by
  cases e <;> rfl

@[simp] theorem isCompound_statement (s : Statement) :
    (ρ.statement s).isCompound = s.isCompound := by
  cases s <;> rfl

theorem statements_append (ss ss' : List Statement) :
    ρ.statements (ss ++ ss') = ρ.statements ss ++ ρ.statements ss' := by
  induction ss with
  | nil => rfl
  | cons s rest ih => rw [List.cons_append, statements, statements, ih, List.cons_append]

theorem items_eq_map (is : List (SeparatedItem Expression)) : ρ.items is = is.map ρ.item := by
  induction is with
  | nil => rfl
  | cons i is ih => rw [items, ih, List.map_cons]

theorem fields_eq_map (is : List (SeparatedItem TableField)) : ρ.fields is = is.map ρ.fieldItem := by
  induction is with
  | nil => rfl
  | cons i is ih => rw [fields, ih, List.map_cons]

end Relocation

end CommandScript
