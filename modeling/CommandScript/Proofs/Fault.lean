import CommandScript.Run.Failure
/-!
# CommandScript — faults of a tree

Some failures of a run can be read off its tree: a part that is missing, tokens
that were skipped, and a bare name that is called although nothing of that name is
in sight. This file lists them, in the order of the text.

What is in sight is known beforehand only in part. A name that is assigned to
comes into sight for the statements behind, one that is a parameter for the body
of its lambda; a name that is computed may be any, so it counts for nothing.
-/

namespace CommandScript

/-- A failure that a tree may lead to, and its place. -/
structure Fault where
  cause : Cause
  span : Span

/-- Names that are known to be in sight. -/
abbrev Sight := String → Bool

/-- More names in sight. -/
def Sight.with (known : Sight) (names : List String) : Sight :=
  fun n => names.contains n || known n

theorem Sight.with_nil (known : Sight) : known.with [] = known := by
  funext n
  simp [Sight.with]

theorem Sight.with_append (known : Sight) (names more : List String) :
    known.with (names ++ more) = (known.with names).with more := by
  funext n
  simp only [Sight.with, List.contains_append]
  rw [Bool.or_comm (names.contains n), Bool.or_assoc]

/-- A cause that is a matter of the tree: it says that a part is missing or unknown. -/
def Cause.isOfTree : Cause → Bool
  | .invalidSyntax _ | .missingExpression | .missingCommand | .missingVariable | .missingField
  | .missingBranchBlock | .missingElseBlock | .incompleteCondition | .incompleteWhile
  | .incompleteFor | .unknownCommand _ => true
  | _ => false

/-- The cause of reaching skipped tokens. -/
def Skipped.cause (k : Skipped) : Cause :=
  .invalidSyntax (" ".intercalate (k.tokens.map (·.text)))

/-- The name that an assignment to the begin of a chain is to, where it is written. -/
def VarRoot.defined : VarRoot → List String
  | .bare t | .named _ (some t) _ => [t.text]
  | _ => []

/-- The names that a statement brings into sight behind it. -/
def Statement.defined : Statement → List String
  | .assign (.mk r [] _) _ _ _ => r.defined
  | _ => []

namespace Faults

/-- A bare name that is called has to be in sight. -/
def callee (known : Sight) (v : Var) : List Fault :=
  match v.bareName? with
  | some name => if known name then [] else [⟨.unknownCommand name, v.span⟩]
  | none => []

mutual

def expression (known : Sight) : Expression → List Fault
  | .nil _ | .boolean _ | .number _ | .string _ => []
  | .binary l _ r span => expression known l ++ required known span r
  | .unary _ v span => required known span v
  | .vector _ is _ => items known is
  | .table _ fs _ => fields known fs
  | .lambda b => body known b
  | .group _ none _ => []
  | .group _ (some e) _ => expression known e
  | .var v => chain known v
  | .call c => call known c
  | .skipped k => [⟨k.cause, k.span⟩]

/-- An expression that has to be there. -/
def required (known : Sight) (span : Span) : Option Expression → List Fault
  | none => [⟨.missingExpression, span⟩]
  | some e => expression known e

def item (known : Sight) : SeparatedItem Expression → List Fault
  | ⟨v, _, span⟩ => required known span v

def items (known : Sight) : List (SeparatedItem Expression) → List Fault
  | [] => []
  | i :: rest => item known i ++ items known rest

def field (known : Sight) : TableField → List Fault
  | .named _ _ v span => required known span v
  | .keyed _ k _ v span => required known span k ++ required known span v
  | .positional v _ => expression known v

def fieldItem (known : Sight) : SeparatedItem TableField → List Fault
  | ⟨none, _, _⟩ => []
  | ⟨some f, _, _⟩ => field known f

def fields (known : Sight) : List (SeparatedItem TableField) → List Fault
  | [] => []
  | i :: rest => fieldItem known i ++ fields known rest

def body (known : Sight) : FunctionBody → List Fault
  | .mk _ _ none _ => []
  | .mk bars ps (some b) span => braced (known.with (FunctionBody.mk bars ps none span).names) b

def root (known : Sight) : VarRoot → List Fault
  | .bare _ | .named _ (some _) _ => []
  | .named _ none span => [⟨.missingVariable, span⟩]
  | .computed _ _ e span => required known span e

def suffix (known : Sight) : VarSuffix → List Fault
  | .field _ (some _) _ => []
  | .field _ none span => [⟨.missingField, span⟩]
  | .index _ _ e span => required known span e

def suffixes (known : Sight) : List VarSuffix → List Fault
  | [] => []
  | s :: rest => suffix known s ++ suffixes known rest

/-- A variable chain, where it is read and where it is assigned to. -/
def chain (known : Sight) : Var → List Fault
  | .mk r ss _ => root known r ++ suffixes known ss

def arguments (known : Sight) : List Expression → List Fault
  | [] => []
  | e :: rest => expression known e ++ arguments known rest

def command (known : Sight) : Command → List Fault
  | .mk v as _ => chain known v ++ callee known v ++ arguments known as

def call (known : Sight) : Call → List Fault
  | .mk _ none span => [⟨.missingCommand, span⟩]
  | .mk _ (some c) _ => command known c

def condition (known : Sight) : Condition → List Fault
  | .mk brackets e => required known (brackets.expressionSpan e) e

def branch (known : Sight) : Branch → List Fault
  | .mk none _ span => [⟨.incompleteCondition, span⟩]
  | .mk (some c) none span => condition known c ++ [⟨.missingBranchBlock, span⟩]
  | .mk (some c) (some b) _ => condition known c ++ braced known b

def elseIf (known : Sight) : ElseIf → List Fault
  | .mk _ b _ => branch known b

def elseIfs (known : Sight) : List ElseIf → List Fault
  | [] => []
  | e :: rest => elseIf known e ++ elseIfs known rest

def otherwise (known : Sight) : Option Otherwise → List Fault
  | none => []
  | some (.mk _ none span) => [⟨.missingElseBlock, span⟩]
  | some (.mk _ (some b) _) => braced known b

def statement (known : Sight) : Statement → List Fault
  | .command c => command known c
  | .call c => call known c
  | .expression e => expression known e
  | .assign v _ e span => required known span e ++ chain known v
  | .conditional _ first others o _ =>
    branch known first ++ elseIfs known others ++ otherwise known o
  | .whileLoop _ (some c) (some b) _ => condition known c ++ braced known b
  | .whileLoop _ _ _ span => [⟨.incompleteWhile, span⟩]
  | .forLoop _ (some c) (some e) _ => condition known c ++ expression known e
  | .forLoop _ _ _ span => [⟨.incompleteFor, span⟩]
  | .skipped k => [⟨k.cause, k.span⟩]

/-- What a statement brings into sight is in sight behind it. -/
def statements (known : Sight) : List Statement → List Fault
  | [] => []
  | s :: rest => statement known s ++ statements (known.with s.defined) rest

def last (known : Sight) : LastStatement → List Fault
  | .return _ vs _ => items known vs
  | _ => []

def block (known : Sight) : Block → List Fault
  | .mk ss none _ => statements known ss
  | .mk ss (some l) _ => statements known ss ++ last (known.with (ss.flatMap (·.defined))) l

def braced (known : Sight) : Braced → List Fault
  | .mk _ b => block known b

end

theorem suffixes_append (known : Sight) (xs ys : List VarSuffix) :
    suffixes known (xs ++ ys) = suffixes known xs ++ suffixes known ys := by
  induction xs with
  | nil => simp [suffixes]
  | cons x rest ih => simp [suffixes, ih]

end Faults

end CommandScript
