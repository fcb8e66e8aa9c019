import CommandScript.Value.Equality
import CommandScript.Value.Format
import CommandScript.Number.Arithmetic
import CommandScript.Token.Kind
/-!
# CommandScript — operators

What an operator gives for values, or why it gives nothing. `and` and `or` are
not here: they decide whether their right side is evaluated at all.

An operator refuses operands of the wrong kind. One condition is not refused but
crashes: zero raised to a negative power.
-/

namespace CommandScript

/-- Why an operator refuses its operands. -/
inductive Refusal where
  | operands (verb : String) (left right : ValueKind)
  | divisionByZero
  | tooLarge (verb : String)
  | notReal (verb left right : String)
  | incomparable (left right : ValueKind)
  | concatenation (kind : ValueKind)
  | concatenationDigits
  | negation (kind : ValueKind)
  | noBinary (kind : TokenKind)
  | noUnary (kind : TokenKind)
  deriving DecidableEq, Repr

namespace Refusal

def message : Refusal → String
  | operands verb left right => "Cannot " ++ verb ++ " " ++ left.name ++ " and " ++ right.name
  | divisionByZero => "Division by zero"
  | tooLarge verb => "Number too large to " ++ verb
  | notReal verb left right =>
    "Cannot " ++ verb ++ " " ++ left ++ " and " ++ right ++ ": result is not a real number"
  | incomparable left right => "Cannot compare " ++ left.name ++ " with " ++ right.name
  | concatenation kind => "Cannot concatenate a " ++ kind.name ++ " value"
  | concatenationDigits => "Cannot concatenate a number with that many digits"
  | negation kind => "Cannot negate " ++ kind.name
  | noBinary kind => "Unsupported binary operator " ++ kind.label
  | noUnary kind => "Unsupported unary operator " ++ kind.label

end Refusal

/-- Why an operator gives nothing. -/
inductive OperatorFault where
  | refused (refusal : Refusal)
  | crashed (crash : Crash)
  deriving DecidableEq, Repr

namespace Operator

/-- An arithmetic operation under the verb it is called by. -/
structure Arithmetic where
  verb : String
  apply : Number → Number → Except Number.Fault Number
  /-- A zero on the right is refused. -/
  divides : Bool := false

/-- The arithmetic operation of an operator. -/
def arithmetic? : TokenKind → Option Arithmetic
  | .plus => some ⟨"add", Number.add, false⟩
  | .minus => some ⟨"subtract", Number.sub, false⟩
  | .star => some ⟨"multiply", Number.mul, false⟩
  | .slash => some ⟨"divide", Number.div, true⟩
  | .slashSlash => some ⟨"divide", Number.floorDiv, true⟩
  | .percent => some ⟨"take the modulo of", Number.mod, true⟩
  | .caret => some ⟨"exponentiate", Number.pow, false⟩
  | _ => none

/-- The orders in which a comparison holds. -/
def comparison? : TokenKind → Option (List Ordering)
  | .lessThan => some [.lt]
  | .lessThanOrEqual => some [.lt, .eq]
  | .greaterThan => some [.gt]
  | .greaterThanOrEqual => some [.gt, .eq]
  | _ => none

/-- The result of an arithmetic operation. -/
def compute (op : Arithmetic) (left right : Value) : Except OperatorFault Value :=
  match left, right with
  | .number a, .number b =>
    if op.divides && b.isZero then .error (.refused .divisionByZero)
    else match op.apply a b with
      | .ok n => .ok (.number n)
      | .error .tooLarge => .error (.refused (.tooLarge op.verb))
      | .error .zeroToNegativePower => .error (.crashed .zeroToNegativePower)
      | .error .notReal =>
        match a.exactText?, b.exactText? with
        | some x, some y => .error (.refused (.notReal op.verb x y))
        | _, _ => .error (.crashed .tooManyDigits)
  | _, _ => .error (.refused (.operands op.verb left.kind right.kind))

/-- The order of two texts, by code points. -/
def compareText (a b : String) : Ordering := if a < b then .lt else if a == b then .eq else .gt

/-- The result of a comparison: numbers with numbers and texts with texts. What is
no number is in no order with anything. -/
def compare (holds : List Ordering) (left right : Value) : Except OperatorFault Value :=
  match left, right with
  | .number a, .number b => .ok (.bool ((a.compare? b).any holds.contains))
  | .string a, .string b => .ok (.bool (holds.contains (compareText a b)))
  | _, _ => .error (.refused (.incomparable left.kind right.kind))

/-- Containers and functions cannot be concatenated. -/
def joins : Value → Bool
  | .vector _ | .table _ | .lambda _ | .command _ | .method .. => false
  | _ => true

/-- The texts of two values, joined. -/
def concat (h : Heap) (left right : Value) : Except OperatorFault Value :=
  if !joins left then .error (.refused (.concatenation left.kind))
  else if !joins right then .error (.refused (.concatenation right.kind))
  else match (do return (← h.display left) ++ (← h.display right) : Except Crash String) with
    | .ok s => .ok (.string s)
    | .error .tooManyDigits => .error (.refused .concatenationDigits)
    | .error c => .error (.crashed c)

/-- The answer of an equality test, as it is or turned around. -/
def equality (h : Heap) (left right : Value) (wanted : Bool) : Except OperatorFault Value :=
  match h.equal left right with
  | .ok b => .ok (.bool (b == wanted))
  | .error c => .error (.crashed c)

/-- The result of a binary operator. -/
def binary (h : Heap) (k : TokenKind) (left right : Value) : Except OperatorFault Value :=
  match arithmetic? k, comparison? k with
  | some op, _ => compute op left right
  | _, some holds => compare holds left right
  | none, none =>
    match k with
    | .equalEqual => equality h left right true
    | .notEqual | .tildeEqual => equality h left right false
    | .dotDot => concat h left right
    | _ => .error (.refused (.noBinary k))

/-- The result of a unary operator. -/
def unary (k : TokenKind) (v : Value) : Except OperatorFault Value :=
  match k, v with
  | .bang, v => .ok (.bool (!v.isTruthy))
  | .minus, .number n => .ok (.number n.neg)
  | .minus, v => .error (.refused (.negation v.kind))
  | k, _ => .error (.refused (.noUnary k))

end Operator

end CommandScript
