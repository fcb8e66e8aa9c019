import CommandScript.Token.Kind
/-!
# CommandScript — precedence of binary operators

How tightly a binary operator binds, from 1 for `and` and `or` to 6 for `^`.
Unary operators bind tighter than all of these. Powers and concatenation group
to the right, everything else to the left.
-/

namespace CommandScript.TokenKind

/-- How tightly a binary operator binds; none for what is no binary operator. -/
def precedence? : TokenKind → Option Nat
  | .kwAnd | .kwOr => some 1
  | .equalEqual | .notEqual | .tildeEqual | .greaterThan | .lessThan | .greaterThanOrEqual
  | .lessThanOrEqual => some 2
  | .dotDot => some 3
  | .plus | .minus => some 4
  | .star | .slash | .slashSlash | .percent => some 5
  | .caret => some 6
  | _ => none

/-- Chains of the operator group to the right. -/
def groupsRight (k : TokenKind) : Bool := k == .caret || k == .dotDot

/-- The least precedence of an operator inside the right operand. -/
def rightPrecedence (k : TokenKind) (precedence : Nat) : Nat :=
  if k.groupsRight then precedence else precedence + 1

/-- The kinds with a precedence are the binary operators. -/
theorem precedence?_isSome (k : TokenKind) : k.precedence?.isSome = k.isBinaryOperator := by
  cases k <;> decide

end CommandScript.TokenKind
