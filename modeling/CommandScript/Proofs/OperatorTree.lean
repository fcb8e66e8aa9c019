import CommandScript.Parser.Precedence
import CommandScript.Tree.Basic
/-!
# CommandScript — operands and the operators between them

A row of operands with binary operators between them can be put into brackets in many
ways, and each of them is a tree. One of these trees is right: what binds tighter stands
deeper, and of operators that bind equally those that group to the left are nested to the
left, the others to the right.

`OperatorTree.Climbs` says this of a tree by looking at each operator and its operands
alone. It follows that no operator inside an operand binds looser than the one outside, so
the root of the tree can be told from the row (`eq_of_climbs`).
-/

namespace CommandScript

/-- A token that is an operand by itself. -/
structure Literal where
  token : Token
  kind_mem : token.kind ∈ [TokenKind.kwNil, .kwTrue, .kwFalse, .number, .string]

/-- A binary operator, on the line of what stands before it. -/
structure BinaryOperator where
  token : Token
  precedence : Nat
  binds : token.kind.precedence? = some precedence
  onLine : token.flags.lineBreakBefore = false

/-- An operand, and others behind it with an operator before each. -/
structure OperatorChain where
  first : Literal
  rest : List (BinaryOperator × Literal)

/-- Operands put together by operators. -/
inductive OperatorTree where
  | leaf (operand : Literal)
  | join (left : OperatorTree) (operator : BinaryOperator) (right : OperatorTree)

theorem Literal.eq_of_token_eq {x y : Literal} (h : x.token = y.token) : x = y := by
  cases x
  cases y
  cases h
  rfl

/-- What reading the operand gives. -/
def Literal.expression (x : Literal) : Expression :=
  match x.token.kind with
  | .kwNil => .nil x.token
  | .kwTrue | .kwFalse => .boolean x.token
  | .number => .number x.token
  | _ => .string x.token

namespace BinaryOperator

variable {o q : BinaryOperator}

theorem eq_of_token_eq (h : o.token = q.token) : o = q := by
  obtain ⟨t, p, hp, hline⟩ := o
  obtain ⟨u, p', hp', hline'⟩ := q
  obtain rfl : t = u := h
  obtain rfl : p = p' := Option.some.inj (hp.symm.trans hp')
  rfl

/-- Chains of the operator group to the right. -/
def groupsRight (o : BinaryOperator) : Bool := o.token.kind.groupsRight

/-- How tightly an operator binds at least inside the left operand. -/
def leftPrecedence (o : BinaryOperator) : Nat :=
  if o.groupsRight then o.precedence + 1 else o.precedence

/-- How tightly an operator binds at least inside the right operand. -/
def rightPrecedence (o : BinaryOperator) : Nat :=
  if o.groupsRight then o.precedence else o.precedence + 1

theorem precedence_le_leftPrecedence (o : BinaryOperator) : o.precedence ≤ o.leftPrecedence := by
  unfold leftPrecedence
  split <;> omega

theorem precedence_le_rightPrecedence (o : BinaryOperator) : o.precedence ≤ o.rightPrecedence := by
  unfold rightPrecedence
  split <;> omega

/-- Every operator binds. -/
theorem precedence_pos (o : BinaryOperator) : 0 < o.precedence := by
  have hall (k : TokenKind) : ∀ p ∈ k.precedence?, 0 < p := by cases k <;> decide
  exact hall _ _ o.binds

/-- Operators that bind equally group to the same side. -/
theorem groupsRight_eq (h : o.precedence = q.precedence) : o.groupsRight = q.groupsRight := by
  have hall (k : TokenKind) : ∀ p ∈ k.precedence?, k.groupsRight = decide (p = 3 ∨ p = 6) := by
    cases k <;> decide
  rw [groupsRight, groupsRight, hall _ _ o.binds, hall _ _ q.binds, h]

/-- An operator that may not stand inside the right operand has the other one inside its
left operand. -/
theorem leftPrecedence_le (h : q.precedence < o.rightPrecedence) :
    q.leftPrecedence ≤ o.precedence := by
  have hside : o.precedence = q.precedence → o.groupsRight = q.groupsRight := groupsRight_eq
  unfold rightPrecedence at h
  unfold leftPrecedence
  cases ho : o.groupsRight <;> cases hq : q.groupsRight <;> simp [ho, hq] at h hside ⊢ <;> omega

/-- Of two operators one at most can stand inside an operand of the other: the second one to
the right of the first, or the first one to the left of the second. -/
theorem not_both_inside (hleft : q.leftPrecedence ≤ o.precedence)
    (hright : o.rightPrecedence ≤ q.precedence) : False := by
  have hside : o.precedence = q.precedence → o.groupsRight = q.groupsRight := groupsRight_eq
  unfold rightPrecedence at hright
  unfold leftPrecedence at hleft
  cases ho : o.groupsRight <;> cases hq : q.groupsRight <;>
    simp [ho, hq] at hleft hright hside <;> omega

end BinaryOperator

namespace OperatorChain

/-- The tokens of operands with operators before them. -/
def tokensOf (rest : List (BinaryOperator × Literal)) : List Token :=
  rest.flatMap fun (o, x) => [o.token, x.token]

/-- The operands and operators in their order. -/
def tokens (c : OperatorChain) : List Token := c.first.token :: tokensOf c.rest

@[simp] theorem tokensOf_nil : tokensOf [] = [] := rfl

@[simp] theorem tokensOf_cons (o : BinaryOperator) (x : Literal)
    (rest : List (BinaryOperator × Literal)) :
    tokensOf ((o, x) :: rest) = o.token :: x.token :: tokensOf rest := rfl

@[simp] theorem tokensOf_append (us vs : List (BinaryOperator × Literal)) :
    tokensOf (us ++ vs) = tokensOf us ++ tokensOf vs := List.flatMap_append

theorem length_tokensOf (rest : List (BinaryOperator × Literal)) :
    (tokensOf rest).length = 2 * rest.length := by
  induction rest with
  | nil => rfl
  | cons u rest ih =>
    obtain ⟨o, x⟩ := u
    simp only [tokensOf_cons, List.length_cons, ih]
    omega

theorem tokensOf_inj {us vs : List (BinaryOperator × Literal)} (h : tokensOf us = tokensOf vs) :
    us = vs := by
  induction us generalizing vs with
  | nil =>
    cases vs with
    | nil => rfl
    | cons v vs => cases h
  | cons u us ih =>
    cases vs with
    | nil => cases h
    | cons v vs =>
      obtain ⟨o, x⟩ := u
      obtain ⟨q, y⟩ := v
      simp only [tokensOf_cons, List.cons.injEq] at h
      obtain ⟨ho, hx, hrest⟩ := h
      rw [BinaryOperator.eq_of_token_eq ho, Literal.eq_of_token_eq hx, ih hrest]

/-- A row is told by its tokens. -/
theorem eq_of_tokens_eq {c d : OperatorChain} (h : c.tokens = d.tokens) : c = d := by
  obtain ⟨x, us⟩ := c
  obtain ⟨y, vs⟩ := d
  obtain ⟨hfirst, hrest⟩ := List.cons.inj h
  obtain rfl : x = y := Literal.eq_of_token_eq hfirst
  obtain rfl : us = vs := tokensOf_inj hrest
  rfl

end OperatorChain

namespace OperatorTree

open OperatorChain (tokensOf)

/-- The operand that stands first. -/
def first : OperatorTree → Literal
  | .leaf x => x
  | .join l _ _ => l.first

/-- The operand that stands last. -/
def final : OperatorTree → Literal
  | .leaf x => x
  | .join _ _ r => r.final

/-- The operands behind the first one, with the operators before them. -/
def rest : OperatorTree → List (BinaryOperator × Literal)
  | .leaf _ => []
  | .join l o r => l.rest ++ (o, r.first) :: r.rest

/-- The operands and operators in order: those to the left, the operator, those to the
right. -/
def tokens : OperatorTree → List Token
  | .leaf x => [x.token]
  | .join l o r => l.tokens ++ o.token :: r.tokens

/-- What reading the operands and operators gives. -/
def expression : OperatorTree → Expression
  | .leaf x => x.expression
  | .join l o r => .binary l.expression o.token (some r.expression)
      ⟨l.first.token.span.start, r.final.token.span.stop⟩

/-- An operator at the root binds at least so tightly. -/
def AtLeast (p : Nat) : OperatorTree → Prop
  | .leaf _ => True
  | .join _ o _ => p ≤ o.precedence

/-- What the tree may be the left operand of: an operator inside binds tighter, or as tight if
such operators group to the left. -/
def LeftOf (o : BinaryOperator) : OperatorTree → Prop
  | .leaf _ => True
  | .join _ q _ =>
    if o.groupsRight then o.precedence < q.precedence else o.precedence ≤ q.precedence

/-- What the tree may be the right operand of: an operator inside binds tighter, or as tight
if such operators group to the right. -/
def RightOf (o : BinaryOperator) : OperatorTree → Prop
  | .leaf _ => True
  | .join _ q _ =>
    if o.groupsRight then o.precedence ≤ q.precedence else o.precedence < q.precedence

/-- At every operator of the tree, the operands are such as may stand there. -/
def Climbs : OperatorTree → Prop
  | .leaf _ => True
  | .join l o r => l.Climbs ∧ r.Climbs ∧ l.LeftOf o ∧ r.RightOf o

variable {t u : OperatorTree} {o : BinaryOperator}

theorem leftOf_iff : t.LeftOf o ↔ t.AtLeast o.leftPrecedence := by
  cases t with
  | leaf => exact Iff.rfl
  | join l q r =>
    simp only [LeftOf, AtLeast, BinaryOperator.leftPrecedence]
    split <;> exact Iff.rfl

theorem rightOf_iff : t.RightOf o ↔ t.AtLeast o.rightPrecedence := by
  cases t with
  | leaf => exact Iff.rfl
  | join l q r =>
    simp only [RightOf, AtLeast, BinaryOperator.rightPrecedence]
    split <;> exact Iff.rfl

theorem AtLeast.mono {p p' : Nat} (h : t.AtLeast p) (hp : p' ≤ p) : t.AtLeast p' := by
  cases t with
  | leaf => trivial
  | join l q r => exact Nat.le_trans hp h

/-- The tokens of a tree are those of its operands and operators. -/
theorem tokens_eq (t : OperatorTree) : t.tokens = (⟨t.first, t.rest⟩ : OperatorChain).tokens := by
  induction t with
  | leaf x => rfl
  | join l o r ihl ihr =>
    rw [tokens, ihl, ihr]
    simp [OperatorChain.tokens, first, rest]

/-- What is read begins with its first operand. -/
theorem span_start (t : OperatorTree) :
    t.expression.span.start = t.first.token.span.start := by
  induction t with
  | leaf x =>
    unfold expression Literal.expression
    split <;> rfl
  | join l o r => rfl

/-- **The root binds loosest.** -/
theorem Climbs.le_precedence {p : Nat} (h : t.Climbs) (hp : t.AtLeast p) :
    ∀ e ∈ t.rest, p ≤ e.1.precedence := by
  induction t generalizing p with
  | leaf x => exact fun e he => absurd he List.not_mem_nil
  | join l o r ihl ihr =>
    obtain ⟨hl, hr, hleft, hright⟩ := h
    have hleast : p ≤ o.precedence := hp
    intro e he
    obtain he | he := List.mem_append.1 he
    · have hmono := Nat.le_trans hleast o.precedence_le_leftPrecedence
      exact ihl hl ((leftOf_iff.1 hleft).mono hmono) e he
    · obtain rfl | he := List.mem_cons.1 he
      · exact hleast
      · have hmono := Nat.le_trans hleast o.precedence_le_rightPrecedence
        exact ihr hr ((rightOf_iff.1 hright).mono hmono) e he

/-- What stands before the root of one tree does not reach over the root of the other. -/
theorem rest_of_append_eq {l r l' r' : OperatorTree} {o o' : BinaryOperator}
    (h : (join l o r).Climbs) (h' : (join l' o' r').Climbs)
    {passed : List (BinaryOperator × Literal)} (hl : l'.rest = l.rest ++ passed)
    (hr : (o, r.first) :: r.rest = passed ++ (o', r'.first) :: r'.rest) : passed = [] := by
  obtain ⟨-, hclimbs, -, hright⟩ := h
  obtain ⟨hclimbs', -, hleft, -⟩ := h'
  cases passed with
  | nil => rfl
  | cons e passed =>
    obtain ⟨rfl, hrest⟩ := List.cons.inj hr
    -- then each of the two operators stands inside an operand of the other
    have hout : (o', r'.first) ∈ r.rest := by
      rw [hrest]
      exact List.mem_append_right _ List.mem_cons_self
    have hin : (o, r.first) ∈ l'.rest := by
      rw [hl]
      exact List.mem_append_right _ List.mem_cons_self
    exact (BinaryOperator.not_both_inside
      (hclimbs'.le_precedence (leftOf_iff.1 hleft) _ hin)
      (hclimbs.le_precedence (rightOf_iff.1 hright) _ hout)).elim

/-- **There is one such tree at most** for a row of operands and operators. -/
theorem eq_of_climbs (ht : t.Climbs) (hu : u.Climbs) (hfirst : t.first = u.first)
    (hrest : t.rest = u.rest) : t = u := by
  induction t generalizing u with
  | leaf x =>
    cases u with
    | leaf y => exact congrArg leaf hfirst
    | join l o r => simp [rest] at hrest
  | join l o r ihl ihr =>
    cases u with
    | leaf y => simp [rest] at hrest
    | join l' o' r' =>
      have hroot : l.rest = l'.rest ∧ (o, r.first) :: r.rest = (o', r'.first) :: r'.rest := by
        obtain ⟨passed, hl, hr⟩ | ⟨passed, hl, hr⟩ := List.append_eq_append_iff.1 hrest
        · obtain rfl := rest_of_append_eq ht hu hl hr
          exact ⟨by rw [hl, List.append_nil], hr⟩
        · obtain rfl := rest_of_append_eq hu ht hl hr
          exact ⟨by rw [hl, List.append_nil], hr.symm⟩
      obtain ⟨hl, hr⟩ := hroot
      simp only [List.cons.injEq, Prod.mk.injEq] at hr
      obtain ⟨⟨rfl, hfirst'⟩, hr⟩ := hr
      rw [ihl ht.1 hu.1 hfirst hl, ihr ht.2.1 hu.2.1 hfirst' hr]

end OperatorTree

end CommandScript
