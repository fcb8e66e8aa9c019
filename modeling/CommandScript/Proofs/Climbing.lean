import CommandScript.Parser.Basic
import CommandScript.Proofs.OperatorTree
import CommandScript.Proofs.Reading
/-!
# CommandScript — climbing from operator to operator

Behind an operand, the parser reads one operator after the other as long as they bind
tightly enough, and asks for the right operand of each with a bound of its own. What it
has read at any time is a tree that may be the left operand of the operator to come
(`Cursor.Climbed`): an operator at which a right operand ends binds too loosely to stand
in it, so it has the operator before it in its left operand.

An operator read on one level and one that is read inside a right operand both count
against the limit by one. So a row with no more operators than the limit has room for is
read to its end, whatever the operators are.
-/

namespace CommandScript

open Parse
open OperatorChain (tokensOf)

namespace Cursor

/-- The cursor behind tokens that were read without an issue. -/
def resume (c : Cursor) (upcoming : List Token) (last : Token) : Cursor :=
  { c with upcoming := upcoming, last := some last }

variable {c d e : Cursor}

@[simp] theorem resume_resume (c : Cursor) (us vs : List Token) (t u : Token) :
    (c.resume us t).resume vs u = c.resume vs u := rfl

/-- Of a row of operands at the cursor `c`, all was read that stands before the rest `left`.
It is the operands and operators of the tree `t`, all of which bind at least as tightly as
asked for. -/
structure Climbed (precedence : Nat) (row : OperatorChain) (c : Cursor) (t : OperatorTree)
    (left : List (BinaryOperator × Literal)) (d : Cursor) : Prop where
  first : t.first = row.first
  rest : row.rest = t.rest ++ left
  climbs : t.Climbs
  atLeast : t.AtLeast precedence
  forward : t.first.token.span.start ≤ t.final.token.span.stop
  cursor : d = c.resume (tokensOf left) t.final.token

namespace Climbed

variable {p : Nat} {row : OperatorChain} {t r : OperatorTree} {o : BinaryOperator} {x : Literal}
variable {left left' : List (BinaryOperator × Literal)}

theorem upcoming (h : Climbed p row c t left d) : d.upcoming = tokensOf left := by
  rw [h.cursor]; rfl

theorem lastStop (h : Climbed p row c t left d) : d.lastStop = t.final.token.span.stop := by
  rw [h.cursor]; rfl

theorem length_le (h : Climbed p row c t left d) : left.length ≤ row.rest.length := by
  rw [h.rest, List.length_append]
  omega

/-- An operand was read. -/
theorem leaf (hc : c.Sound) (hup : c.upcoming = row.tokens) :
    Climbed p row c (.leaf row.first) row.rest (c.resume (tokensOf row.rest) row.first.token) where
  first := rfl
  rest := rfl
  climbs := trivial
  atLeast := trivial
  forward := by
    have hfilled := hc.filled row.first.token (by rw [hup]; exact List.mem_cons_self)
    exact Nat.le_of_lt hfilled
  cursor := rfl

/-- An operator and its right operand were read. -/
theorem join (h : Climbed p row c t ((o, x) :: left) d) (hd : d.Sound) (hleft : t.LeftOf o)
    (hp : p ≤ o.precedence)
    (hr : Climbed o.rightPrecedence ⟨x, left⟩
      (d.resume (x.token :: tokensOf left) o.token) r left' e) :
    Climbed p row c (.join t o r) left' e where
  first := h.first
  rest := by
    have hrest : left = r.rest ++ left' := hr.rest
    have hfirst : r.first = x := hr.first
    rw [h.rest, OperatorTree.rest, List.append_assoc, List.cons_append, ← hrest, hfirst]
  climbs := ⟨h.climbs, hr.climbs, hleft, OperatorTree.rightOf_iff.2 hr.atLeast⟩
  atLeast := hp
  forward := by
    -- the right operand begins behind the token read last
    have hbehind := hd.behind x.token (by rw [h.upcoming]; simp)
    have hstart : r.first.token.span.start = x.token.span.start := by rw [hr.first]
    have hforward := hr.forward
    have hleft := h.forward
    rw [h.lastStop] at hbehind
    simp only [OperatorTree.first, OperatorTree.final]
    omega
  cursor := by rw [hr.cursor, h.cursor]; rfl

/-- The span of what was read up to here. -/
theorem spanFrom_eq (h : Climbed p row c (.join t o r) left d) :
    d.spanFrom t.expression.span.start = ⟨t.first.token.span.start, r.final.token.span.stop⟩ := by
  have hforward := h.forward
  simp only [OperatorTree.first, OperatorTree.final] at hforward
  rw [spanFrom, OperatorTree.span_start, h.lastStop, OperatorTree.final, Nat.max_eq_right hforward]

end Climbed

end Cursor

namespace Grammar

open Cursor

variable {limit depth : Nat} {self : (n : Nonterminal) → Parse n.Result} {c d : Cursor}

/-- A token is read, and nothing else happens. -/
theorem ends_bump_resume {t : Token} {rest : List Token} (h : c.upcoming = t :: rest) :
    bump.Ends c fun a d => a = t ∧ d = c.resume rest t := by
  have hbump : bump c = (t, c.resume rest t) := by
    simp only [bump, modifyGet, MonadStateOf.modifyGet, StateT.modifyGet, h]
    rfl
  exact fun hc => ⟨((ends_bump h) hc).1, by rw [hbump], by rw [hbump]⟩

theorem token_of_upcoming {t : Token} {rest : List Token} (h : c.upcoming = t :: rest) :
    c.token = t := by
  rw [Cursor.token, h, List.headD_cons]

/-- An operand is read where the nesting is not too deep. -/
theorem ends_operand_literal {x : Literal} {rest : List Token} (hdepth : depth ≤ limit)
    (h : c.upcoming = x.token :: rest) :
    (operand limit self depth false).Ends c fun r d =>
      r = some x.expression ∧ d = c.resume rest x.token := by
  have hkind : c.kind = x.token.kind := congrArg Token.kind (token_of_upcoming h)
  have hread {f : Token → Expression} (hf : f x.token = x.expression) :
      (do return some (f (← bump)) : Parse (Option Expression)).Ends c fun r d =>
        r = some x.expression ∧ d = c.resume rest x.token := by
    refine (ends_bump_resume h).bind fun t d ht => Ends.pure ?_
    obtain ⟨rfl, rfl⟩ := ht
    exact ⟨congrArg some hf, rfl⟩
  unfold operand
  rw [if_neg (Nat.not_lt_of_le hdepth)]
  refine Ends.get_bind ?_
  rw [hkind]
  have hmem := x.kind_mem
  simp only [List.mem_cons, List.not_mem_nil, or_false] at hmem
  obtain hk | hk | hk | hk | hk := hmem <;> rw [hk] <;>
    exact hread (by rw [Literal.expression, hk])

/-- Rows with fewer operators than given are read to where an operator binds too loosely. -/
def Climber (limit : Nat) (self : (n : Nonterminal) → Parse n.Result) (operators : Nat) : Prop :=
  ∀ {depth p : Nat} {c : Cursor} {row : OperatorChain}, c.upcoming = row.tokens →
    row.rest.length < operators → depth + row.rest.length ≤ limit →
    (self (.expression depth p)).Ends c fun r d => ∃ t left, r = some t.expression ∧
      Climbed p row c t left d ∧ ∀ e ∈ left.head?, e.1.precedence < p

/-- **One operator after the other is read.** What was read is a tree all along, which may
stand to the left of the operator to come. -/
theorem ends_operators_climbed {p chain n operators : Nat} {row : OperatorChain} {t : OperatorTree}
    {left : List (BinaryOperator × Literal)} (hself : Climber limit self operators)
    (hrow : row.rest.length ≤ operators) (hread : Climbed p row c t left d)
    (hnext : ∀ e ∈ left.head?, t.LeftOf e.1) (hn : left.length < n)
    (hlimit : depth + chain + left.length ≤ limit) :
    (Grammar.operators self depth p chain t.expression n).Ends d fun r d =>
      ∃ t left, r = t.expression ∧ Climbed p row c t left d ∧
        ∀ e ∈ left.head?, e.1.precedence < p := by
  induction n generalizing t left d chain with
  | zero => omega
  | succ n ih =>
    refine Ends.sound fun hd => Ends.get_bind ?_
    cases left with
    | nil =>
      have hnone : seesOperator d = false := by
        have hend : d.atEnd = true := hd.atEnd_iff.2 hread.upcoming
        have hkind : d.kind = .endOfInput := eq_of_beq hend
        rw [seesOperator, hkind]
        rfl
      rw [if_pos (by simp [hnone])]
      exact Ends.pure ⟨t, [], rfl, hread, by simp⟩
    | cons e left =>
      obtain ⟨o, x⟩ := e
      have hup : d.upcoming = o.token :: x.token :: tokensOf left := hread.upcoming
      have htoken := token_of_upcoming hup
      have hbinds : d.kind.precedence? = some o.precedence := by
        rw [Cursor.kind, htoken, o.binds]
      have hsees : seesOperator d = true := by
        rw [seesOperator, hbinds, onNewLine, htoken, o.onLine]
        rfl
      rw [if_neg (by simp [hsees]), hbinds]
      dsimp only
      split
      next hloose => exact Ends.pure ⟨t, _, rfl, hread, by simpa using hloose⟩
      next htight =>
      refine (ends_bump_resume hup).bind fun a d₁ hbump => ?_
      obtain ⟨rfl, rfl⟩ := hbump
      simp only [List.length_cons] at hn hlimit
      have hlength := hread.length_le
      simp only [List.length_cons] at hlength
      have hright := @hself (depth + chain + 1) o.rightPrecedence
        (d.resume (x.token :: tokensOf left) o.token) ⟨x, left⟩ rfl (by dsimp only; omega)
        (by dsimp only; omega)
      refine Ends.bind hright fun r d₂ hr => ?_
      obtain ⟨u, left', rfl, hclimbed, hstop⟩ := hr
      have hjoin := hread.join hd (hnext _ rfl) (Nat.le_of_not_lt htight) hclimbed
      rw [if_neg (by simp)]
      refine Ends.spanFrom_bind ?_
      rw [hjoin.spanFrom_eq, if_neg (by simp)]
      refine ih hjoin (fun e he => ?_) ?_ ?_
      · exact OperatorTree.leftOf_iff.2 (BinaryOperator.leftPrecedence_le (hstop e he))
      · have := hclimbed.length_le
        dsimp only at this
        omega
      · have := hclimbed.length_le
        dsimp only at this
        omega

/-- An operand is read, and the operators behind it. -/
theorem climber_read (limit budget : Nat) : Climber limit (read limit (budget + 1)) budget := by
  induction budget with
  | zero => exact fun _ h => absurd h (Nat.not_lt_zero _)
  | succ budget ih =>
    intro depth p c row hup hlength hlimit
    refine Ends.sound fun hc => ?_
    change (expression (read limit (budget + 1)) depth p).Ends c _
    have hfirst : (read limit (budget + 1) (.operand depth false)).Ends c fun r d =>
        r = some row.first.expression ∧ d = c.resume (tokensOf row.rest) row.first.token :=
      ends_operand_literal (by omega) hup
    refine hfirst.bind fun r d hr => ?_
    obtain ⟨rfl, rfl⟩ := hr
    have hleaf := Climbed.leaf (p := p) hc hup
    refine Ends.map (Ends.get_bind ?_)
    refine (ends_operators_climbed ih (by omega) hleaf (fun _ _ => trivial) ?_ hlimit).imp
      fun r d _ hr => ?_
    · have := OperatorChain.length_tokensOf row.rest
      rw [hleaf.upcoming]
      omega
    · obtain ⟨t, left, rfl, hclimbed, hstop⟩ := hr
      exact ⟨t, left, rfl, hclimbed, hstop⟩

/-- **A row of operands and operators is read as the one right tree.** Where no more operators
stand in it than the limit has room for, all of it is read and nothing is reported. What is
read are its operands and operators in their order, put together such that what binds
tighter stands deeper, and this can be done in one way only. -/
theorem exists_climbs_of_readHere {limit depth : Nat} {c : Cursor} (hc : c.Sound)
    (row : OperatorChain) (hup : c.upcoming = row.tokens)
    (hlimit : depth + row.rest.length ≤ limit) :
    ∃ tree : OperatorTree, tree.tokens = row.tokens ∧ tree.Climbs ∧
      (∀ other : OperatorTree, other.tokens = row.tokens → other.Climbs → other = tree) ∧
      readHere limit (.expression depth 1) c =
        (some tree.expression, { c with upcoming := [], last := some tree.final.token }) := by
  have hlength : c.upcoming.length = 2 * row.rest.length + 1 := by
    rw [hup, OperatorChain.tokens, List.length_cons, OperatorChain.length_tokensOf]
  obtain ⟨budget, hbudget⟩ : ∃ budget, budgetFor c.upcoming.length = budget + 1 :=
    ⟨4 * (c.upcoming.length + 2) - 1, by unfold budgetFor; omega⟩
  have hfit : row.rest.length < budget := by
    unfold budgetFor at hbudget
    omega
  have hends : (readHere limit (.expression depth 1)).Ends c fun r d => ∃ t left,
      r = some t.expression ∧ Climbed 1 row c t left d ∧ ∀ e ∈ left.head?, e.1.precedence < 1 := by
    refine Ends.get_bind ?_
    rw [hbudget]
    exact climber_read limit budget hup hfit hlimit
  obtain ⟨-, t, left, hr, hclimbed, hstop⟩ := hends hc
  -- every operator binds tightly enough to be read
  obtain rfl : left = [] := by
    cases left with
    | nil => rfl
    | cons e left =>
      have hpos := e.1.precedence_pos
      have hloose := hstop e rfl
      omega
  have hrow : row = ⟨t.first, t.rest⟩ := by
    obtain ⟨x, rest⟩ := row
    have hrest : rest = t.rest ++ [] := hclimbed.rest
    rw [List.append_nil] at hrest
    rw [hclimbed.first, hrest]
  refine ⟨t, by rw [t.tokens_eq, hrow], hclimbed.climbs, fun other hother hclimbs => ?_, ?_⟩
  · rw [other.tokens_eq] at hother
    have heq := OperatorChain.eq_of_tokens_eq (hother.trans (congrArg _ hrow))
    exact OperatorTree.eq_of_climbs hclimbs hclimbed.climbs (congrArg OperatorChain.first heq)
      (congrArg OperatorChain.rest heq)
  · exact Prod.ext hr hclimbed.cursor

/-- The operands and operators of `9 - 2 ^ 3 ^ 2`. -/
def powersRow : OperatorChain :=
  let blank : TokenFlags := { triviaBefore := true }
  let minus : BinaryOperator := ⟨⟨.minus, "-", ⟨2, 3⟩, blank⟩, 4, rfl, rfl⟩
  let caret (start : Nat) : BinaryOperator :=
    ⟨⟨.caret, "^", ⟨start, start + 1⟩, blank⟩, 6, rfl, rfl⟩
  let digit (text : String) (start : Nat) (flags : TokenFlags) : Literal :=
    ⟨⟨.number, text, ⟨start, start + 1⟩, flags⟩, List.mem_of_elem_eq_true rfl⟩
  ⟨digit "9" 0 {}, [(minus, digit "2" 4 blank), (caret 6, digit "3" 8 blank),
    (caret 10, digit "2" 12 blank)]⟩

/-- A text with as many operators as the limit is read to its end. -/
theorem exists_climbs_powers :
    let c := Cursor.ofTokens (Token.tokenize "9 - 2 ^ 3 ^ 2")
    c.Sound ∧ c.upcoming = powersRow.tokens ∧ 0 + powersRow.rest.length ≤ 3 ∧
      ∃ tree : OperatorTree, tree.tokens = powersRow.tokens ∧ tree.Climbs ∧
        (∀ other : OperatorTree, other.tokens = powersRow.tokens → other.Climbs → other = tree) ∧
        readHere 3 (.expression 0 1) c =
          (some tree.expression, { c with upcoming := [], last := some tree.final.token }) := by
  obtain ⟨-, -, -, -, -, -, hsound⟩ := Cursor.ofTokens_tokenize "9 - 2 ^ 3 ^ 2"
  have hup : (Cursor.ofTokens (Token.tokenize "9 - 2 ^ 3 ^ 2")).upcoming = powersRow.tokens := by
    decide +kernel
  have hlimit : 0 + powersRow.rest.length ≤ 3 := by decide
  exact ⟨hsound, hup, hlimit, exists_climbs_of_readHere hsound powersRow hup hlimit⟩

end Grammar

end CommandScript
