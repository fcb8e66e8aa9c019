import CommandScript.Parser.Grammar
import CommandScript.Tree.Relocation
import Mathlib.Data.List.Forall2
/-!
# CommandScript — two texts side by side

Two texts are read at the same time, and as far as the left one goes the right one has the
same tokens, in other places. `View` says which places are taken for the same and what the
right text has behind the left one. Either both end together, or what comes then in the
right text begins a statement on a line of its own (`View.ending`).

`View.Along` relates two cursors on their way. Beside it stands what the grammar asks a
cursor: as long as there is something to read on the left, or nothing more on the right,
both cursors answer alike, and most questions are answered alike even where the left text
is over.
-/

namespace CommandScript

/-- The same stands before two tokens. -/
def Token.SameMarks (t t' : Token) : Prop :=
  t.flags.lineBreakBefore = t'.flags.lineBreakBefore ∧
    t.flags.triviaBefore = t'.flags.triviaBefore

/-- The token comes first on a line. -/
def Token.OnLine (t : Token) : Prop :=
  t.flags.lineBreakBefore = true ∧ t.flags.triviaBefore = true

namespace Grammar

/-- Kinds that stand first in a statement, or where no more statement comes. -/
def lineStart : List TokenKind :=
  [.endOfInput, .semicolon, .kwIf, .kwWhile, .kwFor] ++ lastStart ++ expressionStart

/-- Two lists of tokens close the brackets alike that were opened before. -/
def SameNesting (us vs : List Token) : Prop :=
  ∀ n, closesBeforeEquals (n + 1) us = closesBeforeEquals (n + 1) vs

end Grammar

/-- What is the same in two texts, and how they go on behind it. -/
structure View where
  left : Relocation
  right : Relocation
  /-- Tokens that are the same begin at the one offset and at the other. -/
  start : Nat → Nat → Prop
  /-- The one offset and the other are the same place. -/
  place : Nat → Nat → Prop
  /-- What the right text has behind the left one. -/
  tail : List Token
  leftEnd : Token
  rightEnd : Token
  /-- The texts are the same to the end, and a mistake in the one is one in the other. -/
  exact : Prop
  span_eq : ∀ s s', left.span s = right.span s' ↔ place s.start s'.start ∧ place s.stop s'.stop
  place_of_start : ∀ {s s'}, start s s' → place s s'
  cover : ∀ {s s' t t'}, place s s' → place t t' → place (max s t) (max s' t')
  order : ∀ {s s' t t'}, start s s' → start t t' → (s < t ↔ s' < t')
  leftEnd_kind : leftEnd.kind = .endOfInput
  rightEnd_kind : rightEnd.kind = .endOfInput
  ends_start : exact → start leftEnd.span.start rightEnd.span.start
  seam_kind : (tail.headD rightEnd).kind ∈ Grammar.lineStart
  ending : tail = [] ∧ leftEnd.SameMarks rightEnd ∨ ¬ exact ∧ (tail.headD rightEnd).OnLine

namespace View

open Grammar

variable (V : View)

/-- Two tokens are the same but for their places. -/
structure Same (t t' : Token) : Prop where
  token : V.left.token t = V.right.token t'
  start : V.start t.span.start t'.span.start

/-- The tokens that are left, one by one, and behind them what the right text has more.
What stands before the first one has to be the same only if it is said so. -/
inductive Facing : Prop → List Token → List Token → Prop
  | nil {marked} : Facing marked [] V.tail
  | cons {marked t t' us us'} : V.Same t t' → (marked → t.SameMarks t') →
      t.kind ≠ .endOfInput → (V.exact ∨ t.kind ≠ .unknown) → Facing True us us' →
      Facing marked (t :: us) (t' :: us')

/-- It is known of the next token what stands before it. -/
def Began (c : Cursor) : Prop := V.exact ∨ c.last.isSome = true

/-- Two cursors on their way. -/
structure Along (c c' : Cursor) : Prop where
  facing : V.Facing (V.Began c) c.upcoming c'.upcoming
  leftEnd : c.ending = V.leftEnd
  rightEnd : c'.ending = V.rightEnd
  text : V.Began c → c.last.map Token.text = c'.last.map Token.text
  stop : ∀ {s s'}, V.place s s' → V.place (max s c.lastStop) (max s' c'.lastStop)
  /-- Where the right text goes on, the left one does not end with the bar of a lambda. -/
  bar : V.tail ≠ [] → ∀ t ∈ c.upcoming.getLast?.or c.last, t.kind ≠ .pipe
  found : List.Forall₂ (fun i i' => i.code = i'.code ∧ V.start i.span.start i'.span.start)
    c.found c'.found
  deep : c.deepReported = c'.deepReported

/-- There is something to read on the left, or nothing more on the right. -/
def Inside (c : Cursor) : Prop := V.tail = [] ∨ c.upcoming ≠ []

variable {V} {c c' : Cursor} {t t' : Token} {us us' : List Token} {k : TokenKind}

namespace Same

variable (h : V.Same t t')
include h

theorem kind : t.kind = t'.kind := by simpa using congrArg Token.kind h.token

theorem text : t.text = t'.text := by simpa using congrArg Token.text h.token

theorem span : V.left.span t.span = V.right.span t'.span := congrArg Token.span h.token

theorem place_start : V.place t.span.start t'.span.start := ((V.span_eq _ _).1 h.span).1

theorem place_stop : V.place t.span.stop t'.span.stop := ((V.span_eq _ _).1 h.span).2

end Same

/-! ## The ends -/

theorem tail_nil (h : V.exact) : V.tail = [] :=
  V.ending.elim (·.1) fun h' => absurd h h'.1

theorem not_exact (h : V.tail ≠ []) : ¬ V.exact := fun he => h (tail_nil he)

/-- Where the right text goes on, it does so on a new line. -/
theorem onLine (h : V.tail ≠ []) : (V.tail.headD V.rightEnd).OnLine :=
  V.ending.elim (fun h' => absurd h'.1 h) (·.2)

theorem headD_of_tail_nil (h : V.tail = []) : V.tail.headD V.rightEnd = V.rightEnd := by
  rw [h, List.headD_nil]

namespace Facing

variable {marked : Prop}

theorem of_true (h : V.Facing True us us') : V.Facing marked us us' := by
  cases h with
  | nil => exact .nil
  | cons hsame hmarks hend hunknown hrest =>
    exact .cons hsame (fun _ => hmarks trivial) hend hunknown hrest

theorem length (h : V.Facing marked us us') : us'.length = us.length + V.tail.length := by
  induction h with
  | nil => rw [List.length_nil, Nat.zero_add]
  | cons _ _ _ _ _ ih => simp only [List.length_cons, ih, Nat.add_right_comm]

/-- Tokens that nothing more stands behind are closed alike. -/
theorem closesBeforeEquals_eq (htail : V.tail = []) (h : V.Facing marked us us') (n : Nat) :
    closesBeforeEquals n us = closesBeforeEquals n us' := by
  induction h generalizing n with
  | nil => rw [htail]
  | @cons _ t t' us us' hsame _ _ _ hrest ih =>
    have hhead : us.head?.any (·.kind == .equal) = us'.head?.any (·.kind == .equal) := by
      cases hrest with
      | nil => rw [htail]
      | cons hsame' => simp [hsame'.kind]
    simp only [closesBeforeEquals, hsame.kind, ih, hhead]

/-- What is closed on the left is closed on the right. -/
theorem closesBeforeEquals_of_left (h : V.Facing marked us us') {n : Nat}
    (hleft : closesBeforeEquals n us = true) : closesBeforeEquals n us' = true := by
  induction h generalizing n with
  | nil => cases hleft
  | @cons _ t t' us us' hsame _ _ _ hrest ih =>
    have hhead : us.head?.any (·.kind == .equal) = true → us'.head?.any (·.kind == .equal) = true := by
      cases hrest with
      | nil => exact fun h => nomatch h
      | cons hsame' => simp [hsame'.kind]
    rw [closesBeforeEquals] at hleft ⊢
    rw [← hsame.kind]
    by_cases hopen : t.kind = .leftBracket
    · rw [if_pos hopen] at hleft ⊢
      exact ih hleft
    rw [if_neg hopen] at hleft ⊢
    by_cases hclose : t.kind = .rightBracket
    · rw [if_pos hclose] at hleft ⊢
      by_cases hn : n = 1
      · rw [if_pos hn] at hleft ⊢
        exact hhead hleft
      · rw [if_neg hn] at hleft ⊢
        exact ih hleft
    · rw [if_neg hclose] at hleft ⊢
      exact ih hleft

end Facing

namespace Along

variable (h : V.Along c c')
include h

/-- Nothing is left on the left, or there is a token on both sides. -/
theorem cases : (c.upcoming = [] ∧ c'.upcoming = V.tail) ∨ ∃ t t' us us',
    c.upcoming = t :: us ∧ c'.upcoming = t' :: us' ∧ V.Same t t' ∧
      (V.Began c → t.SameMarks t') ∧ t.kind ≠ .endOfInput ∧
      (V.exact ∨ t.kind ≠ .unknown) ∧ V.Facing True us us' := by
  have hfacing := h.facing
  generalize V.Began c = marked, c.upcoming = us, c'.upcoming = us' at hfacing ⊢
  cases hfacing with
  | nil => exact .inl ⟨rfl, rfl⟩
  | cons hsame hmarks hend hunknown hrest =>
    exact .inr ⟨_, _, _, _, rfl, rfl, hsame, hmarks, hend, hunknown, hrest⟩

theorem token_of_nil (hnil : c.upcoming = []) :
    c.token = V.leftEnd ∧ c'.token = V.tail.headD V.rightEnd := by
  obtain ⟨-, hnil'⟩ | ⟨t, t', us, us', hup, -⟩ := h.cases
  · exact ⟨by rw [Cursor.token, hnil, List.headD_nil, h.leftEnd],
      by rw [Cursor.token, hnil', h.rightEnd]⟩
  · rw [hnil] at hup
    cases hup

theorem kind_of_nil (hnil : c.upcoming = []) : c.kind = .endOfInput := by
  rw [Cursor.kind, (h.token_of_nil hnil).1, V.leftEnd_kind]

/-- At the end of the left text no token is seen on the left. -/
theorem sees_of_nil (hnil : c.upcoming = []) (hk : k ≠ .endOfInput) : c.sees k = false := by
  rw [Cursor.sees, h.kind_of_nil hnil, beq_eq_false_iff_ne]
  exact hk.symm

/-- Before the end of the left text the end is not seen. -/
theorem kind_ne_endOfInput (hne : c.upcoming ≠ []) : c.kind ≠ .endOfInput := by
  obtain ⟨hnil, -⟩ | ⟨t, t', us, us', hup, -, -, -, hend, -⟩ := h.cases
  · exact absurd hnil hne
  · rw [Cursor.kind, Cursor.token, hup]
    exact hend

theorem upcoming_ne_nil (hk : c.kind ≠ .endOfInput) : c.upcoming ≠ [] :=
  fun hnil => hk (h.kind_of_nil hnil)

theorem inside_of_kind (hk : c.kind ≠ .endOfInput) : V.Inside c := .inr (h.upcoming_ne_nil hk)

theorem length_le : c.upcoming.length ≤ c'.upcoming.length := by
  rw [h.facing.length]
  exact Nat.le_add_right _ _

theorem length_eq (he : V.exact) : c.upcoming.length = c'.upcoming.length := by
  rw [h.facing.length, tail_nil he]
  rfl

/-! ### What is answered alike everywhere before the end of the left text -/

theorem kind_eq (hin : V.Inside c) : c'.kind = c.kind := by
  obtain ⟨hnil, -⟩ | ⟨t, t', us, us', hup, hup', hsame, -⟩ := h.cases
  · obtain htail | hne := hin
    · rw [Cursor.kind, Cursor.kind, (h.token_of_nil hnil).1, (h.token_of_nil hnil).2,
        headD_of_tail_nil htail, V.leftEnd_kind, V.rightEnd_kind]
    · exact absurd hnil hne
  · rw [Cursor.kind, Cursor.kind, Cursor.token, Cursor.token, hup, hup']
    exact hsame.kind.symm

theorem sees_eq (hin : V.Inside c) : c'.sees k = c.sees k := by
  rw [Cursor.sees, Cursor.sees, h.kind_eq hin]

theorem seesAny_eq (hin : V.Inside c) {ks : List TokenKind} : c'.seesAny ks = c.seesAny ks := by
  rw [Cursor.seesAny, Cursor.seesAny, h.kind_eq hin]

theorem atEnd_eq (hin : V.Inside c) : c'.atEnd = c.atEnd := h.sees_eq hin

/-! ### What is answered alike everywhere -/

/-- A kind that stands first in no statement is seen on both sides or on none. -/
theorem sees_eq_of_notMem (hk : k ∉ lineStart) : c'.sees k = c.sees k := by
  by_cases hnil : c.upcoming = []
  · have hend : k ≠ .endOfInput := by
      rintro rfl
      exact hk (by decide)
    rw [h.sees_of_nil hnil hend, Cursor.sees, Cursor.kind, (h.token_of_nil hnil).2,
      beq_eq_false_iff_ne]
    rintro rfl
    exact hk V.seam_kind
  · exact h.sees_eq (.inr hnil)

/-- The token behind the next one, seen from where there is a next one. -/
theorem ahead_kind (hne : c.upcoming ≠ []) (hk : k ∉ lineStart) :
    ((c'.ahead 1).kind == k) = ((c.ahead 1).kind == k) := by
  obtain ⟨hnil, -⟩ | ⟨t, t', us, us', hup, hup', -, -, -, -, hrest⟩ := h.cases
  · exact absurd hnil hne
  · have hleft : V.leftEnd.kind ≠ k := by
      rw [V.leftEnd_kind]
      rintro rfl
      exact hk (by decide)
    have hright : (V.tail.headD V.rightEnd).kind ≠ k := by
      rintro rfl
      exact hk V.seam_kind
    rw [Cursor.ahead, Cursor.ahead, hup, hup', h.leftEnd, h.rightEnd]
    cases hrest with
    | nil =>
      have hseam : (t' :: V.tail)[1]?.getD V.rightEnd = V.tail.headD V.rightEnd := by
        cases V.tail <;> rfl
      rw [hseam]
      rw [List.getElem?_cons_succ, List.getElem?_nil, Option.getD_none,
        beq_eq_false_iff_ne.2 hleft, beq_eq_false_iff_ne.2 hright]
    | cons hsame => simp [hsame.kind]

/-- The offsets of two cursors are the same, where they are at a token. -/
theorem offsets (hat : V.exact ∨ c.upcoming ≠ []) : V.start c.offset c'.offset := by
  obtain ⟨hnil, -⟩ | ⟨t, t', us, us', hup, hup', hsame, -⟩ := h.cases
  · have he : V.exact := hat.resolve_right fun hne => hne hnil
    rw [Cursor.offset, Cursor.offset, (h.token_of_nil hnil).1, (h.token_of_nil hnil).2,
      headD_of_tail_nil (tail_nil he)]
    exact V.ends_start he
  · rw [Cursor.offset, Cursor.offset, Cursor.token, Cursor.token, hup, hup']
    exact hsame.start

/-! ### What is answered alike where something was begun -/

section Marked

variable (hbegan : V.Began c)
include hbegan

theorem marks (hne : c.upcoming ≠ []) : c.token.SameMarks c'.token := by
  obtain ⟨hnil, -⟩ | ⟨t, t', us, us', hup, hup', -, hmarks, -⟩ := h.cases
  · exact absurd hnil hne
  · rw [Cursor.token, Cursor.token, hup, hup']
    exact hmarks hbegan

theorem onNewLine_eq (hne : c.upcoming ≠ []) : c'.onNewLine = c.onNewLine :=
  (h.marks hbegan hne).1.symm

omit hbegan in
/-- At the end of the left text, the right text is over or begins a line. -/
theorem onNewLine_or_atEnd (hnil : c.upcoming = []) :
    c'.kind = .endOfInput ∨ c'.onNewLine = true := by
  by_cases htail : V.tail = []
  · exact .inl (by rw [h.kind_eq (.inl htail), h.kind_of_nil hnil])
  · rw [Cursor.onNewLine, (h.token_of_nil hnil).2]
    exact .inr (onLine htail).1

theorem endsStatement_eq : endsStatement c' = endsStatement c := by
  by_cases hnil : c.upcoming = []
  · have hleft : endsStatement c = true := by
      rw [endsStatement, Cursor.seesAny, h.kind_of_nil hnil]
      simp [statementEnd]
    rw [hleft, endsStatement, Cursor.seesAny]
    obtain hkind | hline := h.onNewLine_or_atEnd hnil
    · simp [hkind, statementEnd]
    · simp [hline]
  · rw [endsStatement, endsStatement, h.onNewLine_eq hbegan hnil, h.seesAny_eq (.inr hnil)]

theorem seesOperator_eq : seesOperator c' = seesOperator c := by
  by_cases hnil : c.upcoming = []
  · have hnone : TokenKind.endOfInput.precedence? = none := rfl
    rw [seesOperator, seesOperator, h.kind_of_nil hnil]
    obtain hkind | hline := h.onNewLine_or_atEnd hnil
    · simp [hkind, hnone]
    · simp [hline, hnone]
  · rw [seesOperator, seesOperator, h.onNewLine_eq hbegan hnil, h.kind_eq (.inr hnil)]

/-- Something right behind the token read last. -/
theorem tight_eq (hk : k ≠ .endOfInput) :
    (c'.sees k && !c'.token.flags.triviaBefore) = (c.sees k && !c.token.flags.triviaBefore) := by
  by_cases hnil : c.upcoming = []
  · rw [h.sees_of_nil hnil hk]
    by_cases htail : V.tail = []
    · rw [h.sees_eq (.inl htail), h.sees_of_nil hnil hk]
      rfl
    · rw [(h.token_of_nil hnil).2, (onLine htail).2]
      simp
  · rw [h.sees_eq (.inr hnil), (h.marks hbegan hnil).2]

/-- A minus is read alike, unless it is the last token of the left text. -/
theorem seesNegative_eq (hne : c.upcoming ≠ []) : seesNegative c' = seesNegative c ∨
    ¬ V.exact ∧ seesNegative c = true ∧ ∃ t, c.upcoming = [t] := by
  obtain ⟨hnil, -⟩ | ⟨t, t', us, us', hup, hup', -, -, -, -, hrest⟩ := h.cases
  · exact absurd hnil hne
  have hmarks := (h.marks hbegan hne).2
  rw [seesNegative, seesNegative, h.sees_eq (.inr hne), ← hmarks]
  cases hrest with
  | cons hsame hmarks' =>
    refine .inl ?_
    rw [Cursor.ahead, Cursor.ahead, hup, hup']
    simp [(hmarks' trivial).2]
  | nil =>
    have hleft : c.ahead 1 = V.leftEnd := by rw [Cursor.ahead, hup, h.leftEnd]; rfl
    have hright : c'.ahead 1 = V.tail.headD V.rightEnd := by
      rw [Cursor.ahead, hup', h.rightEnd]
      cases V.tail <;> rfl
    rw [hleft, hright]
    obtain ⟨htail, hends⟩ | ⟨hexact, honLine⟩ := V.ending
    · rw [headD_of_tail_nil htail, ← hends.2]
      exact .inl rfl
    · rw [honLine.2]
      cases c.sees .minus && c.token.flags.triviaBefore with
      | false => exact .inl rfl
      | true =>
        cases hflag : V.leftEnd.flags.triviaBefore with
        | false => exact .inr ⟨hexact, rfl, t, hup⟩
        | true => exact .inl rfl

/-- The arguments of a command end alike, unless the last token of the left text would be
a minus that stands for one. -/
theorem endsArguments_eq : endsArguments c' = endsArguments c ∨
    ¬ V.exact ∧ endsArguments c = false ∧ ∃ t, c.upcoming = [t] ∧ t.kind = .minus := by
  rw [endsArguments, endsArguments, h.endsStatement_eq hbegan]
  split
  next => exact .inl rfl
  next hends =>
    have hne : c.upcoming ≠ [] := fun hnil => by
      simp [endsStatement, Cursor.seesAny, h.kind_of_nil hnil, statementEnd] at hends
    rw [h.sees_eq (.inr hne), h.kind_eq (.inr hne)]
    split
    next hminus =>
      obtain hsame | ⟨hexact, hnegative, t, ht⟩ := h.seesNegative_eq hbegan hne
      · exact .inl (by rw [hsame])
      · refine .inr ⟨hexact, by rw [hnegative]; rfl, t, ht, ?_⟩
        simpa [Cursor.sees, Cursor.kind, Cursor.token, ht] using hminus
    next => exact .inl rfl

/-- Where the statement read last ends with a brace, it does so on both sides. -/
theorem endsWithBrace_eq {s s' : Statement} (hs : s'.isCompound = s.isCompound) :
    endsWithBrace c' s' = endsWithBrace c s := by
  have hbind (o : Option Token) : (o.bind fun t => t.text.toList.getLast?) =
      (o.map Token.text).bind fun text => text.toList.getLast? := by
    cases o <;> rfl
  rw [endsWithBrace, endsWithBrace, hs, hbind, hbind, h.text hbegan]

end Marked

end Along

end View

end CommandScript
