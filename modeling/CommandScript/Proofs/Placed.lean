import CommandScript.Proofs.Parts
/-!
# CommandScript — spans have their ends in order

A part of a tree has a span, a list gives one to each of its items, and for what stands
between brackets a span is worked out from the bracket that opens it and, where the one
that closes it is missing, from what was read last. `Node.Proper` says of a part that all
of these have their ends in order.

The parser goes forward, so what it gives begins no earlier than where it was asked for
(`Placed`), and so does what is asked for within it. `Parse.Keeps` says so of a step; it
does not ask whether the parser ever stalls, so it holds of a rule whatever the budget
(`CommandScript.Proofs.Forward`).
-/

namespace CommandScript

namespace Span

/-- The ends are in order, and none stands before the offset. -/
structure From (s : Span) (o : Nat) : Prop where
  start : o ≤ s.start
  ordered : s.Ordered

variable {s : Span} {o o' : Nat}

theorem From.stop (h : s.From o) : o ≤ s.stop := Nat.le_trans h.start h.ordered

theorem From.mono (h : s.From o) (ho : o' ≤ o) : s.From o' := ⟨Nat.le_trans ho h.start, h.ordered⟩

end Span

theorem Cursor.spanFrom_ordered (c : Cursor) (start : Nat) : (c.spanFrom start).Ordered :=
  Nat.le_max_left _ _

theorem Brackets.spanWith_ordered {b : Brackets} {inner : Option Span}
    (hleft : b.left.span.Ordered) (hright : ∀ t ∈ b.right, t.span.From b.left.span.start)
    (hinner : ∀ s ∈ inner, s.From b.left.span.start) : (b.spanWith inner).Ordered := by
  unfold Brackets.spanWith Span.Ordered
  dsimp only
  split
  next t ht => exact (hright t ht).stop
  next =>
    cases inner with
    | none => exact hleft
    | some s => exact (hinner s rfl).stop

/-- The spans of a list between brackets, and of its items, have their ends in order. -/
theorem Brackets.ordered_listed {α : Type} {left : Token} {right : Option Token}
    {items : Separated α} {Q : α → Prop} (hleft : left.span.Ordered)
    (hright : ∀ t ∈ right, t.span.From left.span.start)
    (hitems : ∀ i ∈ items, i.span.From left.span.start ∧ ∀ v ∈ i.value, Q v) :
    ∀ s ∈ Brackets.listSpan ⟨left, right⟩ items :: items.map (·.span), s.Ordered := by
  refine List.forall_mem_cons.2 ⟨Brackets.spanWith_ordered hleft hright fun s hs => ?_, ?_⟩
  · obtain ⟨i, hi, rfl⟩ := Option.map_eq_some_iff.1 hs
    exact (hitems i (List.mem_of_getLast? hi)).1
  · exact List.forall_mem_map.2 fun i hi => (hitems i hi).1.ordered

/-! ## The spans of a part -/

/-- The spans inside an expression that no other part has: of the items of a list, and of
what stands between brackets. -/
def Expression.innerSpans : Expression → List Span
  | vector b is _ => b.listSpan is :: is.map (·.span)
  | table b fs _ => b.listSpan fs :: fs.map (·.span)
  | group b e _ => [b.expressionSpan e]
  | _ => []

def FunctionBody.innerSpans : FunctionBody → List Span
  | mk b ps block _ => b.listSpan ps :: ps.map (·.span) ++ (block.map Braced.span).toList

def VarRoot.innerSpans : VarRoot → List Span
  | computed _ b e _ => [b.expressionSpan e]
  | _ => []

def VarSuffix.innerSpans : VarSuffix → List Span
  | index _ b e _ => [b.expressionSpan e]
  | _ => []

def TableField.innerSpans : TableField → List Span
  | keyed b e _ _ _ => [b.expressionSpan e]
  | _ => []

def Statement.innerSpans : Statement → List Span
  | whileLoop _ c block _ => (c.map Condition.span).toList ++ (block.map Braced.span).toList
  | forLoop _ c _ _ => (c.map Condition.span).toList
  | _ => []

def LastStatement.innerSpans : LastStatement → List Span
  | «return» _ values _ => values.map (·.span)
  | _ => []

def Branch.innerSpans (b : Branch) : List Span :=
  (b.condition.map Condition.span).toList ++ (b.block.map Braced.span).toList

def Otherwise.innerSpans (o : Otherwise) : List Span := (o.block.map Braced.span).toList

namespace Node

/-- The spans inside a part that no other part has. -/
def innerSpans : Node → List Span
  | expression e => e.innerSpans
  | field f => f.innerSpans
  | body b => b.innerSpans
  | root r => r.innerSpans
  | suffix s => s.innerSpans
  | statement s => s.innerSpans
  | last l => l.innerSpans
  | branch b => b.innerSpans
  | otherwise o => o.innerSpans
  | block _ | var _ | command _ | call _ | skipped _ | elseIf _ => []

/-- Every span a part has. -/
def spans (p : Node) : List Span := p.span :: p.innerSpans

/-- The spans of the part have their ends in order. -/
def Proper (p : Node) : Prop := ∀ s ∈ p.spans, s.Ordered

end Node

open Outline

/-- What stands from an offset on, with proper parts. -/
structure Placed (o : Nat) (s : Span) (os : List Outline) : Prop where
  since : s.From o
  proper : EachOf Node.Proper os

namespace Placed

variable {o o' : Nat} {s : Span} {os : List Outline} {p : Node}

theorem mono (h : Placed o s os) (ho : o' ≤ o) : Placed o' s os := ⟨h.since.mono ho, h.proper⟩

/-- A part has its own span, and nothing but what is in it. -/
theorem node (hspan : p.span.From o) (hinner : ∀ s ∈ p.innerSpans, s.Ordered)
    (hos : EachOf Node.Proper os) : Placed o p.span [.node p os] := by
  refine ⟨hspan, eachOf_cons.2 ⟨(each_node p).2 ⟨?_, hos⟩, eachOf_nil⟩⟩
  exact List.forall_mem_cons.2 ⟨hspan.ordered, hinner⟩

theorem skipped {k : Skipped} (h : k.span.From o) : Placed o k.span [ofSkipped k] :=
  node (p := .skipped k) h (fun _ h => nomatch h) (eachOf_map_token _)

theorem ordered {α : Type} {span : α → Span} {outline : α → List Outline} {r : Option α}
    (h : ∀ a ∈ r, Placed o (span a) (outline a)) : ∀ s ∈ (r.map span).toList, s.Ordered := by
  intro s hs
  obtain ⟨a, ha, rfl⟩ := Option.map_eq_some_iff.1 (Option.mem_toList.1 hs)
  exact (h a ha).since.ordered

end Placed

/-- The expression stands from an offset on. -/
abbrev Expression.PlacedAt (o : Nat) (e : Expression) : Prop := Placed o e.span [ofExpression e]

namespace Outline

variable {o : Nat}

theorem proper_optional {r : Option Expression} (h : ∀ e ∈ r, e.PlacedAt o) :
    EachOf Node.Proper (ofOptional r) := by
  cases r with
  | none => exact eachOf_nil
  | some e => exact (h e rfl).proper

theorem proper_condition {r : Option Condition} (h : ∀ c ∈ r, Placed o c.span (ofCondition c)) :
    EachOf Node.Proper (ofOptionalCondition r) := by
  cases r with
  | none => exact eachOf_nil
  | some c => exact (h c rfl).proper

theorem proper_braced {r : Option Braced} (h : ∀ b ∈ r, Placed o b.span (ofBraced b)) :
    EachOf Node.Proper (ofOptionalBraced r) := by
  cases r with
  | none => exact eachOf_nil
  | some b => exact (h b rfl).proper

/-- A list has proper parts if its values do. -/
theorem proper_separated {α : Type} {outline : α → Outline} {items : Separated α}
    (h : ∀ i ∈ items, ∀ v ∈ i.value, (outline v).Each Node.Proper) :
    EachOf Node.Proper (ofSeparated outline items) := by
  induction items with
  | nil => exact eachOf_nil
  | cons i rest ih =>
    rw [ofSeparated_cons]
    refine eachOf_append.2 ⟨eachOf_append.2 ⟨?_, eachOf_ofTokens _⟩,
      ih fun j hj => h j (List.mem_cons_of_mem i hj)⟩
    cases hvalue : i.value with
    | none => exact eachOf_nil
    | some v => exact eachOf_cons.2 ⟨h i List.mem_cons_self v hvalue, eachOf_nil⟩

end Outline

/-! ## Steps that go forward -/

/-- A cursor at or behind an offset, with proper issues. -/
structure Cursor.Past (o : Nat) (c : Cursor) : Prop where
  sound : c.Sound
  offset : o ≤ c.offset
  issues : ∀ i ∈ c.found, i.span.Ordered

namespace Cursor.Past

variable {o o' : Nat} {c d : Cursor} {ts : List Token}

theorem mono (h : c.Past o) (ho : o' ≤ o) : c.Past o' :=
  ⟨h.sound, Nat.le_trans ho h.offset, h.issues⟩

theorem moved (h : c.Past o) (hd : c.Moved ts d)
    (hfound : ∀ i ∈ d.found, i ∈ c.found ∨ i.span.Ordered) : d.Past o where
  sound := hd.sound h.sound
  offset := Nat.le_trans h.offset (h.sound.offset_le_offset hd)
  issues i hi := (hfound i hi).elim (h.issues i) id

/-- The token the cursor is at stands where the cursor is. -/
theorem token_from (h : c.Past o) : c.token.span.From o := by
  refine ⟨h.offset, ?_⟩
  unfold token
  cases hup : c.upcoming with
  | nil => exact Nat.le_of_eq h.sound.closing
  | cons t rest => exact Nat.le_of_lt (h.sound.filled t (hup ▸ List.mem_cons_self))

end Cursor.Past

namespace Parse

variable {α β : Type} {o : Nat} {p : Parse α} {f : α → Parse β} {Q Q' : α → Prop} {R : β → Prop}

/-- From any cursor at or behind the offset, a step goes forward, and gives what has `Q`. -/
def Keeps (o : Nat) (p : Parse α) (Q : α → Prop) : Prop :=
  ∀ c : Cursor, c.Past o → (p c).2.Past o ∧ Q (p c).1

namespace Keeps

theorem imp (h : Keeps o p Q) (hQ : ∀ a, Q a → Q' a) : Keeps o p Q' := fun c hc =>
  ⟨(h c hc).1, hQ _ (h c hc).2⟩

theorem bind (h : Keeps o p Q) (hf : ∀ a, Q a → Keeps o (f a) R) : Keeps o (p >>= f) R :=
  fun c hc => hf _ (h c hc).2 _ (h c hc).1

theorem map {f : α → β} (h : Keeps o p fun a => R (f a)) : Keeps o (f <$> p) R := h

theorem pure {a : α} (h : Q a) : Keeps o (Pure.pure a : Parse α) Q := fun _ hc => ⟨hc, h⟩

theorem pure_bind {a : α} (h : Keeps o (f a) R) : Keeps o ((Pure.pure a : Parse α) >>= f) R := h

/-- Looking at the cursor. -/
theorem get_bind {f : Cursor → Parse β} (h : ∀ c : Cursor, c.Past o → Keeps o (f c) R) :
    Keeps o (get >>= f) R := fun c hc => h c hc c hc

/-- Asking for the span from an offset. -/
theorem spanFrom_bind {start : Nat} {f : Span → Parse β}
    (h : ∀ s : Span, s.start = start → s.Ordered → Keeps o (f s) R) :
    Keeps o (Parse.spanFrom start >>= f) R := fun c hc =>
  h (c.spanFrom start) rfl (c.spanFrom_ordered start) c hc

/-- A step that reads tokens and reports nothing. -/
theorem of_moved (hmoved : ∀ c : Cursor, ∃ ts, c.Moved ts (p c).2)
    (hfound : ∀ c, (p c).2.found = c.found) (h : ∀ c : Cursor, c.Past o → Q (p c).1) :
    Keeps o p Q := fun c hc =>
  have ⟨_, hd⟩ := hmoved c
  ⟨hc.moved hd fun _ hi => .inl (hfound c ▸ hi), h c hc⟩

end Keeps

theorem exists_moved_bump (c : Cursor) : ∃ ts, c.Moved ts (bump c).2 := by
  cases h : c.upcoming with
  | nil =>
    refine ⟨[], ?_⟩
    simp only [bump, modifyGet, MonadStateOf.modifyGet, StateT.modifyGet, h]
    exact .refl c
  | cons t rest =>
    refine ⟨[t], ?_⟩
    simp only [bump, modifyGet, MonadStateOf.modifyGet, StateT.modifyGet, h]
    exact ⟨h, rfl, rfl, List.suffix_rfl, rfl, id, .inl⟩

theorem bump_fst (c : Cursor) : (bump c).1 = c.token := by
  unfold Cursor.token
  cases h : c.upcoming <;>
    simp only [bump, modifyGet, MonadStateOf.modifyGet, StateT.modifyGet, h] <;> rfl

theorem keeps_bump : Keeps o bump fun t => t.span.From o :=
  Keeps.of_moved exists_moved_bump bump_found fun c hc => bump_fst c ▸ hc.token_from

/-- What comes behind a token stands behind where the token begins. -/
theorem Keeps.bump_bind {f : Token → Parse β}
    (h : ∀ t : Token, t.span.From o → Keeps t.span.start (f t) R) : Keeps o (bump >>= f) R := by
  intro c hc
  obtain ⟨ts, hmoved⟩ := exists_moved_bump c
  have htoken : (bump c).1.span.start = c.offset := congrArg (·.span.start) (bump_fst c)
  have hpast : (bump c).2.Past (bump c).1.span.start :=
    ⟨hmoved.sound hc.sound, htoken ▸ hc.sound.offset_le_offset hmoved,
      bump_found c ▸ hc.issues⟩
  obtain ⟨hd, hr⟩ := h (bump c).1 (bump_fst c ▸ hc.token_from) _ hpast
  exact ⟨hd.mono (htoken ▸ hc.offset), hr⟩

theorem keeps_bumpWhile (q : Token → Bool) : Keeps o (bumpWhile q) fun _ => True :=
  Keeps.of_moved (fun c => ⟨_, moved_bumpWhile q c⟩) (fun _ => rfl) fun _ _ => trivial

theorem keeps_set {d : Cursor} (h : d.Past o) : Keeps o (set d : Parse Unit) fun _ => True :=
  fun _ _ => ⟨h, trivial⟩

theorem keeps_stall : Keeps o stall fun _ => True := fun _ hc =>
  ⟨⟨⟨hc.sound.ending, hc.sound.inner, hc.sound.filled, hc.sound.ordered, hc.sound.behind,
    hc.sound.before, hc.sound.ended, hc.sound.closing⟩, hc.offset, hc.issues⟩, trivial⟩

/-- A change that leaves a cursor standing behind `o`. -/
theorem keeps_modify {f : Cursor → Cursor} (h : ∀ c : Cursor, c.Past o → (f c).Past o) :
    Keeps o (modify f) fun _ => True := fun c hc => ⟨h c hc, trivial⟩

theorem keeps_report {i : Issue} (hi : i.span.Ordered) : Keeps o (report i) fun _ => True := by
  refine fun c hc => ⟨?_, trivial⟩
  rw [report_eq]
  split
  · exact hc
  · refine hc.moved (moved_found i c) fun j hj => ?_
    exact (List.mem_cons.1 hj).elim (fun h => .inr (h ▸ hi)) .inl

theorem keeps_reportHere (k : Issue.Kind) (message : String) :
    Keeps o (reportHere k message) fun _ => True :=
  .get_bind fun _ hc => keeps_report hc.token_from.ordered

theorem keeps_reportTooDeep : Keeps o reportTooDeep fun _ => True := by
  refine keeps_modify fun c hc => ?_
  split
  next => exact hc
  next =>
    refine hc.moved (moved_foundTooDeep c) fun i hi => ?_
    exact (List.mem_cons.1 hi).elim (fun h => .inr (h ▸ hc.token_from.ordered)) .inl

theorem keeps_progressed (before : Option Nat) : Keeps o (progressed before) fun _ => True := by
  refine .get_bind fun c _ => ?_
  cases before with
  | none => exact .pure trivial
  | some offset =>
    dsimp only
    split
    · exact .pure trivial
    · exact keeps_stall.bind fun _ _ => .pure trivial

theorem keeps_eat (k : TokenKind) : Keeps o (eat k) fun r => ∀ t ∈ r, t.span.From o := by
  refine .get_bind fun c _ => ?_
  split
  · exact .map (keeps_bump.imp fun t ht => by simpa using ht)
  · exact .pure fun t ht => nomatch ht

theorem keeps_expect (k : TokenKind) (opener : Option Token) :
    Keeps o (expect k opener) fun r => ∀ t ∈ r, t.span.From o := by
  refine (keeps_eat k).bind fun r hr => ?_
  cases r with
  | some t => exact .pure hr
  | none =>
    refine .get_bind fun c _ => (keeps_reportHere _ _).bind fun _ _ => .pure fun t ht => nomatch ht

theorem keeps_skip (r : Recovery) :
    Keeps o r.skip fun node => ∀ k ∈ node, Placed o k.span [ofSkipped k] := by
  refine .get_bind fun c hc => ?_
  split
  · exact .pure fun k hk => nomatch hk
  · refine keeps_bump.bind fun first _ => (keeps_bumpWhile _).bind fun others _ =>
      .spanFrom_bind fun s hs hordered => .pure ?_
    rintro _ ⟨⟩
    exact .skipped ⟨hs ▸ hc.offset, hordered⟩

theorem keeps_tooDeep : Keeps o tooDeep fun node => ∀ k ∈ node, Placed o k.span [ofSkipped k] := by
  refine keeps_reportTooDeep.bind fun _ _ => .get_bind fun c hc => ?_
  split
  · exact .pure fun k hk => nomatch hk
  · refine (keeps_bumpWhile _).bind fun tokens _ => .spanFrom_bind fun s hs hordered => .pure ?_
    rintro _ ⟨⟩
    exact .skipped ⟨hs ▸ hc.offset, hordered⟩

theorem keeps_skipUnreachable (stop : List TokenKind) :
    Keeps o (skipUnreachable stop) fun _ => True := by
  refine (keeps_bumpWhile _).bind fun _ _ => .get_bind fun c hc => ?_
  dsimp only
  split
  · exact .pure trivial
  next h =>
    refine (keeps_set (hc.moved (moved_balancedRun h) fun _ hi => .inl hi)).bind fun _ _ => ?_
    exact .spanFrom_bind fun s _ hordered => keeps_report hordered

/-! ## Lists -/

/-- Every item of a list stands from the offset on, and so does its value. -/
theorem keeps_rounds {l : Listing α} (hl : Keeps o l.element fun r => ∀ v ∈ r, Q v)
    (before : Option Nat) (n : Nat) :
    Keeps o (l.rounds before n) fun items =>
      ∀ i ∈ items, i.span.From o ∧ ∀ v ∈ i.value, Q v := by
  induction n generalizing before with
  | zero => exact keeps_stall.bind fun _ _ => .pure (List.forall_mem_nil _)
  | succ n ih =>
    unfold Listing.rounds
    refine .get_bind fun c hc => ?_
    split
    next => exact .pure (List.forall_mem_nil _)
    refine (keeps_progressed before).bind fun goes _ => ?_
    split
    next => exact .pure (List.forall_mem_nil _)
    extract_lets withValue
    have hvalue : ∀ r : Option α, (∀ v ∈ r, Q v) →
        Keeps o (withValue r) fun items => ∀ i ∈ items, i.span.From o ∧ ∀ v ∈ i.value, Q v := by
      intro r hr
      dsimp -zeta only [withValue]
      extract_lets withComma
      have hcomma : Keeps o (withComma ()) fun items =>
          ∀ i ∈ items, i.span.From o ∧ ∀ v ∈ i.value, Q v := by
        dsimp -zeta only [withComma]
        refine (keeps_eat .comma).bind fun separator _ => .spanFrom_bind fun s hs hordered => ?_
        extract_lets item
        have hitem : item.span.From o ∧ ∀ v ∈ item.value, Q v := ⟨⟨hs ▸ hc.offset, hordered⟩, hr⟩
        have hrest := ih (some c.offset)
        refine .get_bind fun now hnow => ?_
        split
        next =>
          split
          next => exact .pure (List.forall_mem_singleton.2 hitem)
          next =>
            refine (keeps_report hnow.token_from.ordered).bind fun _ _ =>
              hrest.bind fun rest hr => ?_
            exact .pure (List.forall_mem_cons.2 ⟨hitem, hr⟩)
        next => exact hrest.bind fun rest hr => .pure (List.forall_mem_cons.2 ⟨hitem, hr⟩)
      split
      next =>
        refine .get_bind fun now _ => ?_
        split
        next => exact .pure (List.forall_mem_nil _)
        next => exact (keeps_reportHere _ _).bind fun _ _ => hcomma
      next => exact hcomma
    split
    next => exact hl.bind hvalue
    next => exact .pure_bind (hvalue none (by simp))

theorem keeps_read {l : Listing α} (hl : Keeps o l.element fun r => ∀ v ∈ r, Q v) :
    Keeps o l.read fun items => ∀ i ∈ items, i.span.From o ∧ ∀ v ∈ i.value, Q v :=
  .get_bind fun _ _ => keeps_rounds hl none _

end Parse

end CommandScript
