import CommandScript.Proofs.Seam
import CommandScript.Proofs.Whole
/-!
# CommandScript — texts one behind the other

Where two texts that parse well are put together with a line break between them, the parser
reads the statements of the one and then those of the other. It goes through the first text as
if that ended there (`Lockstep.through`), because at its end nothing is open, and what comes
begins a statement on a line of its own. From there on it goes through the rest as through the
second text alone, only further on.
-/

namespace CommandScript

variable {c c' d : Cursor}

namespace Grammar

open Parse

/-! ## The rounds of a block -/

section Rounds

variable {limit depth : Nat} {self : (n : Nonterminal) → Parse n.Result} {stop : List TokenKind}
  {before before' : Option Nat} {n : Nat}

/-- Where a round begins is behind where the one before it began. -/
def GoesOn (before : Option Nat) (c : Cursor) : Prop := ∀ o ∈ before, o < c.offset

theorem goesOn_none : GoesOn none c := fun _ h => nomatch h

theorem progressed_of_goesOn (h : GoesOn before c) : progressed before c = (true, c) := by
  cases before with
  | none => rfl
  | some o =>
    change (if o < c.offset then pure true else _ : Parse Bool) c = _
    rw [if_pos (h o rfl)]
    rfl

theorem progressed_of_not_goesOn (h : ¬ GoesOn before c) :
    progressed before c = (false, { c with stalled := true }) := by
  obtain ⟨o, rfl, ho⟩ : ∃ o, before = some o ∧ ¬ o < c.offset := by
    simpa [GoesOn] using h
  change (if o < c.offset then _ else _ : Parse Bool) c = _
  rw [if_neg ho]
  rfl

theorem statements_of_end (hend : (c.atEnd || c.seesAny stop) = true) :
    statements limit self depth stop before (n + 1) c = (([], none), c) := by
  change (if (c.atEnd || c.seesAny stop) = true then _ else _ : Parse _) c = _
  rw [if_pos hend]
  rfl

/-- A round that begins before the end, as far as it went on. -/
theorem statements_round (hend : (c.atEnd || c.seesAny stop) = false) :
    statements limit self depth stop before (n + 1) c =
      (if !(progressed before c).1 then return ([], none)
        else if c.sees .semicolon then do
          let _ ← Parse.bump
          statements limit self depth stop (some c.offset) n
        else if c.seesAny lastStart then return ([], some (← lastStatement self depth))
        else do
          let read ← someStatements limit self depth stop
          let (others, last) ← statements limit self depth stop (some c.offset) n
          return (read ++ others, last) : Parse (List Statement × Option LastStatement))
        (progressed before c).2 := by
  change (if (c.atEnd || c.seesAny stop) = true then _ else _ : Parse _) c = _
  rw [hend, if_neg Bool.false_ne_true]
  rfl

section GoesOn

variable (hend : (c.atEnd || c.seesAny stop) = false) (hgo : GoesOn before c)
include hend hgo

theorem statements_semicolon (hsemicolon : c.sees .semicolon = true) :
    statements limit self depth stop before (n + 1) c =
      statements limit self depth stop (some c.offset) n (Parse.bump c).2 := by
  rw [statements_round hend, progressed_of_goesOn hgo, hsemicolon]
  rfl

variable (hsemicolon : c.sees .semicolon = false)
include hsemicolon

theorem statements_leaving (hleaves : c.seesAny lastStart = true) :
    statements limit self depth stop before (n + 1) c =
      (([], some (lastStatement self depth c).1), (lastStatement self depth c).2) := by
  rw [statements_round hend, progressed_of_goesOn hgo, hsemicolon, hleaves]
  rfl

theorem statements_some (hleaves : c.seesAny lastStart = false) :
    statements limit self depth stop before (n + 1) c =
      let r := someStatements limit self depth stop c
      let s := statements limit self depth stop (some c.offset) n r.2
      ((r.1 ++ s.1.1, s.1.2), s.2) := by
  rw [statements_round hend, progressed_of_goesOn hgo, hsemicolon, hleaves]
  rfl

end GoesOn

theorem wholly_fst : (wholly limit self depth stop before n c).1 =
    (statements limit self depth stop before n c).1 := by
  simp only [wholly, bind, StateT.bind]
  generalize statements limit self depth stop before n c = r
  obtain ⟨⟨ss, last⟩, d⟩ := r
  cases last <;> rfl

/-- Where no statement leaves the block, nothing is passed over. -/
theorem wholly_of_last_none (h : (statements limit self depth stop before n c).1.2 = none) :
    wholly limit self depth stop before n c = statements limit self depth stop before n c := by
  simp only [wholly, bind, StateT.bind]
  generalize statements limit self depth stop before n c = r at h
  obtain ⟨⟨ss, last⟩, d⟩ := r
  obtain rfl : last = none := h
  rfl

/-- Statements that stand before leave the rest as it is. -/
theorem wholly_append {ss : List Statement} {m : Nat} {d : Cursor} {before₁ : Option Nat}
    (h : statements limit self depth stop before n c =
      let s := statements limit self depth stop before₁ m d
      ((ss ++ s.1.1, s.1.2), s.2)) :
    wholly limit self depth stop before n c =
      let s := wholly limit self depth stop before₁ m d
      ((ss ++ s.1.1, s.1.2), s.2) := by
  simp only [wholly, bind, StateT.bind, h]
  generalize statements limit self depth stop before₁ m d = r
  obtain ⟨⟨ss, last⟩, d⟩ := r
  cases last <;> rfl

/-- What matters of the round before is only that the cursor went on. -/
theorem statements_congr (hgo : GoesOn before c) :
    statements limit self depth stop before n c = statements limit self depth stop none n c := by
  cases n with
  | zero => rfl
  | succ n =>
    cases hend : c.atEnd || c.seesAny stop with
    | true => rw [statements_of_end hend, statements_of_end hend]
    | false =>
      rw [statements_round hend, statements_round hend, progressed_of_goesOn hgo,
        progressed_of_goesOn goesOn_none]

/-- A token that can begin nothing in a block is reported. -/
theorem tells_statements [Forward self] (hline : c.kind ∉ lineStart) :
    (statements limit self depth [.endOfInput] none (n + 1)).Tells c := by
  have hkind {k : TokenKind} (hk : k ∈ lineStart) : c.kind ≠ k := fun h => hline (h ▸ hk)
  have hsees {k : TokenKind} (hk : k ∈ lineStart) : c.sees k = false :=
    beq_eq_false_iff_ne.2 (hkind hk)
  have hany {ks : List TokenKind} (hks : ∀ k ∈ ks, k ∈ lineStart) : c.seesAny ks = false := by
    rw [Cursor.seesAny, ← Bool.not_eq_true, List.contains_iff_mem]
    exact fun hmem => hline (hks _ hmem)
  have hnone : statement limit self depth c = (none, c) := by
    have hoperand : c.seesAny operandStart = false := hany (by decide)
    simp only [statement, bind, StateT.bind, get, getThe, MonadStateOf.get, StateT.get, pure, hoperand,
      Bool.false_eq_true, if_false]
    generalize c.kind = k at hkind ⊢
    cases k <;> first | exact absurd rfl (hkind (by decide)) | rfl
  have hend : (c.atEnd || c.seesAny [.endOfInput]) = false := by
    rw [Cursor.atEnd, hsees (by decide), hany (by decide)]
    rfl
  have hsome : (someStatements limit self depth [.endOfInput]).Tells c := by
    have hskipped : someStatements limit self depth [.endOfInput] c =
        recover [.endOfInput] "expected a statement" c := by
      simp only [someStatements, bind, StateT.bind, get, getThe, MonadStateOf.get, StateT.get, pure,
        hsees (show TokenKind.unknown ∈ lineStart by decide), hnone, Bool.false_eq_true, if_false]
    rw [Tells, hskipped]
    exact View.Lockstep.tells_recover (hkind (by decide))
  rw [Tells, statements_some hend goesOn_none (hsees (by decide)) (hany (by decide))]
  exact ((moves_statements _ _ _).onward _).told hsome

end Rounds

end Grammar

/-! ## Through the first text -/

namespace View

open Grammar Parse

variable {V : View} {limit depth : Nat} {self self' : (n : Nonterminal) → Parse n.Result}

/-- The right run read what the left text has: it goes on behind it in a number of rounds as if
a block began there, and what it gives then stands behind `ss`. -/
structure Through (V : View) (limit depth : Nat) (self' : (n : Nonterminal) → Parse n.Result)
    (r r' : (List Statement × Option LastStatement) × Cursor) (ss : List Statement)
    (before : Option Nat) (m : Nat) (e : Cursor) : Prop where
  along : V.Along r.2 e
  spent : r.2.upcoming = []
  rounds : V.tail.length < m
  behind : ∀ o ∈ before, ∃ o', V.start o' o
  same : V.left.statements r.1.1 = V.right.statements ss
  goes : r' =
    let s := statements limit self' depth [.endOfInput] before m e
    ((ss ++ s.1.1, s.1.2), s.2)

/-- **The statements of the left text are read on the right**, if nothing is wrong with them and
none of them leaves the block. -/
theorem Alike.through [Forward self] (hself : V.Alike self self') (hexact : ¬ V.exact)
    {before before' : Option Nat} {n n' : Nat} (hbefore : Option.Rel V.start before before')
    (hn : n + V.tail.length ≤ n') (hal : V.Along c c')
    (hlast : (statements limit self depth [.endOfInput] before n c).1.2 = none) :
    V.Lost False (statements limit self depth [.endOfInput] before n c).2 ∨
      ∃ ss before₁ m e, V.Through limit depth self'
        (statements limit self depth [.endOfInput] before n c)
        (statements limit self' depth [.endOfInput] before' n' c') ss before₁ m e := by
  induction n generalizing before before' n' c c' with
  | zero => exact .inl ⟨hexact, .inr (.inl rfl)⟩
  | succ n ih =>
    by_cases hnil : c.upcoming = []
    · have hend : (c.atEnd || c.seesAny [.endOfInput]) = true := by
        simp [Cursor.atEnd, Cursor.sees, hal.kind_of_nil hnil]
      rw [statements_of_end hend]
      refine .inr ⟨[], before', n', c', hal, hnil, by omega, ?_, rfl, rfl⟩
      cases hbefore with
      | none => exact fun _ h => by cases h
      | some h => exact fun o ho => ⟨_, Option.some.inj ho ▸ h⟩
    obtain ⟨n', rfl⟩ : ∃ m, n' = m + 1 := ⟨n' - 1, by omega⟩
    have hin : V.Inside c := .inr hnil
    have hkind : c.kind ≠ .endOfInput := hal.kind_ne_endOfInput hnil
    have hend : (c.atEnd || c.seesAny [.endOfInput]) = false := by
      simp [Cursor.atEnd, Cursor.sees, Cursor.seesAny, hkind]
    have hend' : (c'.atEnd || c'.seesAny [.endOfInput]) = false := by
      rw [hal.atEnd_eq hin, hal.seesAny_eq hin, hend]
    have hoffsets := hal.offsets (.inr hnil)
    have hrest {d d' : Cursor} (hd : V.Along d d') := ih (.some hoffsets)
      (show n + V.tail.length ≤ n' by omega) hd
    by_cases hgo : GoesOn before c
    · have hgo' : GoesOn before' c' := by
        cases hbefore with
        | none => exact goesOn_none
        | some h => exact fun o ho => Option.some.inj ho ▸ (V.order h hoffsets).1 (hgo _ rfl)
      have hsemicolon' : c'.sees .semicolon = c.sees .semicolon := hal.sees_eq hin
      have hleaves' : c'.seesAny lastStart = c.seesAny lastStart := hal.seesAny_eq hin
      cases hsemicolon : c.sees .semicolon with
      | true =>
        rw [statements_semicolon hend hgo hsemicolon] at hlast ⊢
        rw [statements_semicolon hend' hgo' (hsemicolon'.trans hsemicolon)]
        exact hrest (Lockstep.reads_bump hal hkind).along hlast
      | false =>
      cases hleaves : c.seesAny lastStart with
      | true =>
        rw [statements_leaving hend hgo hsemicolon hleaves] at hlast
        cases hlast
      | false =>
      rw [statements_some hend hgo hsemicolon hleaves] at hlast ⊢
      rw [statements_some hend' hgo' (hsemicolon'.trans hsemicolon) (hleaves'.trans hleaves)]
      have hsome : V.Lockstep False (someStatements limit self depth [.endOfInput])
        (someStatements limit self' depth [.endOfInput]) c c' _ := .someStatements hself hnil
      obtain hlost | ⟨hkept, hsame⟩ := hsome hal
      · exact .inl (hlost.onward ((moves_statements _ _ _).onward _))
      obtain hlost | ⟨ss, before₁, m, e, hthrough⟩ := hrest hkept.along hlast
      · exact .inl hlost
      refine .inr ⟨(someStatements limit self' depth [.endOfInput] c').1 ++ ss, before₁, m, e,
        hthrough.along, hthrough.spent, hthrough.rounds, hthrough.behind, ?_, ?_⟩
      · rw [Relocation.statements_append, Relocation.statements_append, hsame, hthrough.same]
      · have hgoes := hthrough.goes
        dsimp only at hgoes ⊢
        rw [hgoes, List.append_assoc]
    · refine .inl ⟨hexact, .inr (.inl ?_)⟩
      rw [statements_round hend, progressed_of_not_goesOn hgo]
      rfl

/-! ## The two views -/

/-- A text that goes on at the offset `n`, and the part of it before. -/
def before (n : Nat) (leftEnd rightEnd : Token) (us : List Token)
    (hleft : leftEnd.kind = .endOfInput) (hright : rightEnd.kind = .endOfInput)
    (hkind : (us.headD rightEnd).kind ∈ lineStart) (hline : (us.headD rightEnd).OnLine) : View where
  left := .unmarked
  right := .unmarked
  start s s' := s = s' ∧ s < n
  place s s' := s = s'
  tail := us
  leftEnd := leftEnd
  rightEnd := rightEnd
  exact := False
  span_eq s s' := by
    obtain ⟨s, t⟩ := s
    obtain ⟨s', t'⟩ := s'
    exact Span.mk.injEq ..  ▸ Iff.rfl
  place_of_start h := h.1
  cover h h' := congr (congrArg max h) h'
  order h h' := by rw [h.1, h'.1]
  leftEnd_kind := hleft
  rightEnd_kind := hright
  ends_start h := h.elim
  seam_kind := hkind
  ending := .inr ⟨id, hline⟩

/-- A text that begins at the offset `n` of another one and ends with it. -/
def behind (n : Nat) (leftEnd rightEnd : Token) (hleft : leftEnd.kind = .endOfInput)
    (hright : rightEnd.kind = .endOfInput)
    (hmarks : leftEnd.SameMarks rightEnd ∨ rightEnd.OnLine) : View where
  left := .shifted n
  right := .unmarked
  start s s' := s + n = s'
  place s s' := s + n = s'
  tail := []
  leftEnd := leftEnd
  rightEnd := rightEnd
  exact := False
  span_eq s s' := by
    obtain ⟨s, t⟩ := s
    obtain ⟨s', t'⟩ := s'
    exact Span.mk.injEq .. ▸ Iff.rfl
  place_of_start h := h
  cover h h' := by omega
  order h h' := by omega
  leftEnd_kind := hleft
  rightEnd_kind := hright
  ends_start h := h.elim
  seam_kind := by
    rw [List.headD_nil, hright]
    decide
  ending := hmarks.imp (⟨rfl, ·⟩) (⟨id, ·⟩)

end View

namespace Grammar

open Parse

/-- A text is read as a block: its statements, and what stands behind the one that leaves it. -/
theorem source_eq (limit : Nat) (c : Cursor) :
    let r := wholly limit (read limit (4 * c.upcoming.length + 7)) 0 [.endOfInput] none (c.upcoming.length + 1) c
    source limit c = (Block.mk r.1.1 r.1.2 ⟨0, c.ending.span.stop⟩, r.2) := by
  have hblock : source limit c =
      ((fun b : Block => Block.mk b.body b.last ⟨0, c.ending.span.stop⟩)
        (read limit (budgetFor c.upcoming.length) (.block 0 [.endOfInput] 0) c).1,
        (read limit (budgetFor c.upcoming.length) (.block 0 [.endOfInput] 0) c).2) := rfl
  rw [hblock, budgetFor_eq]
  change ((fun b : Block => Block.mk b.body b.last ⟨0, c.ending.span.stop⟩)
        (block limit (read limit (4 * c.upcoming.length + 7)) 0 [.endOfInput] 0 c).1,
        (block limit (read limit (4 * c.upcoming.length + 7)) 0 [.endOfInput] 0 c).2) = _
  rw [block_eq]
  rfl

/-- Behind the statements of a block nothing is taken back. -/
theorem onward_wholly [Forward self] {stop : List TokenKind} {before : Option Nat} :
    (statements limit self depth stop before n c).2.Onward (wholly limit self depth stop before n c).2 := by
  simp only [wholly, bind, StateT.bind]
  generalize statements limit self depth stop before n c = r
  obtain ⟨⟨ss, last⟩, d⟩ := r
  cases last with
  | none => exact .refl d
  | some last =>
    change d.Onward (skipUnreachable stop d).2
    exact Moves.onward d

end Grammar

namespace Cursor

open Grammar

/-- A cursor before a text without characters that start no token. -/
structure Fresh (c : Cursor) : Prop where
  sound : c.Sound
  known : ∀ t ∈ c.upcoming, t.kind ≠ .unknown
  last : c.last = none
  found : c.found = []
  deep : c.deepReported = false
  stalled : c.stalled = false

namespace Fresh

theorem lastStop_eq (h : c.Fresh) : c.lastStop = 0 := by
  rw [Cursor.lastStop, h.last]
  rfl

variable (h : c.Fresh)
include h

/-- A text is read token by token. -/
theorem moved (limit : Nat) : ∃ ts, c.Moved ts (source limit c).2 := (ends_source_moved h.sound).2

variable {limit : Nat} (hclean : (source limit c).2.found = [])
include hclean

/-- Where no issue is found, nothing is wrong. -/
theorem not_lost {V : View} {opened : Prop} {d : Cursor} (hon : d.Onward (source limit c).2)
    (hin : opened → V.Inside d) : ¬ V.Lost opened d := by
  obtain ⟨ts, hmoved⟩ := h.moved limit
  rintro ⟨-, htold | hstalled | ⟨ho, hout⟩⟩
  · exact hmoved.found_ne_nil h.deep (hon.told htold) hclean
  · cases h.stalled.symm.trans (hmoved.stalled.symm.trans (hon.stalled hstalled))
  · exact hout (hin ho)

end Fresh

namespace Behind

variable {n : Nat} {us : List Token} {ending : Token} (h : c.Behind n us ending)
include h

theorem length_eq : us.length = c.upcoming.length := by
  obtain ⟨hup, rfl, -⟩ | ⟨t, ts, hup, rfl, -⟩ := h
  · rw [hup]
  · rw [hup, List.length_cons, List.length_cons, List.length_map]

theorem headD_kind : (us.headD ending).kind = c.kind := by
  obtain ⟨hup, rfl, rfl⟩ | ⟨t, ts, hup, rfl, -⟩ := h <;> rw [kind, token, hup] <;> rfl

theorem headD_onLine : (us.headD ending).OnLine := by
  obtain ⟨-, rfl, rfl⟩ | ⟨t, ts, -, rfl, -⟩ := h <;> exact ⟨rfl, rfl⟩

theorem headD_start : n ≤ (us.headD ending).span.start := by
  obtain ⟨-, rfl, rfl⟩ | ⟨t, ts, -, rfl, -⟩ := h <;> exact Nat.le_add_left _ _

/-- The ends look the same, unless nothing but trivia stands between them. -/
theorem ending_marks : c.ending.SameMarks ending ∨ ending.OnLine := by
  obtain ⟨-, rfl, rfl⟩ | ⟨t, ts, -, rfl, rfl⟩ := h
  · exact .inr ⟨rfl, rfl⟩
  · exact .inl ⟨rfl, rfl⟩

end Behind

end Cursor

namespace View

variable {n : Nat} {us : List Token} {j e : Cursor}

/-- The cursor before a text and the one before the text that goes on. -/
theorem along_before (hc : c.Fresh) (hj : j.Fresh) (hup : j.upcoming = c.upcoming ++ us)
    (hn : c.ending.span.start < n) (hbar : ∀ t ∈ c.upcoming.getLast?, t.kind ≠ .pipe)
    (hkind : (us.headD j.ending).kind ∈ Grammar.lineStart) (hline : (us.headD j.ending).OnLine) :
    (before n c.ending j.ending us hc.sound.ending hj.sound.ending hkind hline).Along c j where
  facing := by
    have hall : ∀ t ∈ c.upcoming, t.kind ≠ .endOfInput ∧ t.kind ≠ .unknown ∧ t.span.start < n :=
      fun t ht => ⟨hc.sound.inner t ht, hc.known t ht, by
        have := hc.sound.filled t ht
        have := hc.sound.before t ht
        omega⟩
    rw [hup]
    generalize Began _ c = marked
    generalize c.upcoming = ts at hall
    clear hup hbar
    induction ts generalizing marked with
    | nil => exact .nil
    | cons t ts ih =>
      obtain ⟨⟨hend, hknown, hstart⟩, hall⟩ := List.forall_mem_cons.1 hall
      exact .cons ⟨rfl, rfl, hstart⟩ (fun _ => ⟨rfl, rfl⟩) hend (.inr hknown) (ih True hall)
  leftEnd := rfl
  rightEnd := rfl
  text _ := by rw [hc.last, hj.last]
  stop h := by rw [show _ = _ from h, hc.lastStop_eq, hj.lastStop_eq]; rfl
  bar _ t ht := hbar t (by rwa [hc.last, Option.or_none] at ht)
  found := by rw [hc.found, hj.found]; exact .nil
  deep := by rw [hc.deep, hj.deep]

/-- The cursor before a text and the one that is at the same text further on. -/
theorem along_behind (hc : c.Fresh) (hend : e.ending.kind = .endOfInput)
    (hmarks : c.ending.SameMarks e.ending ∨ e.ending.OnLine)
    (hbehind : c.Behind n e.upcoming e.ending) (hfound : e.found = []) (hdeep : e.deepReported = false)
    (hstop : e.lastStop ≤ n) :
    (behind n c.ending e.ending hc.sound.ending hend hmarks).Along c e where
  facing := by
    -- Nothing was begun, so nothing has to be known of what stands before the first token.
    have hbegan : ¬ (behind n c.ending e.ending hc.sound.ending hend hmarks).Began c := by
      rintro (hexact | hlast)
      · exact hexact
      · rw [hc.last] at hlast
        cases hlast
    obtain ⟨hup, hnil, -⟩ | ⟨t, ts, hup, hmoved, -⟩ := hbehind
    · rw [hup, hnil]
      exact .nil
    have hall : ∀ t ∈ c.upcoming, t.kind ≠ .endOfInput ∧ t.kind ≠ .unknown :=
      fun t ht => ⟨hc.sound.inner t ht, hc.known t ht⟩
    rw [hup] at hall ⊢
    rw [hmoved]
    obtain ⟨⟨hinner, hknown⟩, hrest⟩ := List.forall_mem_cons.1 hall
    refine .cons ⟨rfl, rfl⟩ (fun h => absurd h hbegan) hinner (.inr hknown) ?_
    clear hup hmoved hall
    induction ts with
    | nil => exact .nil
    | cons t ts ih =>
      obtain ⟨⟨hinner, hknown⟩, hrest⟩ := List.forall_mem_cons.1 hrest
      exact .cons ⟨rfl, rfl⟩ (fun _ => ⟨rfl, rfl⟩) hinner (.inr hknown) (ih hrest)
  leftEnd := rfl
  rightEnd := rfl
  text hbegan := by
    obtain hexact | hlast := hbegan
    · exact hexact.elim
    · rw [hc.last] at hlast
      cases hlast
  stop {s s'} h := by
    have hplace : s + n = s' := h
    have hlast := hc.lastStop_eq
    change max s c.lastStop + n = max s' e.lastStop
    omega
  bar htail := absurd rfl htail
  found := by rw [hc.found, hfound]; exact .nil
  deep := by rw [hc.deep, hdeep]

end View

namespace Grammar

open Parse

variable {limit n : Nat} {a b j e : Cursor} {us : List Token}

theorem onward_source (limit : Nat) (c : Cursor) :
    (statements limit (read limit (4 * c.upcoming.length + 7)) 0 [.endOfInput] none
      (c.upcoming.length + 1) c).2.Onward (source limit c).2 := by
  rw [source_eq]
  exact onward_wholly

/-- What a text begins with that nothing is wrong with. -/
theorem kind_mem_lineStart (hb : b.Fresh) (hclean : (source limit b).2.found = []) :
    b.kind ∈ lineStart := by
  by_contra hline
  have htold : (statements limit (read limit (4 * b.upcoming.length + 7)) 0 [.endOfInput] none
      (b.upcoming.length + 1)).Tells b := tells_statements hline
  obtain ⟨ts, hmoved⟩ := hb.moved limit
  exact hmoved.found_ne_nil hb.deep ((onward_source limit b).told htold) hclean

/-- **The statements behind the line break are read like the second text.** -/
theorem wholly_behind (hb : b.Fresh) (hclean : (source limit b).2.found = [])
    (hend : e.ending.kind = .endOfInput) (hbehind : b.Behind n e.upcoming e.ending)
    (hfound : e.found = []) (hdeep : e.deepReported = false) (hstop : e.lastStop ≤ n)
    {m budget : Nat} (hm : b.upcoming.length < m) (hbudget : 4 * b.upcoming.length + 7 ≤ budget)
    {before : Option Nat} (hbefore : ∀ o ∈ before, o < n) :
    let r := wholly limit (read limit budget) 0 [.endOfInput] before m e
    r.2.found = [] ∧
      (Relocation.shifted n).statements (source limit b).1.body = Relocation.unmarked.statements r.1.1 ∧
      (Relocation.shifted n).optionalLast (source limit b).1.last =
        Relocation.unmarked.optionalLast r.1.2 := by
  have hal := View.along_behind hb hend hbehind.ending_marks hbehind hfound hdeep hstop
  have hself := (View.behind n b.ending e.ending hb.sound.ending hend hbehind.ending_marks).alike_read
    limit hbudget False.elim
  have hgo : GoesOn before e := fun o ho => by
    have := hbefore o ho
    have := hbehind.headD_start
    rw [Cursor.offset, Cursor.token]
    omega
  have hread : View.Lockstep _ True
      (wholly limit (read limit (4 * b.upcoming.length + 7)) 0 [.endOfInput] none (b.upcoming.length + 1))
      (wholly limit (read limit budget) 0 [.endOfInput] none m) b e _ := .wholly hself hm False.elim
  have hwhole : wholly limit (read limit budget) 0 [.endOfInput] before m e =
      wholly limit (read limit budget) 0 [.endOfInput] none m e := by
    simp only [wholly, bind, StateT.bind, statements_congr hgo]
  have honward : (wholly limit (read limit (4 * b.upcoming.length + 7)) 0 [.endOfInput] none
      (b.upcoming.length + 1) b).2.Onward (source limit b).2 := by
    rw [source_eq]
    exact .refl _
  rw [hwhole]
  obtain hlost | ⟨hkept, hbody, hlast⟩ := hread hal
  · exact absurd hlost (hb.not_lost hclean honward fun _ => .inl rfl)
  rw [source_eq] at hclean ⊢
  refine ⟨?_, hbody, hlast⟩
  have hfound := hkept.along.found
  rw [hclean] at hfound
  exact List.forall₂_nil_left_iff.1 hfound

/-- **A text that goes on behind a line break** is read as its two parts, if nothing is wrong with
them and the first one does not leave the block. -/
theorem source_lineBreak (ha : a.Fresh) (hb : b.Fresh) (hj : j.Fresh)
    (hup : j.upcoming = a.upcoming ++ us) (hbehind : b.Behind n us j.ending)
    (hn : a.ending.span.start < n) (hbar : ∀ t ∈ a.upcoming.getLast?, t.kind ≠ .pipe)
    (hcleana : (source limit a).2.found = []) (hcleanb : (source limit b).2.found = [])
    (hlast : (source limit a).1.last = none) :
    (source limit j).2.found = [] ∧
      Relocation.unmarked.statements (source limit j).1.body =
        Relocation.unmarked.statements (source limit a).1.body ++
          (Relocation.shifted n).statements (source limit b).1.body ∧
      Relocation.unmarked.optionalLast (source limit j).1.last =
        (Relocation.shifted n).optionalLast (source limit b).1.last := by
  have hkind : (us.headD j.ending).kind ∈ lineStart :=
    hbehind.headD_kind ▸ kind_mem_lineStart hb hcleanb
  have hal := View.along_before ha hj hup hn hbar hkind hbehind.headD_onLine
  have hlengths : j.upcoming.length = a.upcoming.length + us.length := by
    rw [hup, List.length_append]
  have hself := (View.before n a.ending j.ending us ha.sound.ending hj.sound.ending hkind
    hbehind.headD_onLine).alike_read limit
    (show 4 * a.upcoming.length + 7 ≤ 4 * j.upcoming.length + 7 by omega) False.elim
  have hsource := source_eq limit a
  rw [hsource] at hlast
  have hnone := (congrArg Prod.snd wholly_fst).symm.trans hlast
  dsimp only at hsource
  rw [wholly_of_last_none hnone] at hsource
  obtain hlost | ⟨ss, before, m, e, hthrough⟩ := hself.through id .none
    (show a.upcoming.length + 1 + us.length ≤ j.upcoming.length + 1 by omega) hal hnone
  · exact absurd hlost (ha.not_lost hcleana (onward_source limit a) False.elim)
  obtain ⟨ts, hmoved⟩ := ha.moved limit
  rw [hsource] at hcleana hmoved ⊢
  have hupcoming : e.upcoming = us := by
    obtain ⟨-, hup⟩ | ⟨t, t', ts, ts', hup, -⟩ := hthrough.along.cases
    · exact hup
    · cases hthrough.spent.symm.trans hup
  have hending : e.ending = j.ending := hthrough.along.rightEnd
  have hfound : e.found = [] := by
    have hfound := hthrough.along.found
    rw [hcleana] at hfound
    exact List.forall₂_nil_left_iff.1 hfound
  have hdeep : e.deepReported = false := by
    rw [← hthrough.along.deep, ← Bool.not_eq_true]
    exact fun h => hmoved.found_ne_nil ha.deep (.inr h) hcleana
  have hstop : e.lastStop ≤ n := by
    have hsame := hthrough.along.stop (show (0 : Nat) = 0 from rfl)
    have hended := (hmoved.sound ha.sound).ended
    rw [hmoved.ending] at hended
    rw [Nat.zero_max, Nat.zero_max] at hsame
    exact hsame ▸ Nat.le_of_lt (Nat.lt_of_le_of_lt hended hn)
  have hrest := wholly_behind hb hcleanb (hending ▸ hj.sound.ending)
    (hupcoming.symm ▸ hending.symm ▸ hbehind) hfound hdeep hstop
    (show b.upcoming.length < m from hbehind.length_eq ▸ hthrough.rounds)
    (show 4 * b.upcoming.length + 7 ≤ 4 * j.upcoming.length + 7 by have := hbehind.length_eq; omega)
    fun o ho => by
      obtain ⟨o', rfl, ho'⟩ := hthrough.behind o ho
      exact ho'
  obtain ⟨hclean, hbody, hleaves⟩ := hrest
  rw [source_eq limit j, wholly_append hthrough.goes]
  refine ⟨hclean, ?_, hleaves.symm⟩
  refine (Relocation.statements_append _ _ _).trans ?_
  exact congr (congrArg _ hthrough.same.symm) hbody.symm

end Grammar

/-! ## Two texts -/

namespace Token

theorem issue?_eq_none_iff {t : Token} :
    issue? t = none ↔ t.kind ≠ .unknown ∧ ¬ (t.kind = .string ∧ t.flags.unterminated = true) := by
  unfold issue?
  split
  next h => simp [h]
  next h => split <;> simp_all

/-- What is reported of tokens is reported of visible ones. -/
theorem issues_eq_nil_iff {text : String} : issues (tokenize text) = [] ↔
    ∀ t ∈ (Cursor.ofTokens (tokenize text)).upcoming ++ [(Cursor.ofTokens (tokenize text)).ending],
      issue? t = none := by
  rw [← issues_visible, Cursor.visible_tokenize, issues, List.filterMap_eq_nil_iff]

end Token

namespace Cursor

theorem fresh_of_issues_nil {text : String} (h : Token.issues (Token.tokenize text) = []) :
    (ofTokens (Token.tokenize text)).Fresh := by
  obtain ⟨-, -, -, -, -, -, hsound⟩ := ofTokens_tokenize text
  exact ⟨hsound, fun t ht => (Token.issue?_eq_none_iff.1 (Token.issues_eq_nil_iff.1 h t
    (List.mem_append_left _ ht))).1, rfl, rfl, rfl, rfl⟩

/-- Nothing is reported of tokens that were not reported further in front. -/
theorem Behind.issues {c : Cursor} {n : Nat} {us : List Token} {ending : Token}
    (h : c.Behind n us ending) (hclean : ∀ t ∈ c.upcoming ++ [c.ending], Token.issue? t = none) :
    ∀ t ∈ us ++ [ending], Token.issue? t = none := by
  have hmoved {t : Token} (ht : Token.issue? t = none) : Token.issue? (t.moved n) = none := by
    rw [Token.issue?_moved, ht, Option.map_none]
  have honLine {t : Token} (ht : Token.issue? t = none) : Token.issue? t.onLine = none :=
    (Token.issue?_onLine t).trans ht
  obtain ⟨hup, rfl, rfl⟩ | ⟨t, ts, hup, rfl, rfl⟩ := h
  · rw [hup] at hclean
    simpa using honLine (hmoved (hclean _ (List.mem_singleton_self _)))
  · rw [hup, List.cons_append, List.forall_mem_cons] at hclean
    rw [List.cons_append, ← List.map_singleton, ← List.map_append, List.forall_mem_cons, List.forall_mem_map]
    exact ⟨honLine (hmoved hclean.1), fun u hu => hmoved (hclean.2 u hu)⟩

end Cursor

namespace Parsed

/-- The statements of a text. One that holds nothing but trivia has none. -/
def statements (p : Parsed) : List Statement := (p.block.map Block.body).getD []

/-- The statement that leaves the text. -/
def last (p : Parsed) : Option LastStatement := p.block.bind Block.last

end Parsed

section Texts

variable (text : String) (limit : Nat)

/-- What is read of a text, also of one that holds nothing but trivia. -/
theorem parse_source :
    (parse text limit).statements = (Grammar.source limit (.ofTokens (Token.tokenize text))).1.body ∧
      (parse text limit).last = (Grammar.source limit (.ofTokens (Token.tokenize text))).1.last ∧
      ((parse text limit).issues = [] ↔ Token.issues (Token.tokenize text) = [] ∧
        (Grammar.source limit (.ofTokens (Token.tokenize text))).2.found = []) := by
  have hsort {issues : List Issue} : Issue.sort issues = [] ↔ issues = [] :=
    ⟨Issue.eq_nil_of_sort, fun h => by simp [h, Issue.sort]⟩
  by_cases hnil : (Cursor.ofTokens (Token.tokenize text)).upcoming = []
  · obtain ⟨-, -, -, -, -, -, hsound⟩ := Cursor.ofTokens_tokenize text
    have hend := hsound.atEnd_iff.2 hnil
    have hsource := Grammar.source_eq limit (.ofTokens (Token.tokenize text))
    have hnothing : Grammar.statements limit
        (Grammar.read limit (4 * (Cursor.ofTokens (Token.tokenize text)).upcoming.length + 7)) 0
        [.endOfInput] none ((Cursor.ofTokens (Token.tokenize text)).upcoming.length + 1)
        (.ofTokens (Token.tokenize text)) = (([], none), .ofTokens (Token.tokenize text)) :=
      Grammar.statements_of_end (by rw [hend, Bool.true_or])
    rw [Grammar.wholly_of_last_none (by rw [hnothing]), hnothing] at hsource
    rw [parse_of_nil limit hnil, hsource]
    exact ⟨rfl, rfl, hsort.trans (and_iff_left rfl).symm⟩
  · rw [parse_of_ne_nil limit hnil]
    refine ⟨rfl, rfl, hsort.trans ?_⟩
    rw [List.append_eq_nil_iff, Cursor.issues, List.reverse_eq_nil_iff]

end Texts

/-- **Texts are parsed line by line.** Two texts that nothing is wrong with are put together with a
line break between them, and nothing is wrong with the whole: it has the statements of the first
text, and behind them those of the second, which are further on by the length of the first and the
line break. That is so unless the first text is left by its last statement, or ends with the bar of
a lambda that has no body yet. -/
theorem parse_lineBreak (a b : String) (limit : Nat) (ha : (parse a limit).issues = [])
    (hb : (parse b limit).issues = []) (hlast : (parse a limit).last = none)
    (hbar : ∀ t ∈ (Cursor.ofTokens (Token.tokenize a)).upcoming.getLast?, t.kind ≠ .pipe) :
    (parse (a ++ "\n" ++ b) limit).issues = [] ∧
      Relocation.unmarked.statements (parse (a ++ "\n" ++ b) limit).statements =
        Relocation.unmarked.statements (parse a limit).statements ++
          (Relocation.shifted (a.length + 1)).statements (parse b limit).statements ∧
      Relocation.unmarked.optionalLast (parse (a ++ "\n" ++ b) limit).last =
        (Relocation.shifted (a.length + 1)).optionalLast (parse b limit).last := by
  obtain ⟨hbodya, hlasta, hcleana⟩ := parse_source a limit
  obtain ⟨hbodyb, hlastb, hcleanb⟩ := parse_source b limit
  obtain ⟨hbody, hleaves, hclean⟩ := parse_source (a ++ "\n" ++ b) limit
  obtain ⟨hlexeda, hfounda⟩ := hcleana.1 ha
  obtain ⟨hlexedb, hfoundb⟩ := hcleanb.1 hb
  obtain ⟨us, hup, hbehind⟩ := Cursor.ofTokens_lineBreak a b
  have hlexed : Token.issues (Token.tokenize (a ++ "\n" ++ b)) = [] := by
    refine Token.issues_eq_nil_iff.2 ?_
    rw [hup, List.append_assoc, List.forall_mem_append]
    exact ⟨fun t ht => Token.issues_eq_nil_iff.1 hlexeda t (List.mem_append_left _ ht),
      hbehind.issues (Token.issues_eq_nil_iff.1 hlexedb)⟩
  have hend : (Cursor.ofTokens (Token.tokenize a)).ending.span.start < a.length + 1 := by
    obtain ⟨ts, ending, htokens, -, -, hspan⟩ := Token.tokenize_tiles a
    obtain ⟨ts', ending', htokens', -, -, hending, -⟩ := Cursor.ofTokens_tokenize a
    obtain ⟨-, hends⟩ := List.append_inj' (htokens.symm.trans htokens') rfl
    rw [hending, ← (List.cons.inj hends).1, hspan, String.length_toList]
    exact Nat.lt_succ_self _
  obtain ⟨hfound, hall, hlasts⟩ := Grammar.source_lineBreak (Cursor.fresh_of_issues_nil hlexeda)
    (Cursor.fresh_of_issues_nil hlexedb) (Cursor.fresh_of_issues_nil hlexed) hup hbehind hend hbar
    hfounda hfoundb (hlasta.symm.trans hlast)
  rw [hclean, hbody, hbodya, hbodyb, hleaves, hlastb]
  exact ⟨⟨hlexed, hfound⟩, hall, hlasts⟩

/-- A loop behind an assignment, and nothing but a comment behind a call. -/
theorem parse_lineBreak_loop :
    ((parse "$x = [1] -- a list\nwhile ($x) \x7b f -1 \x7d" Limit.nesting).issues = [] ∧
      Relocation.unmarked.statements
          (parse "$x = [1] -- a list\nwhile ($x) \x7b f -1 \x7d" Limit.nesting).statements =
        Relocation.unmarked.statements (parse "$x = [1] -- a list" Limit.nesting).statements ++
          (Relocation.shifted 19).statements (parse "while ($x) \x7b f -1 \x7d" Limit.nesting).statements) ∧
    (parse "f (|n| \x7b n \x7d) -1\n -- no more" Limit.nesting).issues = [] := by
  have hloop := parse_lineBreak "$x = [1] -- a list" "while ($x) \x7b f -1 \x7d" Limit.nesting
    (by decide +kernel) (by decide +kernel) (by decide +kernel) (by decide +kernel)
  have hcomment := parse_lineBreak "f (|n| \x7b n \x7d) -1" " -- no more" Limit.nesting
    (by decide +kernel) (by decide +kernel) (by decide +kernel) (by decide +kernel)
  exact ⟨⟨hloop.1, hloop.2.1⟩, hcomment.1⟩

end CommandScript
