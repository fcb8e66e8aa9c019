import CommandScript.Proofs.Trivia
import CommandScript.Proofs.Spelled
/-!
# CommandScript — the tokens at a seam

A line break ends every lexeme. So where a text goes on behind a line break, its tokens
are those of the part before and those of the part behind, further on; only of the first
visible token behind the line break, and of what is hidden before it, more is known than by
itself, namely that it comes after a line break.
-/

namespace CommandScript

namespace Lexeme

variable {c : Char} {cs rest : List Char}

theorem takeWhile_append_lineBreak {p : Char → Bool} (hp : p '\n' = false) :
    (cs ++ '\n' :: rest).takeWhile p = cs.takeWhile p := by
  rw [List.takeWhile_append]
  split
  next h =>
    rw [List.takeWhile_cons_of_neg (by simp [hp]), List.append_nil]
    exact (List.takeWhile_prefix p).eq_of_length h |>.symm
  next => rfl

theorem stringTail_append_lineBreak {quote : Char} (hquote : quote ≠ '\n') :
    stringTail quote (cs ++ '\n' :: rest) = stringTail quote cs := by
  fun_induction stringTail quote cs with
  | case1 =>
    rw [List.nil_append, stringTail.eq_def]
    dsimp only
    rw [if_neg hquote.symm, if_pos (by decide)]
  | case2 tail =>
    rw [List.cons_append, stringTail.eq_def]
    dsimp only
    rw [if_pos rfl]
  | case3 c tail hne hbreak =>
    rw [List.cons_append, stringTail.eq_def]
    dsimp only
    rw [if_neg hne, if_pos hbreak]
  | case4 hne hbreak =>
    rw [List.cons_append, List.nil_append, stringTail, if_neg hne, if_neg hbreak, if_pos rfl]
    rfl
  | case5 d tail hd hne hbreak =>
    rw [List.cons_append, List.cons_append, stringTail, if_neg hne, if_neg hbreak, if_pos rfl]
    dsimp only
    rw [if_pos hd]
  | case6 d tail hd hne hbreak l ih =>
    rw [List.cons_append, List.cons_append, stringTail, if_neg hne, if_neg hbreak, if_pos rfl]
    dsimp only
    rw [if_neg hd, ih]
  | case7 c tail hne hbreak hslash ih =>
    rw [List.cons_append, stringTail.eq_def]
    dsimp only
    rw [if_neg hne, if_neg hbreak, if_neg hslash, ih]

theorem numberTail_append_lineBreak (pointSeen : Bool) :
    numberTail pointSeen (cs ++ '\n' :: rest) = numberTail pointSeen cs := by
  have hhead (tail : List Char) : ((tail ++ '\n' :: rest).head?.map isDecimalDigit).getD false =
      (tail.head?.map isDecimalDigit).getD false := by
    cases tail <;> rfl
  induction pointSeen, cs using numberTail.induct with
  | case1 => rfl
  | case2 pointSeen c tail hdigit ih =>
    rw [List.cons_append, numberTail, numberTail, if_pos hdigit, if_pos hdigit, ih]
  | case3 pointSeen c tail hdigit hpoint ih =>
    rw [List.cons_append, numberTail, numberTail, if_neg hdigit, if_neg hdigit, if_pos hpoint,
      hhead, if_pos hpoint, ih]
  | case4 pointSeen c tail hdigit hpoint =>
    rw [List.cons_append, numberTail, numberTail, if_neg hdigit, if_neg hdigit, if_neg hpoint,
      hhead, if_neg hpoint]

theorem pairAt_append_lineBreak : pairAt c (cs ++ '\n' :: rest) = pairAt c cs := by
  cases cs with
  | nil =>
    change TokenKind.ofPair c '\n' = none
    unfold TokenKind.ofPair
    split <;> first | rfl | simp_all
  | cons => rfl

theorem unknownTail_append_lineBreak : unknownTail (cs ++ '\n' :: rest) = unknownTail cs := by
  induction cs with
  | nil => rfl
  | cons c tail ih =>
    rw [List.cons_append, unknownTail, unknownTail, startsAt, startsAt, pairAt_append_lineBreak, ih]

/-- **A line break ends every lexeme.** The two characters that end a line together are one
lexeme. -/
theorem scan_append_lineBreak (c : Char) (cs rest : List Char) :
    scan c (cs ++ '\n' :: rest) = scan c cs ∨ c = '\r' ∧ cs = [] := by
  by_cases hreturn : c = '\r' ∧ cs = []
  · exact .inr hreturn
  have hhead {d : Char} (hd : d ≠ '\n') :
      (cs ++ '\n' :: rest).head? = some d ↔ cs.head? = some d := by
    cases cs with
    | nil => simp [hd.symm]
    | cons => rfl
  have hcrlf : (c = '\r' ∧ (cs ++ '\n' :: rest).head? = some '\n') ↔ c = '\r' ∧ cs.head? = some '\n' := by
    cases cs with
    | nil => exact ⟨fun h => absurd ⟨h.1, rfl⟩ hreturn, fun h => nomatch h.2⟩
    | cons => rfl
  refine .inl ?_
  unfold scan
  simp only [hcrlf, hhead (show '-' ≠ '\n' by decide), pairAt_append_lineBreak,
    numberTail_append_lineBreak, unknownTail_append_lineBreak,
    takeWhile_append_lineBreak (show isBlank '\n' = false by decide),
    takeWhile_append_lineBreak (p := (!isLineBreak ·)) (show (!isLineBreak '\n') = false by decide),
    takeWhile_append_lineBreak (show continuesIdentifier '\n' = false by decide)]
  split
  · rfl
  next hbreak =>
  rw [stringTail_append_lineBreak (by rintro rfl; exact hbreak (by decide))]
  split
  · rfl
  split
  · rfl
  split
  · rfl
  split
  · rfl
  split
  · rfl
  split
  next hpair =>
    -- The second character of a sign stands before the line break.
    cases cs with
    | nil => cases hpair
    | cons => rfl
  next => rfl

end Lexeme

/-- The issue further on by a number of characters. -/
def Issue.moved (n : Nat) (i : Issue) : Issue := { i with span := ⟨i.span.start + n, i.span.stop + n⟩ }

namespace Token

/-- The token further on by a number of characters. -/
def moved (n : Nat) (t : Token) : Token := { t with span := ⟨t.span.start + n, t.span.stop + n⟩ }

/-- The token first on a line. -/
def onLine (t : Token) : Token :=
  { t with flags := { t.flags with lineBreakBefore := true, triviaBefore := true } }

theorem walk_moved (n offset covered : Nat) (around : Surroundings) (cs : List Char) :
    walk (offset + n) around covered cs = (walk offset around covered cs).map (moved n) := by
  induction cs generalizing offset covered around with
  | nil => cases covered <;> rfl
  | cons c rest ih =>
    cases covered with
    | succ covered => rw [walk, walk, Nat.add_right_comm offset n 1, ih]
    | zero =>
      rw [walk, walk, List.map_cons, Nat.add_right_comm offset n 1, ih]
      simp [moved, Nat.add_right_comm]

theorem visible_cons_of_hidden {t : Token} {ts : List Token} (h : t.kind.isHidden = true) :
    visible (t :: ts) = visible ts := by
  rw [visible, List.filter_cons_of_neg (by simp [h]), visible]

theorem visible_cons_of_seen {t : Token} {ts : List Token} (h : t.kind.isHidden = false) :
    visible (t :: ts) = t :: visible ts := by
  rw [visible, List.filter_cons_of_pos (by simp [h]), visible]

theorem visible_append (ts us : List Token) : visible (ts ++ us) = visible ts ++ visible us :=
  List.filter_append ..

/-- Hidden tokens behind a line break change nothing of what stands before the next one. -/
theorem past_onLine {k : TokenKind} (h : k.isHidden = true) :
    Surroundings.past ⟨true, true⟩ k = ⟨true, true⟩ := by
  unfold Surroundings.past
  split
  · rfl
  next hk => rw [if_pos (by simpa [TokenKind.isHidden, hk] using h)]

/-- Behind a visible token nothing is remembered. -/
theorem past_seen {k : TokenKind} (h : k.isHidden = false) (around : Surroundings) :
    around.past k = {} := by
  simp only [TokenKind.isHidden, Bool.or_eq_false_iff, beq_eq_false_iff_ne] at h
  rw [Surroundings.past, if_neg h.2, h.1, if_neg Bool.false_ne_true]

/-- Tokens come after a line break: those up to the first visible one tell. -/
def behindLineBreak : List Token → List Token
  | [] => []
  | t :: ts => t.onLine :: if t.kind.isHidden then behindLineBreak ts else ts

/-- **The tokens behind a line break** are those of the text there, further on and after a line
break. -/
theorem walk_onLine (n offset covered : Nat) (around : Surroundings) (cs : List Char) :
    walk (offset + n) ⟨true, true⟩ covered cs =
      behindLineBreak ((walk offset around covered cs).map (moved n)) := by
  induction cs generalizing offset covered around with
  | nil => cases covered <;> rfl
  | cons c rest ih =>
    cases covered with
    | succ covered =>
      rw [walk, walk, Nat.add_right_comm offset n 1]
      exact ih _ _ _
    | zero =>
      rw [walk, walk, Nat.add_right_comm offset n 1, List.map_cons, behindLineBreak]
      congr 1
      · simp [moved, onLine, Surroundings.flags, Nat.add_right_comm]
      · cases hhidden : (Lexeme.scan c rest).kind.isHidden with
        | true =>
          rw [past_onLine hhidden, ih]
          exact (if_pos hhidden).symm
        | false =>
          rw [past_seen hhidden, past_seen hhidden, walk_moved]
          exact (if_neg (by simp [moved, hhidden])).symm

theorem visible_behindLineBreak {t : Token} {ts us : List Token} (h : visible ts = t :: us) :
    visible (behindLineBreak ts) = t.onLine :: us := by
  induction ts with
  | nil => exact nomatch h
  | cons u ts ih =>
    rw [behindLineBreak]
    cases hhidden : u.kind.isHidden with
    | true =>
      have hline : u.onLine.kind.isHidden = true := hhidden
      rw [visible_cons_of_hidden hhidden] at h
      rw [visible_cons_of_hidden hline, if_pos rfl, ih h]
    | false =>
      have hline : u.onLine.kind.isHidden = false := hhidden
      rw [visible_cons_of_seen hhidden] at h
      obtain ⟨rfl, hus⟩ := List.cons.inj h
      rw [visible_cons_of_seen hline, if_neg Bool.false_ne_true, hus]

theorem visible_map_moved (n : Nat) (ts : List Token) :
    visible (ts.map (moved n)) = (visible ts).map (moved n) := by
  rw [visible, List.filter_map]
  rfl

/-- The first visible token behind a line break begins a line. -/
theorem visible_walk_onLine (n offset : Nat) (around : Surroundings) (cs : List Char) :
    ∃ t us, visible (walk offset around 0 cs) = t :: us ∧
      visible (walk (offset + n) ⟨true, true⟩ 0 cs) = (t.moved n).onLine :: us.map (moved n) := by
  obtain ⟨ts, ending, hwalk, -, hkind, -⟩ := walk_tiles cs offset 0 around (Nat.zero_le _)
  have hseen : ending ∈ visible (walk offset around 0 cs) := by
    rw [hwalk, visible]
    exact List.mem_filter.2 ⟨List.mem_append_right _ (List.mem_singleton_self _), by rw [hkind]; rfl⟩
  obtain ⟨t, us, hvisible⟩ := List.exists_cons_of_ne_nil (List.ne_nil_of_mem hseen)
  refine ⟨t, us, hvisible, ?_⟩
  rw [walk_onLine n offset 0 around]
  exact visible_behindLineBreak (by rw [visible_map_moved, hvisible]; rfl)

theorem issue?_moved (n : Nat) (t : Token) : (t.moved n).issue? = t.issue?.map (Issue.moved n) := by
  rw [issue?, issue?, apply_ite (Option.map _), apply_ite (Option.map _)]
  rfl

theorem issue?_onLine (t : Token) : t.onLine.issue? = t.issue? := rfl

theorem issues_map_moved (n : Nat) (ts : List Token) :
    issues (ts.map (moved n)) = (issues ts).map (Issue.moved n) := by
  rw [issues, issues, List.filterMap_map, List.map_filterMap]
  exact List.filterMap_congr fun t _ => issue?_moved n t

theorem issues_behindLineBreak (ts : List Token) : issues (behindLineBreak ts) = issues ts := by
  induction ts with
  | nil => rfl
  | cons t ts ih =>
    rw [behindLineBreak, issues, issues, List.filterMap_cons, List.filterMap_cons, issue?_onLine]
    have hrest : (if t.kind.isHidden then behindLineBreak ts else ts).filterMap issue? =
        ts.filterMap issue? := by
      split
      · exact ih
      · rfl
    rw [hrest]

/-- A line break at the place of a token. -/
def lineBreak (t : Token) : Token :=
  { t with kind := .newline, text := "\n", span := ⟨t.span.start, t.span.start + 1⟩ }

/-- The sign for the end of a line with its second character. -/
def andFeed (t : Token) : Token := { t with text := "\r\n", span := ⟨t.span.start, t.span.stop + 1⟩ }

/-- **Where a text goes on behind a line break**, its tokens are those of the part before, with the
line break in place of the end, and those of the part behind. If the part before ends with half a
line break, that is made whole instead. -/
theorem walk_lineBreak {cs : List Char} (rest : List Char) (offset : Nat) {covered : Nat}
    (around : Surroundings) (hcovered : covered ≤ cs.length) :
    ∃ ts ending, walk offset around covered cs = ts ++ [ending] ∧ ending.kind = .endOfInput ∧
      ending.span = .point (offset + cs.length) ∧
      (walk offset around covered (cs ++ '\n' :: rest) =
          ts ++ ending.lineBreak :: walk (offset + cs.length + 1) ⟨true, true⟩ 0 rest ∨
        ∃ us t, ts = us ++ [t] ∧ t.kind = .newline ∧ t.text = "\r" ∧
          walk offset around covered (cs ++ '\n' :: rest) =
            us ++ t.andFeed :: walk (offset + cs.length + 1) ⟨true, true⟩ 0 rest) := by
  induction cs generalizing offset covered around with
  | nil =>
    obtain rfl : covered = 0 := Nat.le_zero.1 hcovered
    exact ⟨[], _, rfl, rfl, rfl, .inl rfl⟩
  | cons c cs ih =>
    have hlength : offset + (c :: cs).length = offset + 1 + cs.length := by
      rw [List.length_cons, Nat.add_comm cs.length, Nat.add_assoc]
    rw [hlength, List.cons_append]
    cases covered with
    | succ covered =>
      rw [walk, walk]
      exact ih _ _ (Nat.le_of_succ_le_succ hcovered)
    | zero =>
      rw [walk, walk]
      obtain hscan | ⟨rfl, rfl⟩ := Lexeme.scan_append_lineBreak c cs rest
      · obtain ⟨ts, ending, hts, hkind, hspan, hwalk⟩ := ih (offset + 1) _ (Lexeme.scan_tail_isPrefix c cs).length_le
        refine ⟨_ :: ts, ending, by rw [hts, List.cons_append], hkind, hspan, ?_⟩
        rw [hscan]
        obtain hwalk | ⟨us, t, rfl, hbreak, htext, hwalk⟩ := hwalk
        · exact .inl (by rw [hwalk, List.cons_append])
        · exact .inr ⟨_ :: us, t, rfl, hbreak, htext, by rw [hwalk, List.cons_append]⟩
      · -- The line break is the second half of one that was begun.
        exact ⟨[_], _, rfl, rfl, rfl, .inr ⟨[], _, rfl, rfl, rfl, rfl⟩⟩

theorem visible_append_cons_of_hidden {ts us : List Token} {t : Token} (h : t.kind.isHidden = true) :
    visible (ts ++ t :: us) = visible ts ++ visible us := by
  rw [visible_append, visible_cons_of_hidden h]

/-- Of a line break nothing is visible. -/
theorem visible_walk_lineBreak {cs : List Char} (rest : List Char) {offset covered : Nat}
    {around : Surroundings} (hcovered : covered ≤ cs.length) :
    ∃ ts ending, walk offset around covered cs = ts ++ [ending] ∧
      visible (walk offset around covered (cs ++ '\n' :: rest)) =
        visible ts ++ visible (walk (offset + cs.length + 1) ⟨true, true⟩ 0 rest) := by
  obtain ⟨ts, ending, hts, -, -, hwalk | ⟨us, t, rfl, hbreak, -, hwalk⟩⟩ :=
    walk_lineBreak rest offset around hcovered
  · exact ⟨ts, ending, hts, by rw [hwalk, visible_append_cons_of_hidden rfl]⟩
  · have hhidden : t.kind.isHidden = true := by rw [hbreak]; rfl
    have hfeed : t.andFeed.kind.isHidden = true := hhidden
    refine ⟨us ++ [t], ending, hts, ?_⟩
    rw [hwalk, visible_append_cons_of_hidden hfeed, visible_append_cons_of_hidden hhidden]
    exact congrArg (· ++ _) (List.append_nil _).symm

end Token

namespace Cursor

/-- What stands behind a line break: the tokens of a text further on, the first one, which may be
the end, on a line of its own. -/
def Behind (n : Nat) (c : Cursor) (us : List Token) (ending : Token) : Prop :=
  c.upcoming = [] ∧ us = [] ∧ ending = (c.ending.moved n).onLine ∨
    ∃ t ts, c.upcoming = t :: ts ∧ us = (t.moved n).onLine :: ts.map (Token.moved n) ∧
      ending = c.ending.moved n

/-- **The cursor before two texts**, one behind the other, with a line break between them. -/
theorem ofTokens_lineBreak (a b : String) :
    ∃ us, (ofTokens (Token.tokenize (a ++ "\n" ++ b))).upcoming =
        (ofTokens (Token.tokenize a)).upcoming ++ us ∧
      (ofTokens (Token.tokenize b)).Behind (a.length + 1) us
        (ofTokens (Token.tokenize (a ++ "\n" ++ b))).ending := by
  obtain ⟨ts, ending, hts, hjoined⟩ := Token.visible_walk_lineBreak b.toList (Nat.zero_le _)
  obtain ⟨ts', ending', hts', -, hup, -⟩ := ofTokens_tokenize a
  obtain ⟨rfl, -⟩ := List.append_inj' (hts.symm.trans hts') rfl
  obtain ⟨t, rest, hbehind, hmoved⟩ := Token.visible_walk_onLine (a.length + 1) 0 {} b.toList
  have htext : (a ++ "\n" ++ b).toList = a.toList ++ '\n' :: b.toList := by simp
  have hwalk : Token.visible (Token.tokenize (a ++ "\n" ++ b)) = (ofTokens (Token.tokenize a)).upcoming ++
      (t.moved (a.length + 1)).onLine :: rest.map (Token.moved (a.length + 1)) := by
    rw [Token.tokenize, htext, hjoined, hup, ← hmoved, String.length_toList, Nat.add_assoc]
    rfl
  have hseen := (visible_tokenize (a ++ "\n" ++ b)).symm.trans hwalk
  have hseen' : (ofTokens (Token.tokenize b)).upcoming ++ [(ofTokens (Token.tokenize b)).ending] =
      t :: rest := (visible_tokenize b).symm.trans hbehind
  generalize ofTokens (Token.tokenize (a ++ "\n" ++ b)) = j, ofTokens (Token.tokenize b) = c at *
  cases hc : c.upcoming with
  | nil =>
    rw [hc] at hseen'
    obtain ⟨rfl, rfl⟩ := List.cons.inj hseen'
    obtain ⟨hupcoming, hending⟩ := List.append_inj' hseen rfl
    exact ⟨[], by rw [hupcoming, List.append_nil], .inl ⟨hc, rfl, List.cons.inj hending |>.1⟩⟩
  | cons u us =>
    rw [hc, List.cons_append] at hseen'
    obtain ⟨rfl, rfl⟩ := List.cons.inj hseen'
    rw [List.map_append, ← List.cons_append, ← List.append_assoc] at hseen
    obtain ⟨hupcoming, hending⟩ := List.append_inj' hseen rfl
    exact ⟨_, hupcoming, .inr ⟨u, us, hc, rfl, List.cons.inj hending |>.1⟩⟩

end Cursor

end CommandScript
