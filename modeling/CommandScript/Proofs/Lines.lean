import CommandScript.Proofs.Lexing
import CommandScript.Proofs.Seam
import CommandScript.Proofs.Enclosing
import CommandScript.Run.Eval
/-!
# CommandScript — lines

A line break is a token of its own and stands in no other one: whatever is scanned, be it
an open string with a backslash before the break, stops there. So an error stays on its
line, and the tokens of lines that are put together are those of the lines.

The number of a line counts line feeds. It is the number of line breaks before it, but for
those that are written with a carriage return alone.
-/

namespace CommandScript

/-- A character that satisfies a test which no line break does is no line break. -/
theorem not_isLineBreak_of {p : Char → Bool} {c : Char} (h : p c = true) (hfeed : p '\n' = false)
    (hreturn : p '\r' = false) : isLineBreak c = false := by
  have hne {d : Char} (hd : p d = false) : (c == d) = false := by
    rw [beq_eq_false_iff_ne]
    rintro rfl
    exact absurd (h.symm.trans hd) (by decide)
  rw [isLineBreak, hne hfeed, hne hreturn, Bool.or_false]

namespace Lexeme

theorem stringTail_unbroken (quote : Char) (cs : List Char) (hquote : isLineBreak quote = false) :
    ∀ d ∈ (stringTail quote cs).tail, isLineBreak d = false := by
  fun_induction stringTail quote cs with
  | case1 => exact List.forall_mem_nil _
  | case2 rest => simpa using hquote
  | case3 => exact List.forall_mem_nil _
  | case4 hne hbreak => simpa using hbreak
  | case5 d rest hd hne hbreak => simpa using hbreak
  | case6 d rest hd hne hbreak l ih =>
    exact List.forall_mem_cons.2 ⟨rfl, List.forall_mem_cons.2 ⟨by simpa using hd, ih⟩⟩
  | case7 c rest hne hbreak hslash ih =>
    exact List.forall_mem_cons.2 ⟨by simpa using hbreak, ih⟩

theorem numberTail_unbroken (pointSeen : Bool) (cs : List Char) :
    ∀ d ∈ numberTail pointSeen cs, isLineBreak d = false := by
  induction pointSeen, cs using numberTail.induct with
  | case1 => exact List.forall_mem_nil _
  | case2 pointSeen c rest hdigit ih =>
    rw [numberTail, if_pos hdigit]
    exact List.forall_mem_cons.2 ⟨not_isLineBreak_of hdigit rfl rfl, ih⟩
  | case3 pointSeen c rest hdigit hpoint ih =>
    rw [numberTail, if_neg hdigit, if_pos hpoint]
    exact List.forall_mem_cons.2 ⟨by rw [hpoint.1]; rfl, ih⟩
  | case4 pointSeen c rest hdigit hpoint =>
    rw [numberTail, if_neg hdigit, if_neg hpoint]
    exact List.forall_mem_nil _

theorem unknownTail_unbroken (cs : List Char) : ∀ d ∈ unknownTail cs, isLineBreak d = false := by
  induction cs with
  | nil => exact List.forall_mem_nil _
  | cons c rest ih =>
    rw [unknownTail]
    split
    · exact List.forall_mem_nil _
    next h =>
      refine List.forall_mem_cons.2 ⟨?_, ih⟩
      simp only [startsAt, Bool.or_eq_true, not_or, Bool.not_eq_true] at h
      exact h.1.1.1.1.1.2

theorem takeWhile_unbroken {p : Char → Bool} (cs : List Char) (hfeed : p '\n' = false)
    (hreturn : p '\r' = false) : ∀ d ∈ cs.takeWhile p, isLineBreak d = false :=
  fun d hd => not_isLineBreak_of (List.all_eq_true.1 List.all_takeWhile d hd) hfeed hreturn

theorem ofPair_unbroken {c d : Char} {k : TokenKind} (h : TokenKind.ofPair c d = some k) :
    isLineBreak c = false ∧ isLineBreak d = false := by
  unfold TokenKind.ofPair at h
  split at h <;> cases h <;> exact ⟨rfl, rfl⟩

theorem ofSign_unbroken {c : Char} {k : TokenKind} (h : TokenKind.ofSign c = some k) :
    isLineBreak c = false := by
  unfold TokenKind.ofSign at h
  split at h <;> cases h <;> rfl

/-- **No lexeme but a line break has one in it.** -/
theorem scan_unbroken {c : Char} {rest : List Char} (h : (scan c rest).kind ≠ .newline) :
    ∀ d ∈ c :: (scan c rest).tail, isLineBreak d = false := by
  have hscans := scans c rest
  generalize scan c rest = l at h hscans ⊢
  cases hscans with
  | newline => exact absurd rfl h
  | whitespace hc =>
    exact List.forall_mem_cons.2 ⟨not_isLineBreak_of hc rfl rfl, takeWhile_unbroken _ rfl rfl⟩
  | comment hc =>
    exact List.forall_mem_cons.2 ⟨by rw [hc]; rfl, takeWhile_unbroken _ rfl rfl⟩
  | string hc =>
    have hquote := not_isLineBreak_of hc rfl rfl
    exact List.forall_mem_cons.2 ⟨hquote, stringTail_unbroken c rest hquote⟩
  | number hc =>
    exact List.forall_mem_cons.2 ⟨not_isLineBreak_of hc rfl rfl, numberTail_unbroken _ _⟩
  | word hc =>
    exact List.forall_mem_cons.2 ⟨not_isLineBreak_of hc rfl rfl, takeWhile_unbroken _ rfl rfl⟩
  | pair _ hk =>
    obtain ⟨hfirst, hsecond⟩ := ofPair_unbroken hk
    exact List.forall_mem_cons.2 ⟨hfirst, List.forall_mem_singleton.2 hsecond⟩
  | sign hk => exact List.forall_mem_singleton.2 (ofSign_unbroken hk)
  | unknown hc =>
    simp only [startsAt, Bool.or_eq_false_iff] at hc
    exact List.forall_mem_cons.2 ⟨hc.1.1.1.1.1.2, unknownTail_unbroken _⟩

/-- A line break is a line feed, a carriage return, or both. -/
theorem scan_newline {c : Char} {rest : List Char} (h : (scan c rest).kind = .newline) :
    c :: (scan c rest).tail ∈ [['\n'], ['\r'], ['\r', '\n']] := by
  have hscans := scans c rest
  generalize scan c rest = l at h hscans ⊢
  cases hscans with
  | newline hc =>
    obtain rfl | rfl : c = '\n' ∨ c = '\r' := by simpa [isLineBreak] using hc
    · dsimp only
      rw [if_neg fun h => absurd h.1 (by decide)]
      decide
    · dsimp only
      split <;> decide
  | whitespace | comment | number | unknown => cases h
  | string => cases (stringTail_spec c rest).1.symm.trans h
  | word => exact absurd h (ofWord_ne _ (by decide))
  | pair _ hk => exact absurd h (ofPair_ne hk (by decide))
  | sign hk => exact absurd h (ofSign_ne hk (by decide))

end Lexeme

namespace Token

/-- No token but a line break has one in it. -/
theorem unbroken_of_mem {text : String} {t : Token} (ht : t ∈ tokenize text) (hk : t.kind ≠ .newline) :
    ∀ d ∈ t.text.toList, isLineBreak d = false := by
  obtain ⟨before, after, hsplit⟩ := List.append_of_mem ht
  obtain ⟨-, -, rfl⟩ | ⟨c, rest, -, rfl, -⟩ := token_cases hsplit
  · exact nofun
  · rw [Lexeme.token, String.toList_ofList]
    exact Lexeme.scan_unbroken hk

/-- Only strings and what begins no lexeme give rise to issues. -/
theorem issue?_eq_none {t : Token} (h : t.kind ∉ [.string, .unknown]) : t.issue? = none := by
  rw [List.mem_cons, List.mem_singleton, not_or] at h
  rw [issue?, if_neg h.2, if_neg fun hopen => h.1 hopen.1]

/-- A text that does not end with a carriage return has no token that is half a line break at its
end. -/
theorem text_ne_return {text : String} {ts : List Token} {t ending : Token}
    (hreturn : text.toList.getLast? ≠ some '\r') (h : tokenize text = ts ++ [t] ++ [ending])
    (hend : ending.kind = .endOfInput) : t.text ≠ "\r" := by
  intro ht
  refine hreturn ?_
  obtain ⟨hlist, -⟩ | ⟨c, rest, -, hending, -⟩ := token_cases h
  · rw [hlist, List.flatMap_append, List.flatMap_singleton, ht]
    exact List.getLast?_concat
  · rw [hending] at hend
    exact absurd hend (Lexeme.scan_kind_ne_endOfInput c rest)

/-- **Texts are cut line by line.** No token but a line break has one in it. Where a text goes on
behind a line break, its tokens are those of the part before, with the line break in place of the
end, and those of the part behind, further on; of these the ones up to the first visible one come
after a line break, and nothing else is different. What is reported is what is reported of the two
parts, one behind the other. -/
theorem tokenize_lineBreak :
    (∀ text, ∀ t ∈ tokenize text, t.kind ≠ .newline → '\n' ∉ t.text.toList ∧ '\r' ∉ t.text.toList) ∧
      ∀ a b : String, a.toList.getLast? ≠ some '\r' →
        ∃ ts ending, tokenize a = ts ++ [ending] ∧ ending.kind = .endOfInput ∧
          tokenize (a ++ "\n" ++ b) =
            ts ++ ⟨.newline, "\n", ⟨a.length, a.length + 1⟩, ending.flags⟩ ::
              behindLineBreak ((tokenize b).map (moved (a.length + 1))) ∧
          (Lexer.lex (a ++ "\n" ++ b)).2 =
            (Lexer.lex a).2 ++ (Lexer.lex b).2.map (Issue.moved (a.length + 1)) := by
  refine ⟨fun text t ht hk => ?_, fun a b hreturn => ?_⟩
  · have hunbroken := unbroken_of_mem ht hk
    exact ⟨fun h => absurd (hunbroken _ h) (by decide), fun h => absurd (hunbroken _ h) (by decide)⟩
  have htext : (a ++ "\n" ++ b).toList = a.toList ++ '\n' :: b.toList := by simp
  -- the second case is a carriage return that the line feed would join
  obtain ⟨ts, ending, hts, hend, hspan, hwalk | ⟨us, t, rfl, -, hhalf, -⟩⟩ :=
    walk_lineBreak b.toList 0 {} (Nat.zero_le a.toList.length)
  · have hbehind := walk_onLine (a.length + 1) 0 0 {} b.toList
    have hbreak : ending.lineBreak = ⟨.newline, "\n", ⟨a.length, a.length + 1⟩, ending.flags⟩ := by
      rw [lineBreak, hspan, String.length_toList, Nat.zero_add]
      rfl
    rw [String.length_toList, Nat.zero_add, hbreak] at hwalk
    rw [Nat.zero_add] at hbehind
    have hjoined : tokenize (a ++ "\n" ++ b) = ts ++ ⟨.newline, "\n", ⟨a.length, a.length + 1⟩, ending.flags⟩ ::
        behindLineBreak ((tokenize b).map (moved (a.length + 1))) := by
      rw [tokenize, htext, hwalk, hbehind]
      rfl
    have hfirst : issues (tokenize a) = issues ts := by
      have hquiet : ending.issue? = none := issue?_eq_none (by rw [hend]; decide)
      rw [show tokenize a = ts ++ [ending] from hts, issues, List.filterMap_append,
        List.filterMap_cons_none hquiet, List.filterMap_nil, List.append_nil, issues]
    refine ⟨ts, ending, hts, hend, hjoined, ?_⟩
    rw [Lexer.lex_eq, Lexer.lex_eq, Lexer.lex_eq]
    calc issues (tokenize (a ++ "\n" ++ b))
        = issues ts ++ issues (behindLineBreak ((tokenize b).map (moved (a.length + 1)))) := by
          rw [hjoined, issues, List.filterMap_append, List.filterMap_cons_none rfl, issues, issues]
      _ = issues (tokenize a) ++ (issues (tokenize b)).map (Issue.moved (a.length + 1)) := by
          rw [hfirst, issues_behindLineBreak, issues_map_moved]
  · exact absurd hhalf (text_ne_return hreturn hts hend)

/-- An open string that ends with a backslash, and behind the line break blanks and a comment before
the characters that begin no token. -/
theorem tokenize_lineBreak_open :
    ("f \"x\\".toList.getLast? ≠ some '\r') ∧
      ∃ ts ending, tokenize "f \"x\\" = ts ++ [ending] ∧ ending.kind = .endOfInput ∧
        tokenize ("f \"x\\" ++ "\n" ++ " -- y\n##\n") =
          ts ++ ⟨.newline, "\n", ⟨5, 6⟩, ending.flags⟩ ::
            behindLineBreak ((tokenize " -- y\n##\n").map (moved 6)) ∧
        (Lexer.lex ("f \"x\\" ++ "\n" ++ " -- y\n##\n")).2 =
          (Lexer.lex "f \"x\\").2 ++ (Lexer.lex " -- y\n##\n").2.map (Issue.moved 6) :=
  ⟨by decide, tokenize_lineBreak.2 "f \"x\\" " -- y\n##\n" (by decide)⟩

/-! ## Counting lines -/

/-- A line break with a line feed in it. -/
def feeds (t : Token) : Bool := t.kind == .newline && t.text != "\r"

/-- A token has as many line feeds in it as it is line breaks with one. -/
theorem count_feed {text : String} {t : Token} (ht : t ∈ tokenize text) :
    t.text.toList.count '\n' = if t.feeds then 1 else 0 := by
  by_cases hk : t.kind = .newline
  · have hmem : t.text ∈ ["\n", "\r", "\r\n"] := by
      obtain ⟨before, after, hsplit⟩ := List.append_of_mem ht
      obtain ⟨-, -, rfl⟩ | ⟨c, rest, -, rfl, -⟩ := token_cases hsplit
      · cases hk
      · exact List.mem_map_of_mem (f := String.ofList) (Lexeme.scan_newline hk)
    have hfeeds : t.feeds = (t.text != "\r") := by rw [feeds, hk]; rfl
    rw [hfeeds]
    generalize t.text = s at hmem
    simp only [List.mem_cons, List.not_mem_nil, or_false] at hmem
    obtain rfl | rfl | rfl := hmem <;> rfl
  · have hnone : t.feeds = false := by simp [feeds, hk]
    rw [hnone]
    exact List.count_eq_zero.2 fun h => absurd (unbroken_of_mem ht hk _ h) (by decide)

theorem count_feeds {text : String} {ts : List Token} (hts : ∀ t ∈ ts, t ∈ tokenize text) :
    (ts.flatMap (·.text.toList)).count '\n' = ts.countP feeds := by
  induction ts with
  | nil => rfl
  | cons t ts ih =>
    obtain ⟨ht, hts⟩ := List.forall_mem_cons.1 hts
    rw [List.flatMap_cons, List.count_append, ih hts, count_feed ht, List.countP_cons, Nat.add_comm]

/-- The line of a token is one more than the line feeds among the line breaks before it. -/
theorem lineOf_eq {text : String} {before after : List Token} {t : Token}
    (h : tokenize text = before ++ t :: after) :
    lineOf text.toList t.span.start = 1 + before.countP feeds := by
  have hbefore : ∀ u ∈ before, u ∈ tokenize text := fun u hu => h ▸ List.mem_append_left _ hu
  rw [lineOf, take_start h, count_feeds hbefore, Nat.add_comm]

/-- Line feeds are as many as line breaks if no line break is a carriage return alone. -/
theorem countP_feeds_eq_iff (ts : List Token) : ts.countP feeds = ts.countP (·.kind == .newline) ↔
    ∀ t ∈ ts, t.kind = .newline → t.text ≠ "\r" := by
  have hfeeds : ts.countP feeds = (ts.filter (·.kind == .newline)).countP (·.text != "\r") := by
    rw [List.countP_filter]
    exact List.countP_congr fun t _ => by rw [feeds, Bool.and_comm]
  have hbreaks : ts.countP (·.kind == .newline) = (ts.filter (·.kind == .newline)).length :=
    List.countP_eq_length_filter
  rw [hfeeds, hbreaks, List.countP_eq_length]
  simp only [List.mem_filter, beq_iff_eq, bne_iff_ne, and_imp]

end Token

namespace Outline

/-- A part that is no block begins where a token of the text does. -/
def BeginsIn (text : String) : Outline → Prop
  | .token _ => True
  | .node p _ => p.isBlock = false → ∃ t ∈ Token.tokenize text, p.span.start = t.span.start

end Outline

open Outline

/-- A cursor that has moved through a text is at a token of it. -/
theorem Cursor.token_mem_tokenize {text : String} {c : Cursor} {ts : List Token}
    (h : (ofTokens (Token.tokenize text)).Moved ts c) : c.token ∈ Token.tokenize text := by
  have hmem : c.token ∈ Token.visible (Token.tokenize text) := by
    rw [visible_tokenize, h.upcoming, ← h.ending]
    unfold Cursor.token
    cases c.upcoming <;> simp
  exact (List.mem_filter.1 hmem).1

/-- What is built begins where tokens of the text do. -/
theorem Built.beginsIn {text : String} {c d : Cursor} {os : List Outline} (h : Built c os d)
    (hc : ∃ ts, (Cursor.ofTokens (Token.tokenize text)).Moved ts c) : AllOf (BeginsIn text) os := by
  induction h with
  | passed => exact allOf_nil
  | token => exact allOf_cons.2 ⟨all_token _, allOf_nil⟩
  | append hfirst _ ih ih' =>
    obtain ⟨ts, hmoved⟩ := hc
    obtain ⟨us, hmoved'⟩ := hfirst.moved
    exact allOf_append.2 ⟨ih ⟨ts, hmoved⟩, ih' ⟨_, hmoved.trans hmoved'⟩⟩
  | node hos hspan _ _ _ _ _ ih =>
    obtain ⟨ts, hmoved⟩ := hc
    refine allOf_cons.2 ⟨all_node.2 ⟨fun _ => ?_, ih ⟨ts, hmoved⟩⟩, allOf_nil⟩
    exact ⟨_, Cursor.token_mem_tokenize hmoved, by rw [hspan]; rfl⟩
  | block _ _ _ ih => exact allOf_cons.2 ⟨all_node.2 ⟨nofun, ih hc⟩, allOf_nil⟩
  | left hos _ _ _ _ _ _ ih ih' =>
    obtain ⟨ts, hmoved⟩ := hc
    obtain ⟨us, hmoved'⟩ := hos.moved
    have hall := allOf_append.2 ⟨ih ⟨ts, hmoved⟩, ih' ⟨_, hmoved.trans hmoved'⟩⟩
    exact allOf_cons.2 ⟨all_node.2 ⟨nofun, hall⟩, allOf_nil⟩

/-- **The line of a token** is one more than the line breaks before it that have a line feed in
them. So it is one more than the line breaks before it if none of them is a carriage return alone,
and only then. The line that is recorded for a command of a text is that of the token it begins
with. -/
theorem lineOf_token (text : String) (limit : Nat) :
    (∀ before t after, Token.tokenize text = before ++ t :: after →
      lineOf text.toList t.span.start = 1 + before.countP Token.feeds ∧
      (lineOf text.toList t.span.start = 1 + before.countP (·.kind == .newline) ↔
        ∀ u ∈ before, u.kind = .newline → u.text ≠ "\r")) ∧
    ∀ b, (parse text limit).block = some b → ∀ c cs, (.command c, cs) ∈ (ofBlock b).nodes →
      ∃ before t after, Token.tokenize text = before ++ t :: after ∧ c.span.start = t.span.start ∧
        Eval.callLine text c.span = some (1 + before.countP Token.feeds) := by
  refine ⟨fun before t after h => ⟨Token.lineOf_eq h, ?_⟩, fun b hb c cs hc => ?_⟩
  · rw [Token.lineOf_eq h, Nat.add_left_cancel_iff]
    exact Token.countP_feeds_eq_iff before
  · obtain ⟨d, hbuilt, -, -⟩ := exists_built_of_parse hb
    have hbegins := (allOf_cons.1 (hbuilt.beginsIn ⟨[], .refl _⟩)).1 (.command c, cs) hc
    obtain ⟨t, ht, hstart⟩ : ∃ t ∈ Token.tokenize text, c.span.start = t.span.start := hbegins rfl
    obtain ⟨before, after, h⟩ := List.append_of_mem ht
    have hfilled : text.isEmpty = false := by
      refine Bool.eq_false_iff.2 fun hempty => ?_
      obtain rfl := String.isEmpty_iff.1 hempty
      cases hb
    refine ⟨before, t, after, h, hstart, ?_⟩
    rw [Eval.callLine, hfilled, hstart, Token.lineOf_eq h]
    rfl

/-- Two line breaks stand before `g`, and its line is the second one: the carriage return before it
does not count. -/
theorem lineOf_token_return :
    let text := "-- a\r\nf 1\rg"
    (∃ before t after, Token.tokenize text = before ++ t :: after ∧ t.text = "g" ∧
      lineOf text.toList t.span.start = 1 + before.countP Token.feeds ∧
      before.countP Token.feeds = 1 ∧ before.countP (·.kind == .newline) = 2) ∧
    ∃ b, (parse text Limit.nesting).block = some b ∧ ∃ c cs, (.command c, cs) ∈ (ofBlock b).nodes ∧
      ∃ before t after, Token.tokenize text = before ++ t :: after ∧ c.span.start = t.span.start ∧
        Eval.callLine text c.span = some (1 + before.countP Token.feeds) := by
  intro text
  obtain ⟨hline, hcommand⟩ := lineOf_token text Limit.nesting
  constructor
  · have hsplit : Token.tokenize text = (Token.tokenize text).take 6 ++
        ⟨.identifier, "g", ⟨10, 11⟩, ⟨true, true, false, false⟩⟩ :: (Token.tokenize text).drop 7 := by
      decide +kernel
    exact ⟨_, _, _, hsplit, rfl, (hline _ _ _ hsplit).1, by decide +kernel, by decide +kernel⟩
  · have hread : (parse text Limit.nesting).block.any (fun b => (ofBlock b).nodes.any fun q =>
        q.1 matches .command _) = true := by decide +kernel
    obtain ⟨b, hb, hread⟩ := (Option.any_eq_true ..).1 hread
    obtain ⟨⟨p, cs⟩, hp, hread⟩ := List.any_eq_true.1 hread
    cases p with
    | command c => exact ⟨b, hb, c, cs, hp, hcommand b hb c cs hp⟩
    | _ => cases hread

end CommandScript
