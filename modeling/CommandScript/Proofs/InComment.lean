import CommandScript.Proofs.AtCaret
import CommandScript.Proofs.Delimited
import CommandScript.Proofs.Flags
import CommandScript.Proofs.Lines
/-!
# CommandScript — the caret in a comment

A comment goes on to the end of its line, so no token that the grammar sees touches a caret in
it, and where two of them stand next to one another on one line, none is between them. So a
command that goes on behind the comment has the comment in one of its arguments. That argument
is no literal, and nothing is offered for it (`suggestions_in_comment`).

Two places do not go by the tokens. Empty parentheses are left out of the arguments, so in them
the caret counts as being between two others. And a statement is taken to begin behind the
last `;` or brace of the text, also if that is in a comment.
-/

namespace CommandScript

open Outline

/-! ## Comments among the tokens -/

namespace Lexeme

variable {c : Char} {rest : List Char}

/-- A comment begins with a minus and takes the rest of its line. -/
theorem scan_comment (h : (scan c rest).kind = .comment) :
    c = '-' ∧ (scan c rest).tail = rest.takeWhile (!isLineBreak ·) := by
  have hscans := scans c rest
  generalize scan c rest = l at h hscans ⊢
  cases hscans with
  | comment hc => exact ⟨hc, rfl⟩
  | string =>
    rw [(stringTail_spec c rest).1] at h
    cases h
  | word => exact absurd h (ofWord_ne _ (by decide))
  | pair _ hk => exact absurd h (ofPair_ne hk (by decide))
  | sign hk => exact absurd h (ofSign_ne hk (by decide))
  | newline | whitespace | number | unknown => cases h

theorem scan_lineBreak (hc : isLineBreak c = true) : (scan c rest).kind = .newline := by
  rw [scan, if_pos hc]

end Lexeme

namespace Token

variable {text : String} {before after : List Token} {x t : Token} {start stop : Nat}

/-- Behind a comment the line is over, or the text. -/
theorem behind_comment (h : tokenize text = before ++ x :: after) (hx : x.kind = .comment) :
    (∃ u rest, after = u :: rest ∧ u.kind = .newline) ∨
      ∃ u, after = [u] ∧ u.kind = .endOfInput := by
  obtain ⟨-, -, rfl⟩ | ⟨c, rest, -, rfl, hafter⟩ := token_cases h
  · cases hx
  obtain ⟨-, htail⟩ := Lexeme.scan_comment hx
  have hdrop : rest.drop (Lexeme.scan c rest).tail.length = rest.dropWhile (!isLineBreak ·) := by
    rw [htail]
    exact List.append_cancel_left ((List.prefix_iff_eq_append.1 (List.takeWhile_prefix _)).trans
      List.takeWhile_append_dropWhile.symm)
  rw [hdrop] at hafter
  cases hrest : rest.dropWhile (!isLineBreak ·) with
  | nil =>
    rw [hrest, walk_nil] at hafter
    exact .inr ⟨_, hafter, rfl⟩
  | cons d ds =>
    have hbreak : isLineBreak d = true := by
      have hhead := List.head?_dropWhile_not (!isLineBreak ·) rest
      rw [hrest] at hhead
      simpa using hhead
    rw [hrest, walk_scan] at hafter
    exact .inl ⟨_, _, hafter, Lexeme.scan_lineBreak hbreak⟩

/-- The tokens of a text stand one behind the other. -/
theorem pairwise_tokenize (text : String) :
    (tokenize text).Pairwise fun t u => t.span.stop ≤ u.span.start := by
  obtain ⟨ts, ending, htokens, htiles, -, hspan⟩ := tokenize_tiles text
  rw [htokens, List.pairwise_append]
  refine ⟨htiles.pairwise, List.pairwise_singleton _ _, fun t ht u hu => ?_⟩
  rw [List.mem_singleton.1 hu, hspan]
  exact htiles.stop_le ht

theorem filled_of_mem (ht : t ∈ tokenize text) (hend : t.kind ≠ .endOfInput) :
    t.span.start < t.span.stop := by
  obtain ⟨ts, ending, htokens, htiles, hkind, -⟩ := tokenize_tiles text
  rw [htokens] at ht
  obtain ht | ht := List.mem_append.1 ht
  · exact htiles.filled ht
  · exact absurd (List.mem_singleton.1 ht ▸ hkind) hend

theorem mem_upcoming_iff : t ∈ (Cursor.ofTokens (tokenize text)).upcoming ↔
    t ∈ tokenize text ∧ t.kind.isHidden = false ∧ t.kind ≠ .endOfInput := by
  simp [Cursor.ofTokens, visible, and_comm]

theorem filled_of_mem_upcoming (ht : t ∈ (Cursor.ofTokens (tokenize text)).upcoming) :
    t.span.start < t.span.stop :=
  let ⟨hmem, _, hend⟩ := mem_upcoming_iff.1 ht
  filled_of_mem hmem hend

/-- **No token that the grammar sees meets a comment**: it ends before the comment does begin, or
begins behind its line. -/
theorem clear_of_comment (hx : x ∈ tokenize text) (hkind : x.kind = .comment)
    (ht : t ∈ (Cursor.ofTokens (tokenize text)).upcoming) :
    t.span.stop ≤ x.span.start ∨ x.span.stop < t.span.start := by
  obtain ⟨ht, hhidden, hend⟩ := mem_upcoming_iff.1 ht
  obtain ⟨before, after, h⟩ := List.append_of_mem hx
  have hordered := pairwise_tokenize text
  rw [h, List.pairwise_append, List.pairwise_cons] at hordered
  obtain ⟨-, ⟨hafter, hlater⟩, hbefore⟩ := hordered
  rw [h, List.mem_append, List.mem_cons] at ht
  obtain ht | rfl | ht := ht
  · exact .inl (hbefore t ht x List.mem_cons_self)
  · rw [hkind] at hhidden
    cases hhidden
  right
  obtain ⟨u, rest, rfl, hu⟩ | ⟨u, rfl, hu⟩ := behind_comment h hkind
  · obtain rfl | ht := List.mem_cons.1 ht
    · rw [hu] at hhidden
      cases hhidden
    · -- the line break stands between
      have humem : u ∈ tokenize text := by
        rw [h]
        simp
      have hfilled := filled_of_mem humem (by rw [hu]; exact nofun)
      have hfirst := hafter u List.mem_cons_self
      have hnext := (List.pairwise_cons.1 hlater).1 t ht
      omega
  · exact absurd (List.mem_singleton.1 ht ▸ hu) hend

/-- Where a comment is passed over right before a token that the grammar sees, the token begins a
line. -/
theorem lineBreakBefore_of_passed {passed : List Token}
    (h : tokenize text = before ++ passed ++ t :: after)
    (hpassed : ∀ u ∈ passed, u.kind.isHidden = true)
    (ht : t ∈ (Cursor.ofTokens (tokenize text)).upcoming) (hx : x ∈ passed)
    (hkind : x.kind = .comment) : t.flags.lineBreakBefore = true := by
  obtain ⟨-, hhidden, hend⟩ := mem_upcoming_iff.1 ht
  obtain ⟨near, far, rfl⟩ := List.append_of_mem hx
  have hsplit : tokenize text = (before ++ near) ++ x :: (far ++ t :: after) := by
    rw [h]
    simp
  have hmark : ∃ u ∈ far, u.kind = .newline := by
    obtain ⟨u, rest, hu, hbreak⟩ | ⟨u, hu, hover⟩ := behind_comment hsplit hkind
    · cases far with
      | nil =>
        cases hu
        rw [hbreak] at hhidden
        cases hhidden
      | cons v far =>
        cases hu
        exact ⟨u, List.mem_cons_self, hbreak⟩
    · cases far with
      | nil =>
        cases hu
        exact absurd hover hend
      | cons v far => simp at hu
  obtain ⟨u, hu, hbreak⟩ := hmark
  refine (marks_iff h).1.2 ⟨u, ?_, hbreak⟩
  rw [List.rtakeWhile, List.reverse_append,
    List.takeWhile_append_of_pos fun v hv => hpassed v (List.mem_reverse.1 hv), List.mem_reverse,
    List.mem_append, List.mem_reverse]
  exact .inl (List.mem_append_right _ (List.mem_cons_of_mem _ hu))

/-- **No comment stands between neighbours on one line.** -/
theorem Adjoin.clear_of_comment (h : Adjoin (Cursor.ofTokens (tokenize text)).upcoming stop start)
    (hx : x ∈ tokenize text) (hkind : x.kind = .comment) :
    x.span.stop ≤ stop ∨ start ≤ x.span.start := by
  obtain ⟨t, u, ⟨us, vs, hup⟩, rfl, rfl, hline⟩ := h
  have htmem : t ∈ (Cursor.ofTokens (tokenize text)).upcoming := by
    rw [← hup]
    simp
  have humem : u ∈ (Cursor.ofTokens (tokenize text)).upcoming := by
    rw [← hup]
    simp
  have hvisible : visible (tokenize text) =
      (us ++ [t]) ++ u :: (vs ++ [(Cursor.ofTokens (tokenize text)).ending]) := by
    rw [Cursor.visible_tokenize, ← hup]
    simp
  obtain ⟨before, after, hsplit, hbefore, -⟩ := exists_of_visible_eq hvisible
  obtain ⟨first, passed, rfl, -, hpassed⟩ := exists_of_visible_eq hbefore
  have hordered := pairwise_tokenize text
  rw [hsplit, List.append_assoc, List.pairwise_append, List.cons_append, List.pairwise_cons,
    List.pairwise_append, List.pairwise_cons] at hordered
  obtain ⟨-, ⟨-, -, ⟨hlater, -⟩, -⟩, hearlier⟩ := hordered
  rw [hsplit, List.mem_append, List.mem_append, List.mem_cons, List.mem_cons] at hx
  obtain (hx | rfl | hx) | rfl | hx := hx
  · have hstop := hearlier x hx t List.mem_cons_self
    have hfilled := filled_of_mem_upcoming htmem
    omega
  · exact .inl (Nat.le_refl _)
  · -- behind the comment a line break stands, and so the second one would be on another line
    have hnext : tokenize text = first ++ [t] ++ passed ++ u :: after := by simpa using hsplit
    have hhidden : ∀ v ∈ passed, v.kind.isHidden = true := by simpa [visible] using hpassed
    have hbreak := lineBreakBefore_of_passed hnext hhidden humem hx hkind
    rw [hline] at hbreak
    cases hbreak
  · exact .inr (Nat.le_refl _)
  · have hstart := hlater x hx
    have hfilled := filled_of_mem_upcoming humem
    omega

theorem InLine.exists_stop {ts : List Token} {spans : List Span} (h : InLine ts start spans stop) :
    ∃ t ∈ ts, t.span.stop = stop := by
  induction spans generalizing start with
  | nil => exact h.2
  | cons s rest ih => exact ih h.2

/-- The caret is in the comment, behind its first character and not behind its end. -/
structure IsCommentAt (x : Token) (text : String) (caret : Int) : Prop where
  mem : x ∈ tokenize text
  kind : x.kind = .comment
  start_lt : x.span.start < caret
  le_stop : caret ≤ x.span.stop

namespace IsCommentAt

variable {caret : Int} {spans : List Span}

theorem untouched (h : x.IsCommentAt text caret)
    (ht : t ∈ (Cursor.ofTokens (tokenize text)).upcoming) :
    t.span.touches caret = false ∧ (t.span.stop : Int) ≠ caret := by
  obtain ⟨hx, hkind, hstart, hstop⟩ := h
  have hclear := clear_of_comment hx hkind ht
  have hfilled := filled_of_mem_upcoming ht
  simp only [Span.touches, Bool.and_eq_false_iff, decide_eq_false_iff_not]
  omega

/-- The first character of the comment is a minus. -/
theorem getElem?_start (h : x.IsCommentAt text caret) :
    text.toList[x.span.start]? = some '-' := by
  obtain ⟨before, after, hsplit⟩ := List.append_of_mem h.mem
  rw [start_eq hsplit]
  obtain ⟨-, -, hend⟩ | ⟨c, rest, htext, hx, -⟩ := token_cases hsplit
  · exact absurd h.kind (by rw [hend]; exact nofun)
  · have hkind : (Lexeme.scan c rest).kind = .comment := by
      rw [← h.kind, hx]
      rfl
    rw [htext, List.getElem?_append_right (Nat.le_refl _), Nat.sub_self, List.getElem?_cons_zero,
      (Lexeme.scan_comment hkind).1]

/-- From where the comment begins or before that, not only blanks stand before the caret. -/
theorem not_isBlankBetween (h : x.IsCommentAt text caret) (hstart : start ≤ x.span.start) :
    Walk.isBlankBetween text.toList start caret = false := by
  have hlt := h.start_lt
  have hmem : '-' ∈ (text.toList.drop start).take (caret - start).toNat := by
    refine List.mem_of_getElem? (i := x.span.start - start) ?_
    rw [List.getElem?_take_of_lt (by omega), List.getElem?_drop, Nat.add_sub_cancel' hstart]
    exact h.getElem?_start
  rw [Walk.isBlankBetween, Bool.and_eq_false_iff]
  exact .inr (List.all_eq_false.2 ⟨'-', hmem, by decide⟩)

/-- **Where spans on one line go on behind the comment, one of them has the caret in it.** -/
theorem exists_touches (h : x.IsCommentAt text caret)
    (hline : InLine (Cursor.ofTokens (tokenize text)).upcoming start spans stop)
    (hstart : start < caret) (hstop : caret ≤ stop) : ∃ s ∈ spans, s.touches caret = true := by
  induction spans generalizing start with
  | nil =>
    obtain ⟨rfl, -⟩ := hline
    omega
  | cons s rest ih =>
    obtain ⟨hnext, hrest⟩ := hline
    have hbegins : (s.start : Int) < caret := by
      have hclear := hnext.clear_of_comment h.mem h.kind
      have hx := h.start_lt
      have hx' := h.le_stop
      omega
    by_cases hends : (s.stop : Int) < caret
    · obtain ⟨s', hs', htouches⟩ := ih hrest hends
      exact ⟨s', List.mem_cons_of_mem _ hs', htouches⟩
    · refine ⟨s, List.mem_cons_self, ?_⟩
      simp only [Span.touches, Bool.and_eq_true, decide_eq_true_eq]
      omega

end IsCommentAt

end Token

/-! ## What counts as the begin of a statement -/

/-- A statement is taken to begin with the text, or behind a line break, a `;` or a brace. -/
theorem Assist.statementStart_cases (before : List Char) : statementStart before = 0 ∨
    ∃ i c, statementStart before = i + 1 ∧ before[i]? = some c ∧
      (c = '\n' ∨ c = ';' ∨ c = '\x7b') := by
  generalize hp : (fun c => c != '\n' && c != ';' && c != '\x7b') = p
  have hstart : statementStart before = before.length - (before.reverse.takeWhile p).length := by
    rw [statementStart, hp]
  have hsplit : before.reverse.takeWhile p ++ before.reverse.dropWhile p = before.reverse :=
    List.takeWhile_append_dropWhile
  cases hrest : before.reverse.dropWhile p with
  | nil =>
    left
    rw [hrest, List.append_nil] at hsplit
    rw [hstart, hsplit, List.length_reverse, Nat.sub_self]
  | cons d ds =>
    right
    have hd : p d = false := by
      have hhead := List.head?_dropWhile_not p before.reverse
      rw [hrest] at hhead
      simpa using hhead
    have hbefore : before = ds.reverse ++ d :: (before.reverse.takeWhile p).reverse := by
      rw [hrest] at hsplit
      simpa using (congrArg List.reverse hsplit).symm
    have hlength := congrArg List.length hbefore
    refine ⟨ds.length, d, ?_, ?_, ?_⟩
    · simp at hlength
      omega
    · rw [hbefore]
      simp
    · simpa only [← hp, Bool.and_eq_false_iff, bne_eq_false_iff_eq, or_assoc] using hd

/-- In the comment a `;` or an opening brace stands before the caret, and only blanks between the
two. -/
def Token.SeparatesIn (x : Token) (text : String) (caret : Int) : Prop :=
  ∃ i : Nat, x.span.start < i ∧ i < caret ∧
    (text.toList[i]? = some ';' ∨ text.toList[i]? = some '\x7b') ∧
    Walk.isBlankBetween text.toList (i + 1 : Nat) caret = true

/-- In a comment a statement is taken to begin only behind a `;` or a brace of the comment. -/
theorem Token.IsCommentAt.separates {x : Token} {text : String} {ctx : AssistContext}
    (h : x.IsCommentAt text ctx.caret) (htext : ctx.text = text.toList)
    (hbegins : Assist.BeginsStatement ctx) : x.SeparatesIn text ctx.caret := by
  have hlt := h.start_lt
  have hle := h.le_stop
  rw [Assist.BeginsStatement, htext] at hbegins
  generalize hbefore : text.toList.take ctx.caret.toNat = before at hbegins
  have hlength : before.length ≤ ctx.caret.toNat := hbefore ▸ List.length_take_le _ _
  have hblank :
      Walk.isBlankBetween text.toList (Assist.statementStart before) ctx.caret = true := by
    have hfirst : Assist.statementStart before ≤ before.length := Nat.sub_le _ _
    rw [← hbefore, List.drop_take, hbefore] at hbegins
    rw [Walk.isBlankBetween, Bool.and_eq_true, decide_eq_true_eq]
    refine ⟨by omega, ?_⟩
    rwa [Int.toNat_natCast, Int.toNat_sub'' (by omega) (by omega)]
  have hbehind : x.span.start < Assist.statementStart before := by
    by_contra hstart
    rw [h.not_isBlankBetween (Nat.not_lt.1 hstart)] at hblank
    cases hblank
  obtain hzero | ⟨i, c, hstart, hc, hsort⟩ := Assist.statementStart_cases before
  · omega
  rw [hstart] at hblank hbehind
  obtain ⟨hlast, -⟩ := List.getElem?_eq_some_iff.1 hc
  have hi : i < ctx.caret.toNat := by omega
  rw [← hbefore, List.getElem?_take_of_lt hi] at hc
  have hinside : x.span.start < i := by
    refine Nat.lt_of_le_of_ne (by omega) fun hsame => ?_
    have hminus := h.getElem?_start
    rw [hsame, hc] at hminus
    cases hminus
    simp at hsort
  have hunbroken : isLineBreak c = false := by
    refine Token.unbroken_of_mem h.mem (by rw [h.kind]; exact nofun) c ?_
    rw [Token.text_eq_slice h.mem, Span.slice]
    refine List.mem_of_getElem? (i := i - x.span.start) ?_
    rw [List.getElem?_take_of_lt (by omega), List.getElem?_drop, Nat.add_sub_cancel' (by omega)]
    exact hc
  refine ⟨i, hinside, by omega, ?_, hblank⟩
  obtain rfl | rfl | rfl := hsort
  · cases hunbroken
  · exact .inl hc
  · exact .inr hc

/-! ## Visits that the caret does not reach -/

namespace Walk

variable {ctx : AssistContext} {fits : Completion → Prop} {b : Block}

/-- The caret touches none of the tokens. -/
def Untouched (ctx : AssistContext) (ts : List Token) : Prop :=
  ∀ t ∈ ts, t.span.touches ctx.caret = false ∧ (t.span.stop : Int) ≠ ctx.caret

theorem quiet_visitRoot_untouched (kind : Option SuggestionKind) {r : VarRoot}
    (h : Untouched ctx (ofRoot r).tokens) : Calm ctx fits (visitRoot ctx kind r) := by
  cases r with
  | bare t =>
    have ht := h t (by simp [ofRoot, Outline.tokens, tokensOfAll])
    rw [visitRoot, ht.1, if_neg Bool.false_ne_true]
    exact .pure trivial
  | named dollar name span =>
    cases name with
    | none =>
      have hdollar := h dollar (by simp [ofRoot, ofTokens, Outline.tokens, tokensOfAll])
      rw [visitRoot, if_neg hdollar.2]
      exact .pure trivial
    | some t =>
      have ht := h t (by simp [ofRoot, ofTokens, Outline.tokens, tokensOfAll])
      rw [visitRoot, ht.1, if_neg Bool.false_ne_true]
      refine (looks_sees _).bind fun _ _ => ?_
      split
      · exact quiet_note _ _ _
      · exact .pure trivial
  | computed => exact .pure trivial

theorem visitSuffix_untouched (v : Var) (n : Nat) {s : VarSuffix}
    (h : Untouched ctx (ofSuffix s).tokens) : visitSuffix ctx v n s = pure () := by
  cases s with
  | field period name span =>
    cases name with
    | none =>
      have hperiod := h period (by simp [ofSuffix, ofTokens, Outline.tokens, tokensOfAll])
      rw [visitSuffix, if_neg hperiod.2]
    | some t =>
      have ht := h t (by simp [ofSuffix, ofTokens, Outline.tokens, tokensOfAll])
      rw [visitSuffix, ht.1, if_neg Bool.false_ne_true]
  | index => rfl

theorem visitTarget_untouched {r : VarRoot} (h : Untouched ctx (ofRoot r).tokens) :
    visitTarget ctx r = pure false := by
  cases r with
  | bare t =>
    have ht := h t (by simp [ofRoot, Outline.tokens, tokensOfAll])
    simp [visitTarget, assignedToken?, ht.1]
  | named dollar name span =>
    cases name with
    | none =>
      have hdollar := h dollar (by simp [ofRoot, ofTokens, Outline.tokens, tokensOfAll])
      simp [visitTarget, assignedToken?, hdollar.2]
    | some t =>
      have ht := h t (by simp [ofRoot, ofTokens, Outline.tokens, tokensOfAll])
      simp [visitTarget, assignedToken?, ht.1]
  | computed => rfl

theorem call_untouched {ampersand : Token} {span : Span}
    (h : Untouched ctx (ofCall (.mk ampersand none span)).tokens) :
    call ctx (.mk ampersand none span) = pure () := by
  have hampersand := h ampersand (by simp [ofCall, Outline.tokens, tokensOfAll])
  rw [call, if_neg hampersand.2]

/-- For an argument that is there and no literal, nothing is offered. -/
theorem quiet_offerArgument_other {name : Option String} {es : List Expression} {index : Nat}
    {e : Expression} (he : es[index]? = some e) (hliteral : literalToken? e = none)
    (h : ∀ c : Completion, c.candidates = [] → fits c) :
    Calm ctx fits (offerArgument ctx (name.bind (commandShape ctx)) es index) := by
  unfold offerArgument
  dsimp only
  rw [he, Option.bind_some, hliteral]
  cases hc : name.bind (commandShape ctx) with
  | none => exact looks_offer (h _ rfl)
  | some c =>
    obtain ⟨n, -, hc⟩ := Option.bind_eq_some_iff.1 hc
    have hshaped := shaped_of_commandShape hc
    rw [Option.bind_some]
    cases c.argument? index with
    | none => exact looks_offer (h _ rfl)
    | some spec =>
      refine Within.get.bind fun _ _ => (looks_orCrash hshaped _).bind fun _ _ => ?_
      cases spec.shape with
      | none => exact looks_offer (h _ rfl)
      | some s => exact looks_offer (h _ rfl)

/-- The caret is at an argument of the command that is there, or at none. -/
def TakenAt (ctx : AssistContext) (c : Command) : Prop :=
  ∀ index, argumentAtCaret ctx c (c.arguments.filter (!·.isEmptyGroup)) = some index →
    ∃ e, (c.arguments.filter (!·.isEmptyGroup))[index]? = some e ∧ e.span.touches ctx.caret = true

theorem quiet_visitArguments_taken {c : Command} (hb : Untouched ctx (ofBlock b).tokens)
    (hc : PartOf b (ofCommand c)) (htaken : TakenAt ctx c) :
    Calm ctx (·.candidates = []) (visitArguments ctx c) := by
  unfold visitArguments
  dsimp only
  split
  next index hindex =>
    obtain ⟨e, he, htouches⟩ := htaken index hindex
    refine quiet_offerArgument_other he ?_ fun _ => id
    -- the token of a literal would be touched
    cases ht : literalToken? e with
    | none => rfl
    | some t =>
      have hmem : e ∈ c.arguments := (List.mem_filter.1 (List.mem_of_getElem? he)).1
      rw [(span_of_literalToken? ht).1, (hb t (hc.mem_tokens_of_argument hmem ht)).1] at htouches
      cases htouches
  next => exact .pure trivial

/-- **Where the caret touches no token and is at no argument that is still to come**, a visit offers
nothing. -/
theorem keeps_nothing (hb : Untouched ctx (ofBlock b).tokens)
    (harguments : ∀ c, Node.command c ∈ (ofBlock b).parts → TakenAt ctx c) {v : Visit}
    (hv : ∀ o ∈ v.part?, PartOf b o) : Keeps ctx (·.candidates = []) v := by
  have hpart {o : Outline} (ho : o ∈ v.part?) : Untouched ctx o.tokens := fun t ht =>
    hb t ((hv o ho).tokens ht)
  intro f hf
  cases v with
  | root kind r => exact (quiet_visitRoot_untouched kind (hpart rfl)).offers hf
  | suffix v n s =>
    have hnone : visit ctx (.suffix v n s) = pure () := visitSuffix_untouched v n (hpart rfl)
    rw [hnone]
    exact hf
  | callee v => exact (quiet_reviewCallee v).offers hf
  | arguments c =>
    exact (quiet_visitArguments_taken hb (hv _ rfl) (harguments c (hv _ rfl).command_mem_parts)).offers hf
  | review c => exact (looks_reviewArguments c).offers hf
  | pending ampersand span =>
    have hnone : visit ctx (.pending ampersand span) = pure () := call_untouched (hpart rfl)
    rw [hnone]
    exact hf
  | target r =>
    rw [visit, visitTarget_untouched (hpart rfl)]
    exact hf
  | define r e => exact keeps_define r e f hf
  | enter names => exact hf
  | leave => exact hf

/-- **In a comment, the caret is at an argument around it or at none**, unless that is a pair of
empty parentheses. -/
theorem takenAt_of_comment {x : Token} {text : String} {c : Command}
    (hx : x.IsCommentAt text ctx.caret) (htext : ctx.text = text.toList)
    (hline : Token.InLine (Cursor.ofTokens (Token.tokenize text)).upcoming c.callee.span.stop
      (c.arguments.map (·.span)) c.span.stop)
    (hgroups : ∀ e ∈ c.arguments, e.isEmptyGroup = true → e.span.touches ctx.caret = false) :
    TakenAt ctx c := by
  intro index hindex
  unfold argumentAtCaret at hindex
  split at hindex
  next => cases hindex
  next hbehind =>
  split at hindex
  next i hfind =>
    cases hindex
    obtain ⟨hlt, htouches, -⟩ := List.findIdx?_eq_some_iff_getElem.1 hfind
    exact ⟨_, List.getElem?_eq_getElem hlt, htouches⟩
  next hnone =>
  rw [List.findIdx?_eq_none_iff] at hnone
  split at hindex
  next hover =>
    -- the comment begins between the end of the command and the caret
    obtain ⟨t, ht, hstop⟩ := hline.exists_stop
    have hclear := Token.clear_of_comment hx.mem hx.kind ht
    have hfilled := Token.filled_of_mem_upcoming ht
    have hle := hx.le_stop
    rw [htext, hx.not_isBlankBetween (by omega), if_neg Bool.false_ne_true] at hindex
    cases hindex
  next hin =>
    obtain ⟨s, hs, htouches⟩ := hx.exists_touches hline (Int.not_le.1 hbehind) (Int.not_lt.1 hin)
    obtain ⟨e, he, rfl⟩ := List.mem_map.1 hs
    cases hgroup : e.isEmptyGroup with
    | true =>
      rw [hgroups e he hgroup] at htouches
      cases htouches
    | false =>
      have hfalse := hnone e (List.mem_filter.2 ⟨he, by rw [hgroup]; rfl⟩)
      rw [htouches] at hfalse
      cases hfalse

end Walk

/-- A command has empty parentheses as an argument, and the caret touches them. -/
def Block.HasEmptyGroupAt (b : Block) (caret : Int) : Prop :=
  ∃ c e, Node.command c ∈ (ofBlock b).parts ∧ e ∈ c.arguments ∧ e.isEmptyGroup = true ∧
    e.span.touches caret = true

/-- **Nothing is offered in a comment**, but in two places: where a `;` or an opening brace of the
comment stands before the caret with only blanks between the two, and where the comment is in empty
parentheses that are an argument of a command. -/
theorem suggestions_in_comment {σ : Type} {vm : Vm σ} {text : String} {caret : Int}
    {options : AssistOptions} {a : Assistance} (h : vm.assist text caret options = .ok a)
    {x : Token} (hx : x.IsCommentAt text caret) :
    a.suggestions = [] ∨ x.SeparatesIn text caret ∨
      ∃ b, (parse text Limit.nesting).block = some b ∧ b.HasEmptyGroupAt caret := by
  by_cases hseparates : x.SeparatesIn text caret
  · exact .inr (.inl hseparates)
  by_cases hgroup : ∃ b, (parse text Limit.nesting).block = some b ∧ b.HasEmptyGroupAt caret
  · exact .inr (.inr hgroup)
  left
  obtain ⟨completion, issues, hfound, -, -, hsuggestions⟩ := Vm.findings_of_assist h
  have hcaret : max 0 (min caret text.toList.length) = caret := by
    have hstart := hx.start_lt
    have hstop := hx.le_stop
    have hlength := Token.tokenize_stop_le hx.mem
    rw [String.length_toList]
    omega
  rw [hcaret] at hfound
  have hnothing : ∀ c ∈ completion, c.candidates = [] := by
    refine Assist.fits_of_findings (fun hbegins => ?_) (fun b hb v hv => ?_) hfound
    · exact absurd (hx.separates rfl hbegins) hseparates
    have hparts : Visits.Each (Walk.PartOf b) (Visits.block b) :=
      Visits.each_block b fun q hq => ⟨q, hq, rfl⟩
    refine Walk.keeps_nothing (fun t ht => ?_) (fun c hc => ?_) (hparts v hv)
    · exact hx.untouched ((tokens_sublist_upcoming hb).subset ht)
    · refine Walk.takenAt_of_comment hx rfl (each_coheres_of_parse hb _ hc) fun e he hempty => ?_
      exact Bool.eq_false_iff.2 fun htouches => hgroup ⟨b, hb, c, e, hc, he, hempty, htouches⟩
  rw [hsuggestions]
  cases completion with
  | none => rfl
  | some c =>
    rw [Option.elim_some, List.eq_nil_iff_forall_not_mem]
    intro s hs
    obtain ⟨s', hs', -⟩ := Completion.mem_candidates_of_mem_rank hs
    rw [hnothing c rfl] at hs'
    cases hs'

/-- In parentheses that are empty but for a comment, the argument of the command is offered. -/
example :
    let command : CommandShape :=
      .mk "print" none [.mk "what" "" (some (.literal (.string "x"))) false]
    let vm : Vm Recorder :=
      { state := Recorder.ready, globalShapes := ⟨[("print", ⟨.command command, 0⟩)]⟩ }
    (vm.assist "print ( -- c\n)" 12).toOption.any (·.suggestions.map (·.text) == ["x"]) = true := by
  decide +kernel

/-- Behind the brace of the first comment a letter stands, so nothing is offered; behind the `;` of
the second one the only command is. -/
theorem suggestions_in_comment_separator :
    let vm : Vm Recorder :=
      { state := { Recorder.ready with globals := ⟨[("print", .command "print")]⟩ } }
    (∃ a, vm.assist "x -- \x7by" 7 = .ok a ∧ a.suggestions = []) ∧
    ∃ a, vm.assist "-- ;" 4 = .ok a ∧ a.suggestions ≠ [] ∧
      ∃ x : Token, x.IsCommentAt "-- ;" 4 ∧ x.SeparatesIn "-- ;" 4 := by
  intro vm
  constructor
  · obtain ⟨a, hassist, -⟩ := exists_eq_ok_of_any
      (show (vm.assist "x -- \x7by" 7).toOption.any (fun _ => true) = true by decide +kernel)
    refine ⟨a, hassist, ?_⟩
    let x : Token := ⟨.comment, "-- \x7by", ⟨2, 7⟩, ⟨false, true, false, false⟩⟩
    have hx : x.IsCommentAt "x -- \x7by" 7 := ⟨by decide +kernel, rfl, by decide, by decide⟩
    obtain hnothing | ⟨i, hi, hi', hsort, hblank⟩ | ⟨b, hb, c, e, hc, he, -, -⟩ :=
      suggestions_in_comment hassist hx
    · exact hnothing
    · have hno : ∀ i < 7, 2 < i → ("x -- \x7by".toList[i]? = some ';' ∨
          "x -- \x7by".toList[i]? = some '\x7b') →
          Walk.isBlankBetween "x -- \x7by".toList (i + 1 : Nat) 7 = false := by
        decide +kernel
      rw [hno i (by omega) hi hsort] at hblank
      cases hblank
    · have hno : (parse "x -- \x7by" Limit.nesting).block.all (fun b => (ofBlock b).parts.all fun
          | .command c => c.arguments.isEmpty
          | _ => true) = true := by decide +kernel
      rw [hb, Option.all_some, List.all_eq_true] at hno
      rw [List.isEmpty_iff.1 (hno _ hc)] at he
      cases he
  · obtain ⟨a, hassist, hsome⟩ := exists_eq_ok_of_any
      (show (vm.assist "-- ;" 4).toOption.any (!·.suggestions.isEmpty) = true by decide +kernel)
    have hne : a.suggestions ≠ [] := by simpa using hsome
    let x : Token := ⟨.comment, "-- ;", ⟨0, 4⟩, ⟨false, false, false, false⟩⟩
    have hx : x.IsCommentAt "-- ;" 4 := ⟨by decide +kernel, rfl, by decide, by decide⟩
    refine ⟨a, hassist, hne, x, hx, ?_⟩
    obtain hnothing | hseparates | ⟨b, hb, -⟩ := suggestions_in_comment hassist hx
    · exact absurd hnothing hne
    · exact hseparates
    · have hnone : (parse "-- ;" Limit.nesting).block.isNone = true := by decide +kernel
      rw [hb] at hnone
      cases hnone

end CommandScript
