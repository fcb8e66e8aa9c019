import CommandScript.Proofs.Accounted
/-!
# CommandScript — what is passed over is reported

Behind the statement that leaves a block the parser passes over all that is left of the
block. The tokens are in no part of the tree, so the issue about them is the only trace of
them. It spans them from the first one that is no semicolon on, and there is one for every
block, with one exception: an issue that begins where the one before it does is taken for
that one again. Behind `break` and `continue` that cannot be, since nothing has been found
yet that begins so late. Behind `return` it can: where the last of its values lacks an
operand, that is reported at the token that comes next.
-/

namespace CommandScript

open Outline

namespace Block

instance (b : Block) (t : Token) : Decidable (b.PassesOver t) :=
  decidable_of_iff (b.last.any (fun l => decide (l.span.stop ≤ t.span.start)) = true ∧
    b.span.encloses t.span = true) <| by
      simp only [Option.any_eq_true, decide_eq_true_eq, PassesOver]
      exact ⟨fun ⟨⟨l, hl, hstop⟩, hin⟩ => ⟨l, hl, hstop, hin⟩,
        fun ⟨l, hl, hstop, hin⟩ => ⟨⟨l, hl, hstop⟩, hin⟩⟩

/-- Of the tokens of a text, those that the block passes over. -/
def passedOver (b : Block) (tokens : List Token) : List Token :=
  tokens.filter fun t => !t.kind.isHidden && t.kind != .endOfInput && decide (b.PassesOver t)

end Block

/-- No issue begins behind the cursor. -/
def Cursor.Early (c : Cursor) : Prop := ∀ i ∈ c.found, i.span.start ≤ c.offset

theorem Cursor.Advanced.keepsEarly {c d : Cursor} {ts : List Token} (h : c.Advanced ts d)
    (hc : c.Sound) (hearly : c.Early) : d.Early := fun i hi => by
  obtain hi | hi := h.early hc i hi
  · exact Nat.le_trans (hearly i hi) (hc.offset_le_offset h.toMoved)
  · exact hi

/-- Tokens that are passed over are reported in one issue, behind the semicolons they begin
with. It may be missing where the block is left by a `return` and another issue begins
there. -/
def Block.Reported (b : Block) (ts : List Token) (found : List Issue) : Prop :=
  ∀ t ∈ (Token.pastSemicolons ts).head?, ∀ u ∈ (Token.pastSemicolons ts).getLast?,
    Issue.of .unreachableStatement ⟨t.span.start, u.span.stop⟩ ∈ found ∨
      b.last.any LastStatement.isReturn = true ∧ ∃ i ∈ found, i.span.start = t.span.start

theorem Block.Reported.mono {b : Block} {ts : List Token} {found found' : List Issue}
    (h : b.Reported ts found) (hfound : found ⊆ found') : b.Reported ts found' := by
  intro t ht u hu
  obtain hi | ⟨hreturn, i, hi, hstart⟩ := h t ht u hu
  · exact .inl (hfound hi)
  · exact .inr ⟨hreturn, i, hfound hi, hstart⟩

/-- The block is left behind the cursor, and what it passes over of the tokens to come is
reported. -/
structure Block.Told (b : Block) (c : Cursor) (found : List Issue) : Prop where
  behind : ∀ l ∈ b.last, c.lastStop ≤ l.span.stop
  reported : b.Reported (c.upcoming.filter fun t => decide (b.PassesOver t)) found

namespace Built

variable {c d e f : Cursor} {os os' : List Outline} {b : Block} {ts us : List Token}

/-- What is read before a block is not passed over in it. -/
theorem told_before (hc : c.Sound) (h : c.Moved ts d) {found : List Issue} (hb : b.Told d found) :
    b.Told c found := by
  have hlast := hc.lastStop_le_lastStop h
  refine ⟨fun l hl => Nat.le_trans hlast (hb.behind l hl), ?_⟩
  have hnone : ts.filter (fun t => decide (b.PassesOver t)) = [] := by
    refine List.filter_eq_nil_iff.2 fun t ht hpasses => ?_
    obtain ⟨l, hl, hstop, -⟩ := of_decide_eq_true hpasses
    have hread := hc.stop_le h ht
    have hbehind := hb.behind l hl
    have hfilled := hc.filled t (h.upcoming ▸ List.mem_append_left _ ht)
    omega
  rw [h.upcoming, List.filter_append, hnone]
  exact hb.reported

/-- A block that is left early passes over what is read from there to its end, and nothing
else. -/
theorem filter_passesOver {l : LastStatement} (hc : c.Sound) (hcd : Built c os d)
    (hde : d.Moved us e) (hl : b.last = some l) (hleaves : d.Leaves l e) (hef : e.Moved ts f)
    (hb : f.BlockSpan c b.span) :
    e.upcoming.filter (fun t => decide (b.PassesOver t)) = ts := by
  obtain ⟨vs, hcd'⟩ := hcd.moved
  have he := hde.sound (hcd'.sound hc)
  rw [hef.upcoming, List.filter_append]
  have hall : ts.filter (fun t => decide (b.PassesOver t)) = ts :=
    List.filter_eq_self.2 fun t ht =>
      decide_eq_true (hcd.passesOver hc ⟨us, hde⟩ hl hleaves.span hef hb ht)
  have hnone : f.upcoming.filter (fun t => decide (b.PassesOver t)) = [] := by
    refine List.filter_eq_nil_iff.2 fun t ht hpasses => ?_
    obtain ⟨-, -, -, hin⟩ := of_decide_eq_true hpasses
    obtain hspan | ⟨-, hend, -⟩ := hb
    · simp only [hspan, Span.encloses, Cursor.spanFrom, Bool.and_eq_true, decide_eq_true_eq] at hin
      have hf := hef.sound he
      have hbehind := hf.behind t ht
      have hfilled := hf.filled t ht
      have hlast := hc.lastStop_le_lastStop (hcd'.trans (hde.trans hef))
      omega
    · rw [hend] at ht
      cases ht
  rw [hall, hnone, List.append_nil]

/-- **What is passed over in a block is reported.** -/
theorem told_of_left (h : Built c os d) (hc : c.Sound) (hearly : c.Early) {l : LastStatement}
    (hb : Node.block b ∈ partsOfAll os) (hl : b.last = some l) : b.Told c d.found := by
  induction h with
  | passed | token => cases hb
  | append hfirst hsecond ih ih' =>
    obtain ⟨ts, hmoved⟩ := hfirst.advanced
    rw [partsOfAll_append] at hb
    obtain hb | hb := List.mem_append.1 hb
    · obtain ⟨us, hmoved'⟩ := hsecond.moved
      have htold := ih hc hearly hb
      exact ⟨htold.behind, htold.reported.mono hmoved'.found.subset⟩
    · exact told_before hc hmoved.toMoved (ih' (hmoved.sound hc) (hmoved.keepsEarly hc hearly) hb)
  | node _ _ _ _ hblock _ _ ih =>
    rw [partsOfAll_singleton, parts] at hb
    obtain rfl | hb := List.mem_cons.1 hb
    · cases hblock
    · exact ih hc hearly hb
  | block hos hlast _ ih =>
    rw [partsOfAll_singleton, parts] at hb
    obtain hb | hb := List.mem_cons.1 hb
    · cases hb
      rw [hlast] at hl
      cases hl
    · exact ih hc hearly hb
  | @left c d e f os os' b' l' ts hos hos' hlast hleaves hpassed hreports hspan ih ih' =>
    obtain ⟨us, hcd⟩ := hos.advanced
    obtain ⟨vs, hde⟩ := hos'.advanced
    have hd := hcd.sound hc
    have he := hde.sound hd
    have hdearly := hcd.keepsEarly hc hearly
    rw [partsOfAll_singleton, parts, partsOfAll_append] at hb
    obtain hb | hb := List.mem_cons.1 hb
    · -- the block itself
      cases hb
      have hts := hos.filter_passesOver hc hde.toMoved hlast hleaves hpassed.toMoved hspan
      refine told_before hc (hcd.toMoved.trans hde.toMoved) ⟨fun l₁ hl₁ => ?_, ?_⟩
      · rw [hlast] at hl₁
        cases hl₁
        rw [hleaves.span]
        exact Nat.le_max_right _ _
      rw [hts, Block.Reported, hlast]
      intro t ht u hu
      obtain hreported | ⟨i, hi, hstart⟩ := hreports t ht u hu
      · exact .inl hreported
      refine .inr ⟨?_, i, hpassed.found.mem hi, hstart⟩
      -- behind `break` and `continue` no issue begins where the tokens do
      refine Bool.not_eq_false _ ▸ fun hbreaks => ?_
      have hbegins := hdearly i (hleaves.quiet hbreaks ▸ hi)
      have hforward := hos'.offset_lt hd hleaves.shorter
      have hmem : t ∈ ts := (List.dropWhile_sublist _).mem (List.mem_of_head? ht)
      have hplace := he.offset_le (hpassed.upcoming ▸ List.mem_append_left _ hmem)
      omega
    obtain hb | hb := List.mem_append.1 hb
    · have htold := ih hc hearly hb
      exact ⟨htold.behind, htold.reported.mono (hde.found.trans hpassed.found).subset⟩
    · have htold := told_before hc hcd.toMoved (ih' hd hdearly hb)
      exact ⟨htold.behind, htold.reported.mono hpassed.found.subset⟩

end Built

/-- Of the tokens of a text the parser is to read those that can be seen, up to the end. -/
theorem Block.passedOver_tokenize (b : Block) (text : String) :
    b.passedOver (Token.tokenize text) =
      (Cursor.ofTokens (Token.tokenize text)).upcoming.filter fun t => decide (b.PassesOver t) := by
  obtain ⟨ts, ending, htokens, hend, hup, -, hsound⟩ := Cursor.ofTokens_tokenize text
  have hnone : [ending].filter (fun t => !t.kind.isHidden && t.kind != .endOfInput &&
      decide (b.PassesOver t)) = [] := by simp [hend]
  rw [hup, passedOver, htokens, List.filter_append, hnone, List.append_nil, List.filter_filter]
  refine List.filter_congr fun t ht => ?_
  cases hhidden : t.kind.isHidden with
  | true => simp
  | false =>
    have hseen : t ∈ (Cursor.ofTokens (Token.tokenize text)).upcoming :=
      hup ▸ List.mem_filter.2 ⟨ht, by simp [hhidden]⟩
    simp [hsound.inner t hseen]

/-- **Whatever a block passes over is reported**, in one issue that spans it from the first
token that is no semicolon on. Where the block is left by `break` or `continue` that issue is
always there; where it is left by `return`, another issue may stand in for it, which begins
at that very token. -/
theorem unreachable_reported {text : String} {limit : Nat} {b b' : Block} {l : LastStatement}
    (h : (parse text limit).block = some b) (hb : Node.block b' ∈ (ofBlock b).parts)
    (hl : b'.last = some l) :
    ∀ t ∈ (Token.pastSemicolons (b'.passedOver (Token.tokenize text))).head?,
      ∀ u ∈ (Token.pastSemicolons (b'.passedOver (Token.tokenize text))).getLast?,
        Issue.of .unreachableStatement ⟨t.span.start, u.span.stop⟩ ∈ (parse text limit).issues ∨
          l.isReturn = true ∧ ∃ i ∈ (parse text limit).issues, i.span.start = t.span.start := by
  obtain ⟨d, hbuilt, -, hissues⟩ := exists_built_of_parse h
  obtain ⟨-, -, -, -, -, -, hsound⟩ := Cursor.ofTokens_tokenize text
  have hreported := (hbuilt.told_of_left hsound (fun i hi => nomatch hi)
    ((partsOfAll_singleton _).symm ▸ hb) hl).reported
  rw [← b'.passedOver_tokenize] at hreported
  have hin (i : Issue) (hi : i ∈ d.found) : i ∈ (parse text limit).issues := by
    rw [hissues, Issue.sort, List.mem_mergeSort]
    exact List.mem_append_right _ (List.mem_reverse.2 hi)
  intro t ht u hu
  have hcases := hreported t ht u hu
  rw [hl] at hcases
  obtain hi | ⟨hreturn, i, hi, hstart⟩ := hcases
  · exact .inl (hin _ hi)
  · exact .inr ⟨hreturn, i, hin i hi, hstart⟩

/-- A text that is left by `break`, with two statements behind it. -/
theorem unreachable_reported_break :
    let text := "break ; ; print 1 ; print 2"
    ∃ b l, (parse text 1).block = some b ∧ b.last = some l ∧ l.isReturn = false ∧
      ∃ t u, (Token.pastSemicolons (b.passedOver (Token.tokenize text))).head? = some t ∧
        (Token.pastSemicolons (b.passedOver (Token.tokenize text))).getLast? = some u ∧
        t.text = "print" ∧ u.text = "2" ∧
        Issue.of .unreachableStatement ⟨t.span.start, u.span.stop⟩ ∈ (parse text 1).issues := by
  intro text
  have hread : (parse text 1).block.any (fun b => b.last.any (!·.isReturn) &&
      (Token.pastSemicolons (b.passedOver (Token.tokenize text))).head?.any (·.text == "print") &&
      (Token.pastSemicolons (b.passedOver (Token.tokenize text))).getLast?.any (·.text == "2")) =
        true := by decide +kernel
  obtain ⟨b, hb, hread⟩ := (Option.any_eq_true ..).1 hread
  simp only [Bool.and_eq_true, Option.any_eq_true, Bool.not_eq_true', beq_iff_eq] at hread
  obtain ⟨⟨⟨l, hl, hbreaks⟩, t, ht, hfirst⟩, u, hu, hlast⟩ := hread
  have hself : Node.block b ∈ (ofBlock b).parts := by
    cases b
    exact List.mem_cons_self
  refine ⟨b, l, hb, hl, hbreaks, t, u, ht, hu, hfirst, hlast, ?_⟩
  refine (unreachable_reported hb hself hl t ht u hu).resolve_right fun hreturn => ?_
  rw [hbreaks] at hreturn
  cases hreturn.1

/-- Where an operand is missing behind `return`, that is said at the token that is passed over
next, and nothing else. -/
example : (parse "return 1 +\nif (true) \x7b print \x7d" 1).issues.map (fun i => (i.code, i.span)) =
    [("PARSER_EXPECTED_EXPRESSION", ⟨11, 13⟩)] := by decide +kernel

end CommandScript
