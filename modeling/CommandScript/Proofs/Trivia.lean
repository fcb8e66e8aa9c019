import CommandScript.Proofs.Parallel
import CommandScript.Proofs.Surrounded
/-!
# CommandScript — trivia is inert

The parser uses the places of tokens: to see whether a loop goes on, to report one mistake
once, and for the spans of what it reads. Still nothing of it is in what is read. Two texts
whose visible tokens are the same, one by one, are read in lockstep to their end, with the
places of the one for those of the other.
-/

namespace CommandScript

namespace Token

/-- The visible tokens are the same, one by one, in kind, in text and in what stands before
them. -/
def SameVisible (ts ts' : List Token) : Prop :=
  List.Forall₂ (fun t t' => (t.kind = t'.kind ∧ t.text = t'.text) ∧ t.SameMarks t')
    (visible ts) (visible ts')

/-- All tokens are the same, one by one, in kind, and the visible ones in text: there may be
more or fewer blanks, another comment, and another sign for the end of a line. -/
def SameButTrivia (ts ts' : List Token) : Prop :=
  List.Forall₂ (fun t t' => t.kind = t'.kind ∧ (t.kind.isHidden = false → t.text = t'.text)) ts ts'

theorem SameButTrivia.sameVisible {a b : String} (h : SameButTrivia (tokenize a) (tokenize b)) :
    SameVisible (tokenize a) (tokenize b) := by
  have hmarked := (marked_walk 0 0 {} a.toList).sameMarks (fun _ _ => And.left) h
    (marked_walk 0 0 {} b.toList)
  change List.Forall₂ _ (tokenize a) (tokenize b) at hmarked
  unfold SameVisible visible
  generalize tokenize a = ts, tokenize b = ts' at hmarked
  induction hmarked with
  | nil => exact .nil
  | @cons t t' _ _ hsame _ ih =>
    obtain ⟨⟨hkind, htext⟩, hmarks⟩ := hsame
    rw [List.filter_cons, List.filter_cons, ← hkind]
    cases hidden : t.kind.isHidden with
    | true => exact ih
    | false => exact .cons ⟨⟨hkind, htext hidden⟩, hmarks⟩ ih

end Token

/-- What was read is the same but for the places, and so are the codes of the issues. -/
structure Parsed.SameReading (p q : Parsed) : Prop where
  block : p.block.map Relocation.forgotten.block = q.block.map Relocation.forgotten.block
  codes : (p.issues.map Issue.code).Perm (q.issues.map Issue.code)

namespace Cursor

/-- Before the first token of a text stand its visible tokens. -/
theorem visible_tokenize (text : String) : Token.visible (Token.tokenize text) =
    (ofTokens (Token.tokenize text)).upcoming ++ [(ofTokens (Token.tokenize text)).ending] := by
  obtain ⟨ts, ending, htokens, hkind, hup, hend, -⟩ := ofTokens_tokenize text
  have hshown : (!ending.kind.isHidden) = true := by rw [hkind]; rfl
  rw [hup, hend, htokens, Token.visible, List.filter_append]
  simp [hshown]

/-- The tokens of a cursor begin one behind the other. -/
theorem Sound.pairwise_start {c : Cursor} (hc : c.Sound) :
    (c.upcoming ++ [c.ending]).Pairwise fun t u => t.span.start < u.span.start := by
  refine List.pairwise_append.2 ⟨?_, List.pairwise_singleton _ _, fun t ht u hu => ?_⟩
  · refine hc.ordered.imp_of_mem fun {t u} ht _ h => ?_
    have := hc.filled t ht
    omega
  · have hfilled := hc.filled t ht
    have hbefore := hc.before t ht
    rw [List.mem_singleton.1 hu]
    omega

end Cursor

namespace View

/-- The offsets at which the tokens of two lists begin. -/
def starts (ts ts' : List Token) : List (Nat × Nat) :=
  List.zipWith (fun t t' => (t.span.start, t'.span.start)) ts ts'

theorem mem_starts {ts ts' : List Token} {p : Nat × Nat} (h : p ∈ starts ts ts') :
    (∃ t ∈ ts, t.span.start = p.1) ∧ ∃ t' ∈ ts', t'.span.start = p.2 := by
  induction ts generalizing ts' with
  | nil => exact nomatch h
  | cons t ts ih =>
    cases ts' with
    | nil => exact nomatch h
    | cons t' ts' =>
      obtain rfl | h := List.mem_cons.1 h
      · exact ⟨⟨t, List.mem_cons_self, rfl⟩, t', List.mem_cons_self, rfl⟩
      · obtain ⟨⟨u, hu, hus⟩, u', hu', hus'⟩ := ih h
        exact ⟨⟨u, List.mem_cons_of_mem _ hu, hus⟩, u', List.mem_cons_of_mem _ hu', hus'⟩

/-- Tokens that stand one behind the other on both sides are in the same order there. -/
theorem lt_iff_of_mem_starts {ts ts' : List Token} {p q : Nat × Nat}
    (hts : ts.Pairwise fun t u => t.span.start < u.span.start)
    (hts' : ts'.Pairwise fun t u => t.span.start < u.span.start)
    (hp : p ∈ starts ts ts') (hq : q ∈ starts ts ts') : p.1 < q.1 ↔ p.2 < q.2 := by
  induction ts generalizing ts' with
  | nil => exact nomatch hp
  | cons t ts ih =>
    cases ts' with
    | nil => exact nomatch hp
    | cons t' ts' =>
      obtain ⟨ht, hts⟩ := List.pairwise_cons.1 hts
      obtain ⟨ht', hts'⟩ := List.pairwise_cons.1 hts'
      have hbehind {r : Nat × Nat} (hr : r ∈ starts ts ts') : t.span.start < r.1 ∧ t'.span.start < r.2 := by
        obtain ⟨⟨u, hu, hus⟩, u', hu', hus'⟩ := mem_starts hr
        exact ⟨hus ▸ ht u hu, hus' ▸ ht' u' hu'⟩
      obtain rfl | hp := List.mem_cons.1 hp <;> obtain rfl | hq := List.mem_cons.1 hq
      · simp
      · have := hbehind hq
        dsimp only
        omega
      · have := hbehind hp
        dsimp only
        omega
      · exact ih hts hts' hp hq

/-- A text and another one whose tokens are the same. -/
def inert (c c' : Cursor) (hc : c.Sound) (hc' : c'.Sound) (hmarks : c.ending.SameMarks c'.ending)
    (hlength : c.upcoming.length = c'.upcoming.length) : View where
  left := .forgotten
  right := .forgotten
  start s s' := (s, s') ∈ starts (c.upcoming ++ [c.ending]) (c'.upcoming ++ [c'.ending])
  place _ _ := True
  tail := []
  leftEnd := c.ending
  rightEnd := c'.ending
  exact := True
  span_eq _ _ := ⟨fun _ => ⟨trivial, trivial⟩, fun _ => rfl⟩
  place_of_start _ := trivial
  cover _ _ := trivial
  order hs ht := lt_iff_of_mem_starts hc.pairwise_start hc'.pairwise_start hs ht
  leftEnd_kind := hc.ending
  rightEnd_kind := hc'.ending
  ends_start _ := by
    rw [starts, List.zipWith_append hlength]
    exact List.mem_append_right _ List.mem_cons_self
  seam_kind := by
    rw [List.headD_nil, hc'.ending]
    decide
  ending := .inl ⟨rfl, hmarks⟩

end View

section Texts

variable {a b : String} (h : Token.SameVisible (Token.tokenize a) (Token.tokenize b))
include h

/-- The tokens before the end are the same, and so is what stands before the end. -/
theorem Token.SameVisible.cursors :
    List.Forall₂ (fun t t' => (t.kind = t'.kind ∧ t.text = t'.text) ∧ t.SameMarks t')
      (Cursor.ofTokens (tokenize a)).upcoming (Cursor.ofTokens (tokenize b)).upcoming ∧
      (Cursor.ofTokens (tokenize a)).ending.SameMarks (Cursor.ofTokens (tokenize b)).ending := by
  unfold SameVisible at h
  rw [Cursor.visible_tokenize, Cursor.visible_tokenize] at h
  have hreverse := List.forall₂_reverse_iff.2 h
  simp only [List.reverse_append, List.reverse_singleton, List.singleton_append,
    List.forall₂_cons] at hreverse
  exact ⟨List.forall₂_reverse_iff.1 hreverse.2, hreverse.1.2⟩

end Texts

theorem Relocation.forgotten_token {t t' : Token} (ht : t.Scanned) (ht' : t'.Scanned)
    (hkind : t.kind = t'.kind) (htext : t.text = t'.text) (hmarks : t.SameMarks t') :
    forgotten.token t = forgotten.token t' := by
  obtain ⟨hopen, hescape⟩ := ht.flags_eq ht' hkind htext
  obtain ⟨kind, text, span, ⟨line, trivia, opened, escape⟩⟩ := t
  obtain ⟨kind', text', span', ⟨line', trivia', opened', escape'⟩⟩ := t'
  obtain ⟨hline, htrivia⟩ := hmarks
  dsimp only at hkind htext hline htrivia hopen hescape
  subst hkind htext hline htrivia hopen hescape
  rfl

theorem View.facing_inert {V : View} {marked : Prop} {us us' : List Token} (hexact : V.exact)
    (hleft : V.left = .forgotten) (hright : V.right = .forgotten)
    (h : List.Forall₂ (fun t t' => (t.kind = t'.kind ∧ t.text = t'.text) ∧ t.SameMarks t') us us')
    (hstarts : ∀ p ∈ starts us us', V.start p.1 p.2) (hend : ∀ t ∈ us, t.kind ≠ .endOfInput)
    (hus : ∀ t ∈ us, t.Scanned) (hus' : ∀ t ∈ us', t.Scanned) : V.Facing marked us us' := by
  induction h generalizing marked with
  | nil =>
    have hnil : V.Facing marked [] V.tail := .nil
    rwa [tail_nil hexact] at hnil
  | @cons t t' us us' hsame _ ih =>
    obtain ⟨⟨hkind, htext⟩, hmarks⟩ := hsame
    simp only [List.forall_mem_cons] at hend hus hus'
    refine .cons ⟨?_, hstarts _ List.mem_cons_self⟩ (fun _ => hmarks) hend.1 (.inl hexact)
      (ih (fun p hp => hstarts p (List.mem_cons_of_mem _ hp)) hend.2 hus.2 hus'.2)
    rw [hleft, hright]
    exact Relocation.forgotten_token hus.1 hus'.1 hkind htext hmarks

namespace Token

theorem scanned_of_mem {text : String} : ∀ t ∈ tokenize text, t.Scanned := fun _ => scanned_of_mem_walk

theorem scanned_of_mem_upcoming {text : String} :
    ∀ t ∈ (Cursor.ofTokens (tokenize text)).upcoming, t.Scanned := fun t ht => by
  obtain ⟨ts, ending, htokens, -, hup, -⟩ := Cursor.ofTokens_tokenize text
  rw [hup] at ht
  exact scanned_of_mem t (htokens ▸ List.mem_append_left _ (List.mem_filter.1 ht).1)

/-- Only visible tokens report something of themselves. -/
theorem issues_visible (ts : List Token) : issues (visible ts) = issues ts := by
  unfold issues visible
  rw [List.filterMap_filter]
  refine List.filterMap_congr fun t _ => ?_
  cases hidden : t.kind.isHidden with
  | false => rfl
  | true =>
    have hkind : t.kind ≠ .unknown ∧ t.kind ≠ .string := by
      constructor <;> (intro hk; rw [hk] at hidden; cases hidden)
    simp [issue?, hkind]

/-- What a token reports of itself has a code that depends on its kind and its text. -/
theorem SameVisible.codes {a b : String} (h : SameVisible (tokenize a) (tokenize b)) :
    (issues (tokenize a)).map Issue.code = (issues (tokenize b)).map Issue.code := by
  have hscanned (text : String) : ∀ t ∈ visible (tokenize text), t.Scanned := fun t ht =>
    scanned_of_mem t (List.mem_filter.1 ht).1
  have hleft := hscanned a
  have hright := hscanned b
  rw [← issues_visible, ← issues_visible (tokenize b)]
  unfold SameVisible at h
  generalize visible (tokenize a) = ts, visible (tokenize b) = ts' at h hleft hright
  unfold issues
  induction h with
  | nil => rfl
  | @cons t t' ts ts' hsame _ ih =>
    obtain ⟨⟨hkind, htext⟩, -⟩ := hsame
    rw [List.forall_mem_cons] at hleft hright
    have hcode : (issue? t).map Issue.code = (issue? t').map Issue.code := by
      unfold issue?
      rw [hkind, (hleft.1.flags_eq hright.1 hkind htext).1]
      split
      · rfl
      · split <;> rfl
    have hrest := ih hleft.2 hright.2
    rw [List.map_filterMap, List.map_filterMap] at hrest ⊢
    rw [List.filterMap_cons, List.filterMap_cons, hcode, hrest]

end Token

theorem Issue.perm_map_code_sort {is is' : List Issue} (h : is.map code = is'.map code) :
    ((sort is).map code).Perm ((sort is').map code) :=
  ((List.mergeSort_perm is before).map code).trans
    ((List.Perm.of_eq h).trans ((List.mergeSort_perm is' before).map code).symm)

/-- Cursors before texts whose visible tokens are the same are on their way alike. -/
theorem View.along_inert {c c' : Cursor} (hc : c.Sound) (hc' : c'.Sound)
    (hmarks : c.ending.SameMarks c'.ending)
    (h : List.Forall₂ (fun t t' => (t.kind = t'.kind ∧ t.text = t'.text) ∧ t.SameMarks t')
      c.upcoming c'.upcoming)
    (hus : ∀ t ∈ c.upcoming, t.Scanned) (hus' : ∀ t ∈ c'.upcoming, t.Scanned)
    (hnew : c.last = none ∧ c.found = [] ∧ c.deepReported = false)
    (hnew' : c'.last = none ∧ c'.found = [] ∧ c'.deepReported = false) :
    (inert c c' hc hc' hmarks h.length_eq).Along c c' where
  facing := by
    refine facing_inert trivial rfl rfl h (fun p hp => ?_) hc.inner hus hus'
    have hmem : p ∈ starts (c.upcoming ++ [c.ending]) (c'.upcoming ++ [c'.ending]) := by
      rw [starts, List.zipWith_append h.length_eq]
      exact List.mem_append_left _ hp
    exact hmem
  leftEnd := rfl
  rightEnd := rfl
  text _ := by rw [hnew.1, hnew'.1]
  stop _ := trivial
  bar htail := absurd rfl htail
  found := by rw [hnew.2.1, hnew'.2.1]; exact .nil
  deep := by rw [hnew.2.2, hnew'.2.2]

theorem View.Along.codes {V : View} {c c' : Cursor} (h : V.Along c c') :
    c.issues.map Issue.code = c'.issues.map Issue.code := by
  have hfound := h.found
  rw [Cursor.issues, Cursor.issues, List.map_reverse, List.map_reverse]
  generalize c.found = is, c'.found = is' at hfound
  congr 1
  induction hfound with
  | nil => rfl
  | cons hi _ ih => rw [List.map_cons, List.map_cons, hi.1, ih]

theorem Relocation.forgotten_block {b b' : Block}
    (hbody : forgotten.statements b.body = forgotten.statements b'.body)
    (hlast : forgotten.optionalLast b.last = forgotten.optionalLast b'.last) :
    forgotten.block b = forgotten.block b' := by
  obtain ⟨ss, last, span⟩ := b
  obtain ⟨ss', last', span'⟩ := b'
  rw [block, block, show forgotten.statements ss = forgotten.statements ss' from hbody,
    show forgotten.optionalLast last = forgotten.optionalLast last' from hlast]
  rfl

/-- Texts with the same visible tokens are read alike. -/
theorem sameReading_of_sameVisible {a b : String} (limit : Nat)
    (h : Token.SameVisible (Token.tokenize a) (Token.tokenize b)) :
    (parse a limit).SameReading (parse b limit) := by
  obtain ⟨hforall, hmarks⟩ := h.cursors
  obtain ⟨-, -, -, -, -, -, hc⟩ := Cursor.ofTokens_tokenize a
  obtain ⟨-, -, -, -, -, -, hc'⟩ := Cursor.ofTokens_tokenize b
  have hal := View.along_inert hc hc' hmarks hforall Token.scanned_of_mem_upcoming
    Token.scanned_of_mem_upcoming ⟨rfl, rfl, rfl⟩ ⟨rfl, rfl, rfl⟩
  have hlength := hforall.length_eq
  by_cases hnil : (Cursor.ofTokens (Token.tokenize a)).upcoming = []
  · have hnil' : (Cursor.ofTokens (Token.tokenize b)).upcoming = [] :=
      List.eq_nil_of_length_eq_zero (hlength ▸ congrArg List.length hnil)
    rw [parse_of_nil limit hnil, parse_of_nil limit hnil']
    exact ⟨rfl, Issue.perm_map_code_sort h.codes⟩
  · have hne' : (Cursor.ofTokens (Token.tokenize b)).upcoming ≠ [] := fun hnil' =>
      hnil (List.eq_nil_of_length_eq_zero (hlength.trans (congrArg List.length hnil')))
    rw [parse_of_ne_nil limit hnil, parse_of_ne_nil limit hne']
    obtain ⟨hafter, hbody, hlast⟩ := hal.source trivial trivial limit
    refine ⟨congrArg some (Relocation.forgotten_block hbody hlast), Issue.perm_map_code_sort ?_⟩
    rw [List.map_append, List.map_append, h.codes, hafter.codes]

/-- **Trivia is inert.** Two texts are read alike, whatever is wrong with them, if their visible
tokens are the same in kind and text and in what stands before them. So it makes no difference how
many blanks there are, what a comment says and which sign ends a line. -/
theorem parse_inert (a b : String) (limit : Nat) :
    (Token.SameVisible (Token.tokenize a) (Token.tokenize b) →
      (parse a limit).SameReading (parse b limit)) ∧
    (Token.SameButTrivia (Token.tokenize a) (Token.tokenize b) →
      (parse a limit).SameReading (parse b limit)) :=
  ⟨sameReading_of_sameVisible limit, fun h => sameReading_of_sameVisible limit h.sameVisible⟩

/-- Of two texts with the same mistake, the one has a blank line, other comments and other ends of
lines. -/
theorem sameReading_of_comments :
    (parse "if (a) \x7b b 1 \x7d -- c\n\nelse [" Limit.nesting).SameReading
        (parse "if  (a) \x7b b  1 \x7d\r\n--\nelse [" Limit.nesting) ∧
      (parse "f  1 -- one\r\ng" Limit.nesting).SameReading
        (parse "f 1 -- another\ng" Limit.nesting) := by
  have hblank : Token.SameVisible (Token.tokenize "if (a) \x7b b 1 \x7d -- c\n\nelse [")
      (Token.tokenize "if  (a) \x7b b  1 \x7d\r\n--\nelse [") := by
    unfold Token.SameVisible Token.SameMarks
    decide +kernel
  have hcomment : Token.SameButTrivia (Token.tokenize "f  1 -- one\r\ng")
      (Token.tokenize "f 1 -- another\ng") := by
    unfold Token.SameButTrivia
    decide +kernel
  exact ⟨(parse_inert _ _ _).1 hblank, (parse_inert _ _ _).2 hcomment⟩

end CommandScript
