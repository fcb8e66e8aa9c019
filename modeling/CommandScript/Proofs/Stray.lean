import Mathlib.Data.List.Chain
import Mathlib.Data.List.Forall2
import Mathlib.Data.List.Nodup
import CommandScript.Proofs.Lexing
import CommandScript.Proofs.Lossless
/-!
# CommandScript — what begins no token

Characters that begin no token are gathered until one comes that does. The loop that
gathers them has a test of its own, and it is the same as what the lexer does at a
character: where it goes on nothing else would have been scanned, and where it stops
something else is. So what is gathered is a run that cannot be made longer, no two of
them touch, and each gives rise to one issue.
-/

namespace CommandScript

namespace Lexeme

/-- Characters that pass the test of the loop are scanned as unknown ones. -/
theorem scan_eq_unknown {c : Char} {rest : List Char} (h : startsAt c rest = false) :
    scan c rest = ⟨.unknown, unknownTail rest, false, false⟩ := by
  simp only [startsAt, Bool.or_eq_false_iff, Option.isSome_eq_false_iff, Option.isNone_iff_eq_none] at h
  obtain ⟨⟨⟨⟨⟨⟨hblank, hbreak⟩, hquote⟩, hdigit⟩, hword⟩, hsign⟩, hpair⟩ := h
  have hcomment : ¬ (c = '-' ∧ rest.head? = some '-') := by
    -- a minus is a sign by itself
    rintro ⟨rfl, -⟩
    cases hsign
  rw [scan, hbreak, hblank, hquote, hdigit, hword, if_neg hcomment, hpair, hsign]
  rfl

/-- **The test of the loop is what the lexer does**: it goes on where unknown characters are what
would be scanned. -/
theorem startsAt_eq_false_iff (c : Char) (rest : List Char) :
    startsAt c rest = false ↔ (scan c rest).kind = .unknown := by
  constructor
  · exact fun h => congrArg kind (scan_eq_unknown h)
  · intro h
    have hscans := scans c rest
    generalize scan c rest = l at h hscans
    cases hscans with
    | newline | whitespace | comment | number => cases h
    | string => cases (stringTail_spec c rest).1.symm.trans h
    | word => exact absurd h (ofWord_ne _ (by decide))
    | pair _ hk => exact absurd h (ofPair_ne hk (by decide))
    | sign hk => exact absurd h (ofSign_ne hk (by decide))
    | unknown hc => exact hc

/-- There are characters, and no lexeme but unknown characters begins with the first one. -/
def startsNone : List Char → Bool
  | [] => false
  | c :: rest => (scan c rest).kind == .unknown

theorem startsNone_cons (c : Char) (rest : List Char) : startsNone (c :: rest) = !startsAt c rest := by
  rw [startsNone, Bool.eq_iff_iff, beq_iff_eq, Bool.not_eq_true', startsAt_eq_false_iff]

/-- At no character that is gathered something else begins. -/
theorem startsNone_within {cs : List Char} {k : Nat} (hk : k < (unknownTail cs).length) :
    startsNone (cs.drop k) = true := by
  induction cs generalizing k with
  | nil => exact absurd hk (Nat.not_lt_zero k)
  | cons c rest ih =>
    rw [unknownTail] at hk
    split at hk
    · exact absurd hk (Nat.not_lt_zero k)
    next h =>
      cases k with
      | zero => rw [List.drop_zero, startsNone_cons, Bool.not_eq_true', Bool.eq_false_iff.2 h]
      | succ k => exact ih (Nat.lt_of_succ_lt_succ hk)

/-- At the character behind what is gathered something else begins. -/
theorem startsNone_behind (cs : List Char) : startsNone (cs.drop (unknownTail cs).length) = false := by
  induction cs with
  | nil => rfl
  | cons c rest ih =>
    rw [unknownTail]
    split
    next h => rw [List.length_nil, List.drop_zero, startsNone_cons, h, Bool.not_true]
    next => exact ih

end Lexeme

/-! ## Runs -/

namespace Span

/-- Offsets one behind the other that have a property, and no more of them can be added at either
side. -/
structure IsRun (p : Nat → Prop) (s : Span) : Prop where
  filled : s.start < s.stop
  holds : ∀ k < s.stop, s.start ≤ k → p k
  first : s.start = 0 ∨ ¬ p (s.start - 1)
  last : ¬ p s.stop

namespace IsRun

variable {p : Nat → Prop} {s t : Span}

instance [DecidablePred p] : Decidable (s.IsRun p) :=
  decidable_of_iff (s.start < s.stop ∧ (∀ k < s.stop, s.start ≤ k → p k) ∧
      (s.start = 0 ∨ ¬ p (s.start - 1)) ∧ ¬ p s.stop)
    ⟨fun ⟨filled, holds, first, last⟩ => ⟨filled, holds, first, last⟩,
      fun h => ⟨h.filled, h.holds, h.first, h.last⟩⟩

theorem start_le (hs : s.IsRun p) (ht : t.IsRun p) (h : s.start < t.stop) : s.start ≤ t.start := by
  by_contra hlt
  have hbefore : p (s.start - 1) := ht.holds _ (by omega) (by omega)
  obtain hzero | hfirst := hs.first
  · omega
  · exact hfirst hbefore

theorem stop_le (hs : s.IsRun p) (ht : t.IsRun p) (h : t.start < s.stop) : t.stop ≤ s.stop := by
  by_contra hlt
  exact hs.last (ht.holds _ (by omega) (Nat.le_of_lt h))

/-- Runs that have an offset in common are the same. -/
theorem eq_of_meets (hs : s.IsRun p) (ht : t.IsRun p) (h : s.start < t.stop) (h' : t.start < s.stop) :
    s = t := by
  obtain ⟨start, stop⟩ := s
  obtain ⟨start', stop'⟩ := t
  obtain rfl := Nat.le_antisymm (hs.start_le ht h) (ht.start_le hs h')
  obtain rfl := Nat.le_antisymm (ht.stop_le hs h) (hs.stop_le ht h')
  rfl

end IsRun

end Span

namespace Token

variable {text : String} {before after : List Token} {t u : Token} {k : Nat}

/-- A token ends where its text does. -/
theorem stop_eq (h : tokenize text = before ++ t :: after) :
    t.span.stop = t.span.start + t.text.toList.length := by
  obtain ⟨-, -, rfl⟩ | ⟨c, rest, -, rfl, -⟩ := token_cases h
  · rfl
  · simp only [Lexeme.token, String.toList_ofList, List.length_cons]
    omega

/-- A token begins where the one before it ends. -/
theorem start_eq_stop (h : tokenize text = before ++ t :: u :: after) : u.span.start = t.span.stop := by
  have hu : tokenize text = (before ++ [t]) ++ u :: after := by rw [h, List.append_assoc]; rfl
  rw [stop_eq h, start_eq hu, start_eq h, List.flatMap_append, List.flatMap_singleton, List.length_append]

theorem exists_covers (hk : k < text.toList.length) :
    ∃ t ∈ tokenize text, t.span.start ≤ k ∧ k < t.span.stop := by
  obtain ⟨ts, ending, htokens, htiles, -, -⟩ := tokenize_tiles text
  obtain ⟨t, ht, hkt⟩ := htiles.exists_mem (Nat.zero_le k) hk
  exact ⟨t, htokens ▸ List.mem_append_left _ ht, hkt⟩

theorem eq_of_covers (ht : t ∈ tokenize text) (hu : u ∈ tokenize text)
    (hkt : t.span.start ≤ k ∧ k < t.span.stop) (hku : u.span.start ≤ k ∧ k < u.span.stop) : t = u := by
  obtain ⟨ts, ending, htokens, htiles, -, hspan⟩ := tokenize_tiles text
  have hmem {v : Token} (hv : v ∈ tokenize text) (hkv : v.span.start ≤ k ∧ k < v.span.stop) : v ∈ ts := by
    rw [htokens] at hv
    obtain hv | hlast := List.mem_append.1 hv
    · exact hv
    · -- no character is in the token for the end
      rw [List.mem_singleton.1 hlast, hspan] at hkv
      exact absurd hkv.2 (Nat.not_lt.2 hkv.1)
  exact htiles.eq_of_mem (hmem ht hkt) (hmem hu hku) hkt hku

theorem pairwise_start (text : String) :
    (tokenize text).Pairwise fun t u => t.span.start < u.span.start := by
  obtain ⟨ts, ending, htokens, htiles, -, hspan⟩ := tokenize_tiles text
  rw [htokens]
  refine List.pairwise_append.2 ⟨?_, List.pairwise_singleton _ _, fun t ht u hu => ?_⟩
  · exact htiles.pairwise.imp_of_mem fun ht _ h => Nat.lt_of_lt_of_le (htiles.filled ht) h
  · rw [List.mem_singleton.1 hu, hspan]
    exact Nat.lt_of_lt_of_le (htiles.filled ht) (htiles.stop_le ht)

/-! ## Characters that begin no token -/

/-- Unknown characters: nothing else begins at any of them, and something else begins behind
them, if anything stands there. -/
theorem startsNone_of_unknown (ht : t ∈ tokenize text) (hunknown : t.kind = .unknown) :
    t.span.start < t.span.stop ∧
      (∀ k, t.span.start ≤ k → k < t.span.stop → Lexeme.startsNone (text.toList.drop k) = true) ∧
      Lexeme.startsNone (text.toList.drop t.span.stop) = false := by
  obtain ⟨before, after, h⟩ := List.append_of_mem ht
  obtain ⟨-, -, rfl⟩ | ⟨c, rest, htext, hmade, -⟩ := token_cases h
  · cases hunknown
  have hkind : (Lexeme.scan c rest).kind = .unknown := by rwa [hmade] at hunknown
  have hnone : Lexeme.startsNone (c :: rest) = true := beq_iff_eq.2 hkind
  have hscan := Lexeme.scan_eq_unknown ((Lexeme.startsAt_eq_false_iff c rest).2 hkind)
  generalize before.flatMap (·.text.toList) = joined at htext hmade
  have hstart : t.span.start = joined.length := by rw [hmade, Lexeme.token]
  have hstop : t.span.stop = joined.length + ((Lexeme.unknownTail rest).length + 1) := by
    rw [hmade, hscan, Nat.add_comm _ 1, ← Nat.add_assoc]
    rfl
  rw [hstart, hstop, htext]
  refine ⟨by omega, fun k hk hk' => ?_, ?_⟩
  · obtain ⟨j, rfl⟩ := Nat.exists_eq_add_of_le hk
    rw [List.drop_length_add_append]
    cases j with
    | zero => exact hnone
    | succ j =>
      rw [List.drop_succ_cons]
      exact Lexeme.startsNone_within (by omega)
  · rw [List.drop_length_add_append, List.drop_succ_cons]
    exact Lexeme.startsNone_behind rest

/-- At an offset of a text stands a character that begins no token, and no other token takes it. -/
def Stray (text : String) (k : Nat) : Prop :=
  Lexeme.startsNone (text.toList.drop k) = true ∧
    ∀ t ∈ tokenize text, t.kind ≠ .unknown → ¬ (t.span.start ≤ k ∧ k < t.span.stop)

instance (text : String) : DecidablePred (Stray text) := fun _ => inferInstanceAs (Decidable (_ ∧ _))

/-- The characters that begin no token are those of the tokens for unknown characters. -/
theorem stray_iff :
    Stray text k ↔ ∃ t ∈ tokenize text, t.kind = .unknown ∧ t.span.start ≤ k ∧ k < t.span.stop := by
  constructor
  · rintro ⟨hnone, hfree⟩
    have hk : k < text.toList.length := by
      by_contra hlength
      rw [List.drop_eq_nil_iff.2 (Nat.le_of_not_lt hlength)] at hnone
      cases hnone
    -- some token takes the character, and only one for unknown characters may
    obtain ⟨t, ht, hkt⟩ := exists_covers hk
    exact ⟨t, ht, not_not.1 fun hkind => hfree t ht hkind hkt, hkt⟩
  · rintro ⟨t, ht, hunknown, hkt⟩
    refine ⟨(startsNone_of_unknown ht hunknown).2.1 k hkt.1 hkt.2, fun u hu hkind hku => hkind ?_⟩
    rw [← eq_of_covers ht hu hkt hku, hunknown]

/-- Something else begins behind unknown characters. -/
theorem not_stray_stop (ht : t ∈ tokenize text) (hunknown : t.kind = .unknown) :
    ¬ Stray text t.span.stop := fun h =>
  Bool.false_ne_true ((startsNone_of_unknown ht hunknown).2.2.symm.trans h.1)

/-- **Unknown characters are a run**: they begin no token, and what stands before them and what
stands behind them is part of another one. -/
theorem isRun_of_unknown (ht : t ∈ tokenize text) (hunknown : t.kind = .unknown) :
    t.span.IsRun (Stray text) where
  filled := (startsNone_of_unknown ht hunknown).1
  holds k hstop hstart := stray_iff.2 ⟨t, ht, hunknown, hstart, hstop⟩
  first := by
    refine Nat.eq_zero_or_pos t.span.start |>.imp_right fun hpos hstray => ?_
    obtain ⟨u, hu, hunknown', hku⟩ := stray_iff.1 hstray
    have hfilled := (startsNone_of_unknown ht hunknown).1
    by_cases hstop : u.span.stop = t.span.start
    · refine not_stray_stop hu hunknown' (stray_iff.2 ⟨t, ht, hunknown, ?_⟩)
      omega
    · -- otherwise the first of the characters is in both
      have heq : u = t := eq_of_covers hu ht (k := t.span.start) (by omega) (by omega)
      rw [heq] at hku
      omega
  last := not_stray_stop ht hunknown

/-- A run of characters that begin no token is one token. -/
theorem exists_of_isRun {s : Span} (hs : s.IsRun (Stray text)) :
    ∃ t ∈ tokenize text, t.kind = .unknown ∧ t.span = s := by
  obtain ⟨t, ht, hunknown, hstart, hstop⟩ := stray_iff.1 (hs.holds s.start hs.filled (Nat.le_refl _))
  exact ⟨t, ht, hunknown, (isRun_of_unknown ht hunknown).eq_of_meets hs
    (Nat.lt_of_le_of_lt hstart hs.filled) hstop⟩

/-! ## What is reported -/

/-- A token that gives rise to an issue. -/
def isReported (t : Token) : Bool := t.kind == .unknown || t.kind == .string && t.flags.unterminated

end Token

/-- An issue is about a token: it is where the token is, and says what is wrong with it. -/
def Issue.IsAbout (i : Issue) (t : Token) : Prop :=
  i.span = t.span ∧
    (t.kind = .unknown ∧ i.code = Kind.invalidCharacter.code ∨
      t.kind = .string ∧ t.flags.unterminated = true ∧ i.code = Kind.unterminatedString.code)

namespace Token

variable {text : String} {t : Token} {i j : Issue}

theorem isAbout_of_issue? (h : t.issue? = some i) : i.IsAbout t := by
  unfold issue? at h
  split at h
  next hunknown =>
    cases h
    exact ⟨rfl, .inl ⟨hunknown, rfl⟩⟩
  next =>
    split at h
    next hopen =>
      cases h
      exact ⟨rfl, .inr ⟨hopen.1, hopen.2, rfl⟩⟩
    next => cases h

theorem isSome_issue? (t : Token) : t.issue?.isSome = t.isReported := by
  unfold issue? isReported
  split
  next h => simp [h]
  next h => split <;> simp_all

/-- **One issue for each token that gives rise to one**, in their order. -/
theorem forall₂_issues (ts : List Token) :
    List.Forall₂ Issue.IsAbout (issues ts) (ts.filter isReported) := by
  induction ts with
  | nil => exact .nil
  | cons t ts ih =>
    have hreported := isSome_issue? t
    rw [issues, List.filterMap_cons, List.filter_cons, ← hreported]
    cases hissue : t.issue? with
    | none => exact ih
    | some i => exact .cons (isAbout_of_issue? hissue) ih

/-- No two issues of a text are at one place. -/
theorem nodup_issues (text : String) : (issues (tokenize text)).Nodup := by
  have hordered : (issues (tokenize text)).Pairwise fun i j => i.span.start < j.span.start := by
    refine (pairwise_start text).filterMap _ fun t u hlt i hi j hj => ?_
    rwa [(isAbout_of_issue? hi).1, (isAbout_of_issue? hj).1]
  refine hordered.imp fun hlt => ?_
  rintro rfl
  exact Nat.lt_irrefl _ hlt

/-- An issue about unknown characters comes from a token for them. -/
theorem exists_of_mem_issues (hi : i ∈ issues (tokenize text))
    (hcode : i.code = Issue.Kind.invalidCharacter.code) :
    ∃ t ∈ tokenize text, t.kind = .unknown ∧ t.issue? = some i := by
  obtain ⟨t, ht, hissue⟩ := List.mem_filterMap.1 hi
  obtain ⟨-, ⟨hunknown, -⟩ | ⟨-, -, hopen⟩⟩ := isAbout_of_issue? hissue
  · exact ⟨t, ht, hunknown, hissue⟩
  · exact absurd (hcode.symm.trans hopen) (by decide)

/-- **Unknown characters are reported once.** Whatever has an offset in common with a run of
characters that begin no token and is reported for such characters is that run. -/
theorem filter_issues_eq {s : Span} (hs : s.IsRun (Stray text)) :
    ∃ i, i.span = s ∧ (issues (tokenize text)).filter (fun i =>
      i.code == Issue.Kind.invalidCharacter.code && i.span.start < s.stop && s.start < i.span.stop) = [i] := by
  obtain ⟨t, ht, hunknown, rfl⟩ := exists_of_isRun hs
  obtain ⟨i, hissue⟩ := Option.isSome_iff_exists.1 ((isSome_issue? t).trans (by simp [isReported, hunknown]))
  obtain ⟨hspan, ⟨-, hcode⟩ | ⟨hstring, -⟩⟩ := isAbout_of_issue? hissue
  swap
  · cases hunknown.symm.trans hstring
  refine ⟨i, hspan, List.perm_singleton.1 ?_⟩
  refine (List.perm_ext_iff_of_nodup ((nodup_issues text).filter _) (List.nodup_singleton i)).2 fun j => ?_
  rw [List.mem_filter, List.mem_singleton]
  simp only [Bool.and_eq_true, beq_iff_eq, decide_eq_true_eq]
  constructor
  · rintro ⟨hj, ⟨hcode', hbefore⟩, hbehind⟩
    obtain ⟨u, hu, hunknown', hissue'⟩ := exists_of_mem_issues hj hcode'
    -- the two tokens are runs that meet, so they are the same token
    rw [(isAbout_of_issue? hissue').1] at hbefore hbehind
    have hsame : u.span = t.span := (isRun_of_unknown hu hunknown').eq_of_meets hs hbefore hbehind
    have hfirst : t.span.start ≤ t.span.start ∧ t.span.start < t.span.stop := ⟨Nat.le_refl _, hs.filled⟩
    obtain rfl : u = t := eq_of_covers hu ht (hsame ▸ hfirst) hfirst
    exact Option.some.inj (hissue'.symm.trans hissue)
  · rintro rfl
    exact ⟨List.mem_filterMap.2 ⟨t, ht, hissue⟩, ⟨hcode, hspan ▸ hs.filled⟩, hspan ▸ hs.filled⟩

/-- **What the lexer reports** are the tokens for unknown characters and the open strings, one issue
for each, in their order and where they are. No two tokens for unknown characters stand one behind
the other: each run of characters that begin no token is reported once and as a whole, and nothing
but such runs is reported for that. -/
theorem issues_lex (text : String) :
    (Lexer.lex text).1 = tokenize text ∧
      List.Forall₂ Issue.IsAbout (Lexer.lex text).2 ((tokenize text).filter isReported) ∧
      (tokenize text).IsChain (fun t u => ¬ (t.kind = .unknown ∧ u.kind = .unknown)) ∧
      (∀ s : Span, s.IsRun (Stray text) → ∃ i, i.span = s ∧ (Lexer.lex text).2.filter (fun i =>
        i.code == Issue.Kind.invalidCharacter.code && i.span.start < s.stop && s.start < i.span.stop) = [i]) ∧
      ∀ i ∈ (Lexer.lex text).2, i.code = Issue.Kind.invalidCharacter.code → i.span.IsRun (Stray text) := by
  rw [Lexer.lex_eq]
  refine ⟨rfl, forall₂_issues _, ?_, fun s hs => filter_issues_eq hs, fun i hi hcode => ?_⟩
  · rw [List.isChain_iff_forall_rel_of_append_cons_cons]
    rintro t u before after h ⟨ht, hu⟩
    -- the second begins right behind the first, where something else should begin
    have htin : t ∈ tokenize text := h ▸ List.mem_append_right _ List.mem_cons_self
    have huin : u ∈ tokenize text :=
      h ▸ List.mem_append_right _ (List.mem_cons_of_mem _ List.mem_cons_self)
    refine not_stray_stop htin ht ?_
    rw [← start_eq_stop h]
    have hrun := isRun_of_unknown huin hu
    exact hrun.holds _ hrun.filled (Nat.le_refl _)
  · obtain ⟨t, ht, hunknown, hissue⟩ := exists_of_mem_issues hi hcode
    rw [(isAbout_of_issue? hissue).1]
    exact isRun_of_unknown ht hunknown

/-- A tilde begins a token before an equals sign and nowhere else, and in a comment nothing does. -/
theorem issues_lex_tilde :
    let text := "a ~~= ~# -- ~\n'b"
    (Span.mk 2 3).IsRun (Stray text) ∧ (Span.mk 6 8).IsRun (Stray text) ∧
      (∃ i, i.span = ⟨6, 8⟩ ∧ (Lexer.lex text).2.filter (fun i =>
        i.code == Issue.Kind.invalidCharacter.code && i.span.start < 8 && 6 < i.span.stop) = [i]) ∧
      ∃ i ∈ (Lexer.lex text).2, i.code = Issue.Kind.invalidCharacter.code ∧ i.span = ⟨2, 3⟩ := by
  intro text
  obtain ⟨-, -, -, honce, hruns⟩ := issues_lex text
  have hreported : ∃ i ∈ (Lexer.lex text).2, i.code = Issue.Kind.invalidCharacter.code ∧ i.span = ⟨2, 3⟩ := by
    rw [Lexer.lex_eq]
    decide +kernel
  have hrun : (Span.mk 6 8).IsRun (Stray text) := by decide +kernel
  refine ⟨?_, hrun, honce _ hrun, hreported⟩
  obtain ⟨i, hi, hcode, hspan⟩ := hreported
  exact hspan ▸ hruns i hi hcode

end Token

end CommandScript
