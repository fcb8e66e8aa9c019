import CommandScript.Proofs.Phrases
/-!
# CommandScript — no token is lost

The tokens of a tree are tokens of the text, in the order of the text and none of them
twice. The ones that are not in the tree are accounted for: the grammar does not see
them, or they are semicolons, or they stand in a block behind the statement that leaves
it.
-/

namespace CommandScript

open Outline

/-- The token stands in the block, behind the statement that leaves it. -/
def Block.PassesOver (b : Block) (t : Token) : Prop :=
  ∃ l, b.last = some l ∧ l.span.stop ≤ t.span.start ∧ b.span.encloses t.span = true

/-- The token is built of, or need not be. -/
def Accounted (os : List Outline) (t : Token) : Prop :=
  t ∈ tokensOfAll os ∨ t.kind = .semicolon ∨ ∃ b, Node.block b ∈ partsOfAll os ∧ b.PassesOver t

namespace Accounted

variable {os os' : List Outline} {t : Token}

theorem left (h : Accounted os t) (os' : List Outline) : Accounted (os ++ os') t := by
  unfold Accounted
  rw [tokensOfAll_append, partsOfAll_append]
  obtain h | h | ⟨b, hb, hpasses⟩ := h
  · exact .inl (List.mem_append_left _ h)
  · exact .inr (.inl h)
  · exact .inr (.inr ⟨b, List.mem_append_left _ hb, hpasses⟩)

theorem right (h : Accounted os' t) (os : List Outline) : Accounted (os ++ os') t := by
  unfold Accounted
  rw [tokensOfAll_append, partsOfAll_append]
  obtain h | h | ⟨b, hb, hpasses⟩ := h
  · exact .inl (List.mem_append_right _ h)
  · exact .inr (.inl h)
  · exact .inr (.inr ⟨b, List.mem_append_right _ hb, hpasses⟩)

/-- What is accounted for among the children of a part is accounted for in the part. -/
theorem node (h : Accounted os t) (p : Node) : Accounted [.node p os] t := by
  unfold Accounted
  rw [tokensOfAll_singleton, partsOfAll_singleton, tokens, parts]
  obtain h | h | ⟨b, hb, hpasses⟩ := h
  · exact .inl h
  · exact .inr (.inl h)
  · exact .inr (.inr ⟨b, List.mem_cons_of_mem p hb, hpasses⟩)

end Accounted

namespace Built

variable {c d e f : Cursor} {os : List Outline} {t : Token} {ts : List Token}

/-- A block reaches from its brace to the end of what was passed over in it. -/
theorem passesOver {b : Block} {l : LastStatement} (hc : c.Sound) (hcd : Built c os d)
    (hde : ∃ us, d.Moved us e) (hl : b.last = some l) (hspan : l.span = e.spanFrom d.offset)
    (hef : e.Moved ts f)
    (hb : f.BlockSpan c b.span) (ht : t ∈ ts) : b.PassesOver t := by
  obtain ⟨vs, hcd⟩ := hcd.moved
  obtain ⟨us, hde⟩ := hde
  have hd := hcd.sound hc
  have he := hde.sound hd
  have hup : t ∈ e.upcoming := by
    rw [hef.upcoming]
    exact List.mem_append_left _ ht
  -- the places on the way are in order
  have hoffset := he.offset_le hup
  have hbehind := he.behind t hup
  have hlate := hd.offset_le_offset hde
  have hlater := hc.offset_le_offset hcd
  have hstart := hc.lastStop_le
  have hstop := he.stop_le hef ht
  refine ⟨l, hl, ?_, ?_⟩
  · rw [hspan, Cursor.spanFrom]
    dsimp only
    omega
  · have hends : b.span.start = c.lastStop ∧ t.span.stop ≤ b.span.stop := by
      obtain hb | ⟨hzero, -, hb⟩ := hb
      · rw [hb, Cursor.spanFrom]
        exact ⟨rfl, Nat.le_trans hstop (Nat.le_max_right _ _)⟩
      · have hbefore := he.before t hup
        rw [hde.ending, hcd.ending, hc.closing] at hbefore
        rw [hb]
        exact ⟨hzero.symm, hbefore⟩
    simp only [Span.encloses, Bool.and_eq_true, decide_eq_true_eq]
    omega

/-- **What is built keeps the order of what was read and accounts for all of it.** -/
theorem accounts (h : Built c os d) (hc : c.Sound) :
    ∃ ts, c.Moved ts d ∧ (tokensOfAll os).Sublist ts ∧ ∀ t ∈ ts, Accounted os t := by
  induction h with
  | passed h hsemicolons =>
    exact ⟨_, h.toMoved, List.nil_sublist _, fun t ht => .inr (.inl (hsemicolons t ht))⟩
  | @token c d t h =>
    refine ⟨[t], h.toMoved, List.Sublist.refl _, fun u hu => .inl ?_⟩
    rwa [tokensOfAll_singleton, Outline.tokens]
  | append hfirst hsecond ih ih' =>
    obtain ⟨ts, h, hsub, hacc⟩ := ih hc
    obtain ⟨us, h', hsub', hacc'⟩ := ih' (h.sound hc)
    refine ⟨ts ++ us, h.trans h', ?_, fun t ht => ?_⟩
    · rw [tokensOfAll_append]
      exact hsub.append hsub'
    · obtain ht | ht := List.mem_append.1 ht
      · exact (hacc t ht).left _
      · exact (hacc' t ht).right _
  | @node c d os p hos hspan hwhole hread _ _ _ ih =>
    obtain ⟨ts, h, hsub, hacc⟩ := ih hc
    refine ⟨ts, h, ?_, fun t ht => (hacc t ht).node p⟩
    rwa [tokensOfAll_singleton, Outline.tokens]
  | @block c d os b hos hlast hspan ih =>
    obtain ⟨ts, h, hsub, hacc⟩ := ih hc
    refine ⟨ts, h, ?_, fun t ht => (hacc t ht).node _⟩
    rwa [tokensOfAll_singleton, Outline.tokens]
  | @left c d e f os os' b l ts hos hos' hl hleaves hpassed hreports hb ih ih' =>
    obtain ⟨us, h, hsub, hacc⟩ := ih hc
    obtain ⟨vs, h', hsub', hacc'⟩ := ih' (h.sound hc)
    refine ⟨us ++ (vs ++ ts), h.trans (h'.trans hpassed.toMoved), ?_, fun t ht => ?_⟩
    · rw [tokensOfAll_singleton, Outline.tokens, tokensOfAll_append, ← List.append_assoc]
      exact (hsub.append hsub').trans (List.sublist_append_left _ _)
    · obtain ht | ht := List.mem_append.1 ht
      · exact ((hacc t ht).left _).node _
      obtain ht | ht := List.mem_append.1 ht
      · exact ((hacc' t ht).right _).node _
      · refine .inr (.inr ⟨b, ?_, hos.passesOver hc ⟨vs, h'⟩ hl hleaves.span hpassed.toMoved hb ht⟩)
        rw [partsOfAll_singleton, parts]
        exact List.mem_cons_self

end Built

/-- The tokens of a tree are tokens that the grammar sees. -/
theorem tokens_sublist_upcoming {text : String} {limit : Nat} {b : Block}
    (h : (parse text limit).block = some b) :
    (ofBlock b).tokens.Sublist (Cursor.ofTokens (Token.tokenize text)).upcoming := by
  obtain ⟨d, hbuilt, -, -⟩ := exists_built_of_parse h
  obtain ⟨-, -, -, -, -, -, hsound⟩ := Cursor.ofTokens_tokenize text
  obtain ⟨read, hmoved, hsub, -⟩ := hbuilt.accounts hsound
  rw [tokensOfAll_singleton] at hsub
  rw [hmoved.upcoming]
  exact hsub.trans (List.sublist_append_left _ _)

/-- The tokens of a tree are tokens of the text. -/
theorem tokens_sublist_tokenize {text : String} {limit : Nat} {b : Block}
    (h : (parse text limit).block = some b) :
    (ofBlock b).tokens.Sublist (Token.tokenize text) := by
  obtain ⟨ts, ending, htokens, -, hup, -⟩ := Cursor.ofTokens_tokenize text
  have hsub := tokens_sublist_upcoming h
  rw [hup] at hsub
  rw [htokens]
  exact (hsub.trans List.filter_sublist).trans (List.sublist_append_left ts [ending])

/-- **Reading loses nothing and makes nothing up.** The tokens of a tree are tokens of the
text, in its order and each only once. A token that is not among them is hidden, the end
of the text, a semicolon, or passed over in a block behind the statement that leaves it. -/
theorem tokens_accounted {text : String} {limit : Nat} {b : Block}
    (h : (parse text limit).block = some b) :
    (ofBlock b).tokens.Sublist (Token.tokenize text) ∧
      (ofBlock b).tokens.Pairwise (fun t u => t.span.start < u.span.start) ∧
      ∀ t ∈ Token.tokenize text, t ∈ (ofBlock b).tokens ∨ t.kind.isHidden = true ∨
        t.kind = .endOfInput ∨ t.kind = .semicolon ∨
        ∃ b', Node.block b' ∈ (ofBlock b).parts ∧ b'.PassesOver t := by
  obtain ⟨d, hbuilt, hnothing, -⟩ := exists_built_of_parse h
  obtain ⟨ts, ending, htokens, hend, hup, -, hsound⟩ := Cursor.ofTokens_tokenize text
  obtain ⟨read, hmoved, hsub, hacc⟩ := hbuilt.accounts hsound
  -- everything that can be seen was read
  have hread : ts.filter (!·.kind.isHidden) = read := by
    rw [← hup, hmoved.upcoming, hnothing, List.append_nil]
  rw [tokensOfAll_singleton] at hsub
  refine ⟨tokens_sublist_tokenize h, ?_, fun t ht => ?_⟩
  · have hincreasing := hsound.increasing
    rw [hup, hread] at hincreasing
    exact hincreasing.sublist hsub
  · rw [htokens, List.mem_append, List.mem_singleton] at ht
    obtain ht | rfl := ht
    · by_cases hhidden : t.kind.isHidden = true
      · exact .inr (.inl hhidden)
      · have hmem : t ∈ read := hread ▸ List.mem_filter.2 ⟨ht, by simpa using hhidden⟩
        obtain h | h | ⟨b', hb', hpasses⟩ := hacc t hmem
        · exact .inl (tokensOfAll_singleton _ ▸ h)
        · exact .inr (.inr (.inr (.inl h)))
        · exact .inr (.inr (.inr (.inr ⟨b', partsOfAll_singleton _ ▸ hb', hpasses⟩)))
    · exact .inr (.inr (.inl hend))

/-- Something that fits nowhere, a block that is left early and not closed, and something
behind `return`. -/
theorem tokens_accounted_unreachable :
    let text := ") 1 # || \x7b return a.[ ; c (\n ;; d"
    ∃ b, (parse text 1).block = some b ∧ (ofBlock b).tokens.Sublist (Token.tokenize text) ∧
      ∀ t ∈ Token.tokenize text, t.kind = .identifier → t ∈ (ofBlock b).tokens ∨
        ∃ b', Node.block b' ∈ (ofBlock b).parts ∧ b'.PassesOver t := by
  intro text
  obtain ⟨b, hb⟩ := Option.isSome_iff_exists.1
    (show (parse text 1).block.isSome = true by decide +kernel)
  obtain ⟨hsub, -, haccounted⟩ := tokens_accounted hb
  refine ⟨b, hb, hsub, fun t ht hkind => ?_⟩
  have h := haccounted t ht
  have hvisible : TokenKind.identifier.isHidden = false := rfl
  rw [hkind, hvisible] at h
  simpa using h

end CommandScript
