import CommandScript.Proofs.Alongside
import CommandScript.Proofs.ByItself
/-!
# CommandScript — what a token says about itself

Of the flags of a token two are in its text: whether a string has its closing quote, and
whether it has a backslash. The other two are in the kinds of the tokens before it
(`Token.Marked`). So two texts of the same kinds of token, where what is visible has the
same text, have the same visible tokens but for their places.
-/

namespace CommandScript

namespace Lexeme

variable {c : Char} {rest : List Char}

/-- Only behind quotes strings are scanned, and nothing else has flags. -/
theorem scan_string_or_plain (c : Char) (rest : List Char) :
    isQuote c = true ∧ scan c rest = stringTail c rest ∨
      (scan c rest).kind ≠ .string ∧ (scan c rest).unterminated = false ∧
        (scan c rest).hasEscape = false := by
  have h := scans c rest
  generalize scan c rest = l at h ⊢
  cases h with
  | newline | whitespace | comment | number | unknown => exact .inr ⟨nofun, rfl, rfl⟩
  | string hc => exact .inl ⟨hc, rfl⟩
  | word => exact .inr ⟨ofWord_ne _ (by decide), rfl, rfl⟩
  | pair _ hk => exact .inr ⟨ofPair_ne hk (by decide), rfl, rfl⟩
  | sign hk => exact .inr ⟨ofSign_ne hk (by decide), rfl, rfl⟩

end Lexeme

namespace Token

/-- A token of a text: a lexeme scanned somewhere, or the end. -/
inductive Scanned (t : Token) : Prop
  | lexeme (c : Char) (rest : List Char) (kind : t.kind = (Lexeme.scan c rest).kind)
      (text : t.text = String.ofList (c :: (Lexeme.scan c rest).tail))
      (unterminated : t.flags.unterminated = (Lexeme.scan c rest).unterminated)
      (hasEscape : t.flags.hasEscape = (Lexeme.scan c rest).hasEscape)
  | ending (kind : t.kind = .endOfInput) (unterminated : t.flags.unterminated = false)
      (hasEscape : t.flags.hasEscape = false)

theorem scanned_of_mem_walk {offset covered : Nat} {around : Surroundings} {cs : List Char} {t : Token}
    (ht : t ∈ walk offset around covered cs) : t.Scanned := by
  induction cs generalizing offset covered around with
  | nil =>
    cases covered <;>
    · rw [walk, List.mem_singleton] at ht
      subst ht
      exact .ending rfl rfl rfl
  | cons c rest ih =>
    cases covered with
    | succ covered => exact ih (by rwa [walk] at ht)
    | zero =>
      rw [walk] at ht
      obtain rfl | ht := List.mem_cons.1 ht
      · exact .lexeme c rest rfl rfl rfl rfl
      · exact ih ht

/-- **Two flags of a token are in its kind and its text.** -/
theorem Scanned.flags_eq {t t' : Token} (h : t.Scanned) (h' : t'.Scanned) (hkind : t.kind = t'.kind)
    (htext : t.text = t'.text) :
    t.flags.unterminated = t'.flags.unterminated ∧ t.flags.hasEscape = t'.flags.hasEscape := by
  cases h with
  | ending hend hopen hescape =>
    cases h' with
    | ending _ hopen' hescape' => exact ⟨hopen.trans hopen'.symm, hescape.trans hescape'.symm⟩
    | lexeme c rest hk =>
      exact absurd (hk.symm.trans (hkind.symm.trans hend)) (Lexeme.scan_kind_ne_endOfInput c rest)
  | lexeme c rest hk hcs hopen hescape =>
    cases h' with
    | ending hend =>
      exact absurd (hk.symm.trans (hkind.trans hend)) (Lexeme.scan_kind_ne_endOfInput c rest)
    | lexeme c' rest' hk' hcs' hopen' hescape' =>
      obtain ⟨rfl, htail⟩ :=
        List.cons.inj (String.ofList_injective (hcs.symm.trans (htext.trans hcs')))
      rw [hopen, hescape, hopen', hescape', ← Lexeme.scan_tail c rest, htail, Lexeme.scan_tail]
      exact ⟨rfl, rfl⟩

/-- What stands before each of the tokens is in the kinds of those before it. -/
def Marked : Surroundings → List Token → Prop
  | _, [] => True
  | around, t :: ts =>
    t.flags.lineBreakBefore = around.lineBreak ∧ t.flags.triviaBefore = around.trivia ∧
      Marked (around.past t.kind) ts

theorem marked_walk (offset covered : Nat) (around : Surroundings) (cs : List Char) :
    Marked around (walk offset around covered cs) := by
  induction cs generalizing offset covered around with
  | nil => cases covered <;> exact ⟨rfl, rfl, trivial⟩
  | cons c rest ih =>
    cases covered with
    | succ covered =>
      rw [walk]
      exact ih _ _ _
    | zero =>
      rw [walk]
      exact ⟨rfl, rfl, ih _ _ _⟩

/-- Behind the same kinds stands the same. -/
theorem Marked.sameMarks {R : Token → Token → Prop} {ts ts' : List Token} {around : Surroundings}
    (hkind : ∀ t t', R t t' → t.kind = t'.kind) (h : List.Forall₂ R ts ts') (hts : Marked around ts)
    (hts' : Marked around ts') : List.Forall₂ (fun t t' => R t t' ∧ t.SameMarks t') ts ts' := by
  induction h generalizing around with
  | nil => exact .nil
  | cons hr _ ih =>
    obtain ⟨hline, htrivia, hrest⟩ := hts
    obtain ⟨hline', htrivia', hrest'⟩ := hts'
    exact .cons ⟨hr, hline.trans hline'.symm, htrivia.trans htrivia'.symm⟩
      (ih hrest (hkind _ _ hr ▸ hrest'))

end Token

end CommandScript
