import CommandScript.Proofs.Datum
import CommandScript.Value.Format
/-!
# CommandScript — data as text

The text that is written for data, and the tokens it consists of. What a lexeme takes
depends on what follows, so a text is spelled by its tokens before a character that ends
any of them: a comma or a closing bracket (`SpelledBy`).

A negative number is two tokens, and a key that is a word is one token without brackets.
-/

namespace CommandScript

/-! ## Texts and tokens -/

namespace Spelling

/-- The token of a number of these characters. -/
def numeral (cs : List Char) : Spelling := ⟨.number, String.ofList cs, false, false⟩

/-- The token of a natural number. -/
def number (n : Nat) : Spelling := ⟨.number, String.ofList (Nat.toDigits 10 n), false, false⟩

/-- The token of a string. -/
def string (s : String) : Spelling :=
  ⟨.string, String.ofList ('"' :: (s.toList.flatMap escaped ++ ['"'])), false,
    s.toList.any needsEscape⟩

/-- Commas between what the parts of a list consist of. -/
def commas (uss : List (List Spelling)) : List Spelling :=
  [Spelling.sign .comma ','].intercalate uss

@[simp]
theorem commas_nil : commas [] = [] := rfl

@[simp]
theorem commas_singleton (us : List Spelling) : commas [us] = us := List.intercalate_singleton

@[simp]
theorem commas_cons_cons (us vs : List Spelling) (uss : List (List Spelling)) :
    commas (us :: vs :: uss) = us ++ Spelling.sign .comma ',' :: commas (vs :: uss) := by
  rw [commas, List.intercalate_cons_cons, List.append_assoc]
  rfl

/-- What holds of a comma and of all parts holds of the list. -/
theorem forall_mem_commas {p : Spelling → Prop} {uss : List (List Spelling)}
    (hcomma : p (.sign .comma ',')) (h : ∀ us ∈ uss, ∀ w ∈ us, p w) : ∀ w ∈ commas uss, p w := by
  induction uss with
  | nil => exact fun w hw => absurd hw List.not_mem_nil
  | cons us uss ih =>
    obtain ⟨hus, huss⟩ := List.forall_mem_cons.1 h
    cases uss with
    | nil => simpa using hus
    | cons vs uss =>
      rw [commas_cons_cons, List.forall_mem_append, List.forall_mem_cons]
      exact ⟨hus, hcomma, ih huss⟩

/-- A part of a list is no longer than the list. -/
theorem length_le_commas {us : List Spelling} {uss : List (List Spelling)} (h : us ∈ uss) :
    us.length ≤ (commas uss).length := by
  induction uss with
  | nil => exact absurd h List.not_mem_nil
  | cons vs uss ih =>
    cases uss with
    | nil =>
      obtain rfl := List.mem_singleton.1 h
      simp
    | cons vs' uss =>
      rw [commas_cons_cons, List.length_append, List.length_cons]
      obtain rfl | h := List.mem_cons.1 h
      · omega
      · have hle := ih h
        omega

/-- A list is longer by a part that is put before it. -/
theorem length_commas_lt {us : List Spelling} (hus : us ≠ []) (uss : List (List Spelling)) :
    (commas uss).length < (commas (us :: uss)).length := by
  have hpos := List.length_pos_iff.2 hus
  cases uss with
  | nil => simpa using hpos
  | cons vs uss =>
    rw [commas_cons_cons, List.length_append, List.length_cons]
    omega

/-- A list has at least a token for each part that is not empty. -/
theorem length_le_length_commas {uss : List (List Spelling)} (h : ∀ us ∈ uss, us ≠ []) :
    uss.length ≤ (commas uss).length := by
  induction uss with
  | nil => exact Nat.zero_le _
  | cons us uss ih =>
    obtain ⟨hus, huss⟩ := List.forall_mem_cons.1 h
    have hlt := length_commas_lt hus uss
    have hle := ih huss
    rw [List.length_cons]
    omega

end Spelling

namespace Datum

/-- The text of what is no container. -/
def scalarText : Datum → String
  | .nil => "nil"
  | .bool b => if b then "true" else "false"
  | .int n => toString n
  | .string s => stringLiteral s
  | .vector _ | .table _ => ""

/-- The tokens of what is no container. -/
def scalarTokens : Datum → List Spelling
  | .nil => [.word "nil".toList]
  | .bool b => [.word (if b then "true" else "false").toList]
  | .int n => if n < 0 then [.sign .minus '-', .number n.natAbs] else [.number n.natAbs]
  | .string s => [.string s]
  | .vector _ | .table _ => []

end Datum

namespace Key

/-- The text of a key. -/
def text (k : Key) : String :=
  match k.name? with
  | some name => name
  | none => "[" ++ k.datum.scalarText ++ "]"

/-- The tokens of a key. -/
def tokens (k : Key) : List Spelling :=
  match k.name? with
  | some name => [.word name.toList]
  | none => .sign .leftBracket '[' :: (k.datum.scalarTokens ++ [.sign .rightBracket ']'])

end Key

namespace Datum

mutual

/-- The text of a datum. -/
def text : Datum → String
  | .vector ds => Heap.enclosed "[" "]" (textAll ds)
  | .table es => Heap.enclosed "\x7b" "\x7d" (textEntries es)
  | d => d.scalarText

def textAll : List Datum → List String
  | [] => []
  | d :: rest => text d :: textAll rest

def textEntry : Key × Datum → String
  | (k, d) => k.text ++ " = " ++ text d

def textEntries : List (Key × Datum) → List String
  | [] => []
  | e :: rest => textEntry e :: textEntries rest

end

mutual

/-- The tokens of a datum. -/
def tokens : Datum → List Spelling
  | .vector ds =>
    .sign .leftBracket '[' :: (Spelling.commas (tokensAll ds) ++ [.sign .rightBracket ']'])
  | .table es =>
    .sign .leftBrace '\x7b' :: (Spelling.commas (tokensEntries es) ++ [.sign .rightBrace '\x7d'])
  | d => d.scalarTokens

def tokensAll : List Datum → List (List Spelling)
  | [] => []
  | d :: rest => tokens d :: tokensAll rest

def tokensEntry : Key × Datum → List Spelling
  | (k, d) => k.tokens ++ .sign .equal '=' :: tokens d

def tokensEntries : List (Key × Datum) → List (List Spelling)
  | [] => []
  | e :: rest => tokensEntry e :: tokensEntries rest

end

/-- A function on lists that goes from element to element. -/
theorem eq_map {α β : Type} {f : List α → List β} {g : α → β} (hnil : f [] = [])
    (hcons : ∀ x xs, f (x :: xs) = g x :: f xs) (xs : List α) : f xs = xs.map g := by
  induction xs with
  | nil => exact hnil
  | cons x xs ih => rw [hcons, ih, List.map_cons]

theorem textAll_eq_map (ds : List Datum) : textAll ds = ds.map text :=
  eq_map rfl (fun _ _ => rfl) ds

theorem textEntries_eq_map (es : List (Key × Datum)) : textEntries es = es.map textEntry :=
  eq_map rfl (fun _ _ => rfl) es

theorem tokensAll_eq_map (ds : List Datum) : tokensAll ds = ds.map tokens :=
  eq_map rfl (fun _ _ => rfl) ds

theorem tokensEntries_eq_map (es : List (Key × Datum)) : tokensEntries es = es.map tokensEntry :=
  eq_map rfl (fun _ _ => rfl) es

theorem tokensEntry_eq (e : Key × Datum) :
    tokensEntry e = e.1.tokens ++ .sign .equal '=' :: e.2.tokens := by
  obtain ⟨k, d⟩ := e
  rfl

theorem Scalar.text_eq {d : Datum} (h : Scalar d) : d.text = d.scalarText := by
  cases h <;> rfl

theorem Scalar.tokens_eq {d : Datum} (h : Scalar d) : d.tokens = d.scalarTokens := by
  cases h <;> rfl

/-- Kinds of token that data begins with. -/
def firstKinds : List TokenKind :=
  [.kwNil, .kwTrue, .kwFalse, .minus, .number, .string, .leftBracket, .leftBrace]

theorem tokens_eq_cons (d : Datum) : ∃ w us, d.tokens = w :: us ∧ w.kind ∈ firstKinds := by
  cases d with
  | nil => exact ⟨_, _, rfl, by decide⟩
  | bool b => cases b <;> exact ⟨_, _, rfl, by decide⟩
  | int n =>
    change ∃ w us, (int n).scalarTokens = w :: us ∧ w.kind ∈ firstKinds
    unfold scalarTokens
    dsimp only
    split
    · exact ⟨_, _, rfl, by decide⟩
    · exact ⟨_, _, rfl, by simp [firstKinds, Spelling.number]⟩
  | string s => exact ⟨_, _, rfl, by simp [firstKinds, Spelling.string]⟩
  | vector ds =>
    rw [tokens]
    exact ⟨_, _, rfl, by decide⟩
  | table es =>
    rw [tokens]
    exact ⟨_, _, rfl, by decide⟩

theorem length_tokens_pos (d : Datum) : 0 < d.tokens.length := by
  obtain ⟨w, us, htokens, -⟩ := d.tokens_eq_cons
  rw [htokens]
  exact Nat.succ_pos _

end Datum

/-! ## Texts by their tokens -/

/-- A text begins with what ends every lexeme of data. -/
def Delimits (rest : List Char) : Prop := ∀ c ∈ rest.head?, c ∈ [',', ']', '\x7d']

/-- A text without a blank before it is spelled by whole tokens. -/
structure SpelledBy (text : List Char) (us : List Spelling) : Prop where
  before : ∀ {rest ws}, Delimits rest → Spells rest ws → Spells (text ++ rest) (us ++ ws)
  starts : ∃ c cs, text = c :: cs ∧ isBlank c = false
  whole : ∀ w ∈ us, w.kind ≠ .unknown ∧ w.unterminated = false

namespace Spells

variable {c : Char} {rest : List Char} {ws : List Spelling} {k : TokenKind}

/-- A bracket, a brace or a comma. -/
theorem punctuation (hc : c ∈ [',', '[', ']', '\x7b', '\x7d']) (hk : TokenKind.ofSign c = some k)
    (h : Spells rest ws) : Spells (c :: rest) (Spelling.sign k c :: ws) := by
  have hsigns : [',', '[', ']', '\x7b', '\x7d'] ⊆ ['&', '-', ',', '[', ']', '\x7b', '\x7d'] := by
    simp
  have hpair : Lexeme.pairAt c rest = none := Lexeme.pairAt_eq_none rest (hsigns hc)
  simp only [List.mem_cons, List.not_mem_nil, or_false] at hc
  obtain rfl | rfl | rfl | rfl | rfl := hc <;> cases hk <;>
    exact sign (by decide) rfl rfl (.inl (by decide)) hpair h

/-- One blank. -/
theorem space (hrest : ∀ d ∈ rest.head?, isBlank d = false) (h : Spells rest ws) :
    Spells (' ' :: rest) ws :=
  blank (Lexeme.scan_space hrest) h

end Spells

/-- An identifier is a word, and no keyword. -/
theorem eq_cons_of_isIdentifier {cs : List Char} (h : isIdentifier cs = true) :
    ∃ c tail, cs = c :: tail ∧ startsIdentifier c = true ∧
      (∀ d ∈ tail, continuesIdentifier d = true) ∧
      TokenKind.ofWord (String.ofList cs) = .identifier := by
  cases cs with
  | nil => cases h
  | cons c tail =>
    simp only [isIdentifier, Bool.and_eq_true, beq_iff_eq, List.all_eq_true] at h
    exact ⟨c, tail, rfl, h.1.1, h.1.2, h.2⟩

theorem Spelling.kind_word {cs : List Char} (h : isIdentifier cs = true) :
    (word cs).kind = .identifier := by
  obtain ⟨-, -, -, -, -, hword⟩ := eq_cons_of_isIdentifier h
  exact hword

/-- No character that ends a text goes on with a word or a number. -/
theorem Delimits.head {rest : List Char} (h : Delimits rest) {c : Char} (hc : c ∈ rest.head?) :
    continuesIdentifier c = false ∧ isDecimalDigit c = false ∧ c ≠ '.' := by
  have hmem := h c hc
  simp only [List.mem_cons, List.not_mem_nil, or_false] at hmem
  obtain rfl | rfl | rfl := hmem <;> decide

/-- The characters make one number, up to what ends every lexeme of data. -/
def IsNumeral (cs : List Char) : Prop :=
  ∃ c tail, cs = c :: tail ∧ isDecimalDigit c = true ∧
    ∀ rest, Delimits rest → Lexeme.scan c (tail ++ rest) = ⟨.number, tail, false, false⟩

namespace SpelledBy

variable {c : Char} {tail : List Char}

theorem word (hc : startsIdentifier c = true) (htail : ∀ d ∈ tail, continuesIdentifier d = true) :
    SpelledBy (c :: tail) [.word (c :: tail)] where
  before hrest h := Spells.word hc htail (fun _ hd => (hrest.head hd).1) h
  starts := ⟨c, tail, rfl, (Lexeme.only_startsIdentifier hc).2.1⟩
  whole := by
    have hknown : ∀ k ∈ TokenKind.identifier :: TokenKind.keywords.map (·.2), k ≠ .unknown := by
      decide
    exact List.forall_mem_singleton.2 ⟨hknown _ (Lexeme.ofWord_mem _), rfl⟩

/-- A number has a first digit, and all of its characters are digits. -/
theorem toDigits_eq_cons (n : Nat) : ∃ c cs, Nat.toDigits 10 n = c :: cs ∧
    isDecimalDigit c = true ∧ ∀ d ∈ cs, isDecimalDigit d = true := by
  obtain ⟨c, cs, hdigits⟩ := List.exists_cons_of_ne_nil (Nat.toDigits_ne_nil (n := n) (b := 10))
  have hall : ∀ d ∈ Nat.toDigits 10 n, isDecimalDigit d = true := fun d hd =>
    Nat.isDigit_of_mem_toDigits (by decide) (by decide) hd
  rw [hdigits] at hall
  exact ⟨c, cs, hdigits, List.forall_mem_cons.1 hall⟩

/-- A number is one token. -/
theorem numeral {cs : List Char} (h : IsNumeral cs) : SpelledBy cs [.numeral cs] := by
  obtain ⟨c, tail, rfl, hc, hscan⟩ := h
  refine ⟨fun hrest h => ?_, ⟨c, tail, rfl, (Lexeme.only_isDecimalDigit hc).2.1⟩,
    by simp [Spelling.numeral]⟩
  exact .token (hscan _ hrest) rfl h

/-- A number behind a minus is two tokens. -/
theorem negated {cs : List Char} (h : IsNumeral cs) :
    SpelledBy ('-' :: cs) [.sign .minus '-', .numeral cs] := by
  have hnumeral := numeral h
  obtain ⟨c, tail, hcs, hc, -⟩ := h
  refine ⟨fun {rest ws} hrest h => ?_, ⟨'-', _, rfl, rfl⟩,
    List.forall_mem_cons.2 ⟨by decide, hnumeral.whole⟩⟩
  have hminus : (cs ++ rest).head? ≠ some '-' := by
    rw [hcs]
    simpa using (Lexeme.only_isDecimalDigit hc).2.2.1
  exact .sign (by decide) rfl rfl (.inr hminus) (Lexeme.pairAt_eq_none _ (by decide))
    (hnumeral.before hrest h)

theorem isNumeral_toDigits (n : Nat) : IsNumeral (Nat.toDigits 10 n) := by
  obtain ⟨c, cs, hdigits, hc, hcs⟩ := toDigits_eq_cons n
  exact ⟨c, cs, hdigits, hc, fun rest hrest => Lexeme.scan_number hc hcs fun d hd => (hrest.head hd).2⟩

theorem number (n : Nat) : SpelledBy (Nat.toDigits 10 n) [.number n] :=
  numeral (isNumeral_toDigits n)

/-- The text of a whole number. -/
theorem toList_toString (n : Int) : (toString n).toList =
    if n < 0 then '-' :: Nat.toDigits 10 n.natAbs else Nat.toDigits 10 n.natAbs := by
  rw [Int.toString_eq_repr, Int.repr_eq_if]
  split
  next hn =>
    have habs : n.toNat = n.natAbs := by omega
    rw [if_neg (by omega), Nat.toList_repr, habs]
  next hn =>
    have habs : (-n).toNat = n.natAbs := by omega
    rw [if_pos (by omega), String.toList_append, Nat.toList_repr, habs]
    rfl

/-- A number with its sign. -/
theorem int (n : Int) : SpelledBy (toString n).toList (Datum.int n).scalarTokens := by
  unfold Datum.scalarTokens
  rw [toList_toString]
  dsimp only
  split
  next hn => exact negated (isNumeral_toDigits n.natAbs)
  next hn => exact number n.natAbs

/-- A string between its quotes. -/
theorem string {s : String} (hs : ∀ c ∈ s.toList, isLineBreak c = false) :
    SpelledBy (stringLiteral s).toList [.string s] := by
  have hliteral : (stringLiteral s).toList = '"' :: (s.toList.flatMap escaped ++ ['"']) := by
    unfold stringLiteral
    simp only [String.toList_append, String.toList_ofList]
    rfl
  rw [hliteral]
  refine ⟨fun {rest ws} hrest h => ?_, ⟨'"', _, rfl, rfl⟩, by simp [Spelling.string]⟩
  have hscan : Lexeme.scan '"' ((s.toList.flatMap escaped ++ ['"']) ++ rest) =
      ⟨.string, s.toList.flatMap escaped ++ ['"'], false, s.toList.any needsEscape⟩ := by
    rw [List.append_assoc]
    exact Lexeme.scan_string hs rest
  exact .token hscan rfl h

/-- **What is no container is spelled by its tokens.** -/
theorem scalar {d : Datum} (hd : d.Scalar) : SpelledBy d.scalarText.toList d.scalarTokens := by
  cases hd with
  | nil => exact word (by decide) (List.all_eq_true.1 (by decide))
  | bool b => cases b <;> exact word (by decide) (List.all_eq_true.1 (by decide))
  | @int n digits => exact int n
  | string oneLine => exact string oneLine

/-- Parts of a list, with commas between them. -/
theorem commas {α : Type} {f : α → List Char} {g : α → List Spelling} {xs : List α}
    (h : ∀ x ∈ xs, SpelledBy (f x) (g x)) {rest : List Char} {ws : List Spelling}
    (hrest : Delimits rest) (hspells : Spells rest ws) :
    Spells ([',', ' '].intercalate (xs.map f) ++ rest) (Spelling.commas (xs.map g) ++ ws) := by
  induction xs with
  | nil => exact hspells
  | cons x xs ih =>
    obtain ⟨hx, hxs⟩ := List.forall_mem_cons.1 h
    cases xs with
    | nil =>
      simpa using hx.before hrest hspells
    | cons y ys =>
      obtain ⟨c, cs, hy, hc⟩ := (hxs y List.mem_cons_self).starts
      have hothers := ih hxs
      -- the blank behind the comma is all there is between the two
      have hblank : ∀ d ∈ ([',', ' '].intercalate ((y :: ys).map f) ++ rest).head?,
          isBlank d = false := by
        rw [List.map_cons, hy]
        cases ys <;> simpa using hc
      have hcomma := Spells.punctuation (c := ',') (k := .comma) (by decide) rfl
        (Spells.space hblank hothers)
      have hall := hx.before (by simp [Delimits]) hcomma
      simpa [List.intercalate_cons_cons] using hall

/-- A list between its brackets. -/
theorem enclosed {α : Type} {f : α → String} {g : α → List Spelling} {xs : List α} {l r : Char}
    {left right : TokenKind} (hl : l ∈ ['[', '\x7b']) (hleft : TokenKind.ofSign l = some left)
    (hr : r ∈ [']', '\x7d']) (hright : TokenKind.ofSign r = some right)
    (hknown : left ≠ .unknown ∧ right ≠ .unknown)
    (h : ∀ x ∈ xs, SpelledBy (f x).toList (g x)) :
    SpelledBy (Heap.enclosed (String.ofList [l]) (String.ofList [r]) (xs.map f)).toList
      (.sign left l :: (Spelling.commas (xs.map g) ++ [.sign right r])) := by
  have hopens : ['[', '\x7b'] ⊆ [',', '[', ']', '\x7b', '\x7d'] := by simp
  have hcloses : [']', '\x7d'] ⊆ [',', '[', ']', '\x7b', '\x7d'] := by simp
  have hdelimits : ∀ rest, Delimits (r :: rest) := by
    have hends : [']', '\x7d'] ⊆ [',', ']', '\x7d'] := by simp
    rintro rest _ ⟨⟩
    exact hends hr
  have hstarts : isBlank l = false := by
    simp only [List.mem_cons, List.not_mem_nil, or_false] at hl
    obtain rfl | rfl := hl <;> rfl
  have htext : (Heap.enclosed (String.ofList [l]) (String.ofList [r]) (xs.map f)).toList =
      l :: ([',', ' '].intercalate (xs.map fun x => (f x).toList) ++ [r]) := by
    simp [Heap.enclosed, String.toList_intercalate, Function.comp_def]
  rw [htext]
  refine ⟨fun {rest ws} _ hspells => ?_, ⟨l, _, rfl, hstarts⟩, ?_⟩
  · have hend := Spells.punctuation (hcloses hr) hright hspells
    have hlist := commas (f := fun x => (f x).toList) h (hdelimits rest) hend
    simpa using Spells.punctuation (hopens hl) hleft hlist
  · refine List.forall_mem_cons.2 ⟨⟨hknown.1, rfl⟩, List.forall_mem_append.2 ⟨?_, ?_⟩⟩
    · refine Spelling.forall_mem_commas (by decide) fun us hus => ?_
      obtain ⟨x, hx, rfl⟩ := List.mem_map.1 hus
      exact (h x hx).whole
    · exact List.forall_mem_singleton.2 ⟨hknown.2, rfl⟩

/-- A key before the blank that follows it. -/
theorem before_key {k : Key} (hk : k.datum.Scalar)
    (hname : ∀ name ∈ k.name?, isIdentifier name.toList = true) {rest : List Char}
    {ws : List Spelling} (h : Spells (' ' :: rest) ws) :
    Spells (k.text.toList ++ ' ' :: rest) (k.tokens ++ ws) := by
  unfold Key.text Key.tokens
  cases hn : k.name? with
  | some name =>
    obtain ⟨c, cs, hcs, hc, htail, -⟩ := eq_cons_of_isIdentifier (hname name hn)
    dsimp only
    rw [hcs]
    exact .word hc htail (by simp; decide) h
  | none =>
    have hend : Spells (']' :: ' ' :: rest) (.sign .rightBracket ']' :: ws) :=
      .punctuation (by decide) rfl h
    have hvalue := (scalar hk).before (by simp [Delimits]) hend
    simpa using Spells.punctuation (c := '[') (k := .leftBracket) (by decide) rfl hvalue

/-- An entry of a table. -/
theorem entry {k : Key} {d : Datum} (hk : k.datum.Scalar)
    (hname : ∀ name ∈ k.name?, isIdentifier name.toList = true)
    (hd : SpelledBy d.text.toList d.tokens) :
    SpelledBy (Datum.textEntry (k, d)).toList (Datum.tokensEntry (k, d)) := by
  have htext : (Datum.textEntry (k, d)).toList =
      k.text.toList ++ ' ' :: '=' :: ' ' :: d.text.toList := by
    simp [Datum.textEntry]
  rw [htext, Datum.tokensEntry_eq]
  refine ⟨fun {rest ws} hrest h => ?_, ?_, ?_⟩
  · obtain ⟨c, cs, hcs, hc⟩ := hd.starts
    have hvalue := Spells.space (by simp [hcs, hc]) (hd.before hrest h)
    have hequal : Spells ('=' :: ' ' :: (d.text.toList ++ rest))
        (.sign .equal '=' :: (d.tokens ++ ws)) :=
      .sign (by decide) rfl rfl (.inl (by decide)) rfl hvalue
    simpa using before_key hk hname (Spells.space (by simp; decide) hequal)
  · unfold Key.text
    cases hn : k.name? with
    | some name =>
      obtain ⟨c, cs, hcs, hc, -⟩ := eq_cons_of_isIdentifier (hname name hn)
      exact ⟨c, _, by rw [hcs]; rfl, (Lexeme.only_startsIdentifier hc).2.1⟩
    | none =>
      exact ⟨'[', k.datum.scalarText.toList ++ ']' :: ' ' :: '=' :: ' ' :: d.text.toList,
        by simp, rfl⟩
  · refine List.forall_mem_append.2 ⟨?_, List.forall_mem_cons.2 ⟨by decide, hd.whole⟩⟩
    unfold Key.tokens
    cases hn : k.name? with
    | some name =>
      obtain ⟨c, cs, hcs, hc, htail, -⟩ := eq_cons_of_isIdentifier (hname name hn)
      dsimp only
      rw [hcs]
      exact (word hc htail).whole
    | none =>
      refine List.forall_mem_cons.2 ⟨by decide, ?_⟩
      exact List.forall_mem_append.2 ⟨(scalar hk).whole, by decide⟩

end SpelledBy

namespace Datum

/-- **Data is spelled by its tokens.** -/
theorem Writable.spelledBy {d : Datum} (h : d.Writable) : SpelledBy d.text.toList d.tokens := by
  induction h with
  | scalar hd =>
    rw [hd.text_eq, hd.tokens_eq]
    exact .scalar hd
  | vector items ih =>
    rw [text, tokens, textAll_eq_map, tokensAll_eq_map]
    exact .enclosed (by decide) rfl (by decide) rfl (by decide) ih
  | table keys names distinct present values ih =>
    rw [text, tokens, textEntries_eq_map, tokensEntries_eq_map]
    exact .enclosed (by decide) rfl (by decide) rfl (by decide)
      fun e he => .entry (keys e he) (names e he) (ih e he)

theorem Scalar.formatWithin_eq {d : Datum} (hd : d.Scalar) {heap : Heap} {v : Value}
    (hv : d.Is heap v) (n : Nat) : heap.formatWithin n v = .ok d.scalarText := by
  cases hd with
  | @int i digits =>
    cases hv
    have htext : (Number.int i).text? = some (toString i) := by
      rw [Number.text?, Decimal.ofInt?, if_pos digits]
    change heap.formatWithin n (.number (.int i)) = _
    cases n <;> rw [Heap.formatWithin, htext] <;> rfl
  | nil | bool | string => cases hv; cases n <;> rfl

/-- What is written for an entry of a table. -/
def formatEntry (heap : Heap) (n : Nat) (e : Value × Value) : Except Crash String := do
  let key ← match e.1 with
    | .string s => pure (if Text.isWord s.toList then s else "[" ++ stringLiteral s ++ "]")
    | k => do pure ("[" ++ (← heap.formatWithin n k) ++ "]")
  return key ++ " = " ++ (← heap.formatWithin n e.2)

theorem formatWithin_table (heap : Heap) (n : Nat) (a : Address) :
    heap.formatWithin (n + 1) (.table a) =
      (do return Heap.enclosed "\x7b" "\x7d" (← (heap.table a).entries.mapM (formatEntry heap n))) :=
  rfl

theorem formatEntry_eq {k : Key} {d : Datum} (hk : k.datum.Scalar) {heap : Heap} {n : Nat}
    {v : Value} (hv : heap.formatWithin n v = .ok d.text) :
    formatEntry heap n (k.value, v) = .ok (textEntry (k, d)) := by
  have hkey := hk.formatWithin_eq (is_datum heap k) n
  unfold formatEntry
  rw [textEntry, Key.text]
  cases k with
  | string s =>
    unfold Key.name?
    dsimp only [Key.value]
    rw [hv]
    split <;> rfl
  | bool b =>
    dsimp only [Key.value] at hkey ⊢
    rw [hkey, hv]
    rfl
  | int i =>
    dsimp only [Key.value, Value.int] at hkey ⊢
    rw [hkey, hv]
    rfl

/-- A step for each element gives a list, where each gives an element. -/
theorem mapM_eq_ok {α β γ ε : Type} {f : β → Except ε γ} {g : α → γ} {xs : List α} {ys : List β}
    (h : List.Forall₂ (fun x y => f y = .ok (g x)) xs ys) : ys.mapM f = .ok (xs.map g) := by
  induction h with
  | nil => rfl
  | cons hxy _ ih =>
    rw [List.mapM_cons, hxy, ih]
    rfl

/-- **A value that is data has its text**, in every heap. -/
theorem Writable.formatWithin_eq {d : Datum} (h : d.Writable) {heap : Heap} {v : Value}
    (hv : d.Is heap v) {n : Nat} (hn : d.levels ≤ n) : heap.formatWithin n v = .ok d.text := by
  induction h generalizing v n with
  | scalar hd =>
    rw [hd.text_eq]
    exact hd.formatWithin_eq hv n
  | @vector ds items ih =>
    obtain ⟨n, rfl⟩ := Nat.exists_eq_succ_of_ne_zero (Nat.ne_zero_of_lt hn)
    cases hv with
    | @vector _ a vs stored hvs =>
      have hlevels : ∀ d ∈ ds, d.levels ≤ n := fun d hd =>
        Nat.le_trans (levels_le_levelsAll hd) (Nat.le_of_succ_le_succ hn)
      have htexts : vs.mapM (heap.formatWithin n) = .ok (ds.map text) :=
        mapM_eq_ok (forall₂_imp_of_mem hvs fun d hd _ hv => ih d hd hv (hlevels d hd))
      have hread : heap.vector a = vs := by rw [Heap.vector, stored, Option.getD_some]
      rw [Heap.formatWithin, hread, htexts, text, textAll_eq_map]
      rfl
  | @table es keys names distinct present values ih =>
    obtain ⟨n, rfl⟩ := Nat.exists_eq_succ_of_ne_zero (Nat.ne_zero_of_lt hn)
    cases hv with
    | @table _ a t stored hkeys hvalues =>
      have hlevels : ∀ e ∈ es, e.2.levels ≤ n := fun e he =>
        Nat.le_trans (levels_le_levelsEntries he) (Nat.le_of_succ_le_succ hn)
      have hread : heap.table a = t := by rw [Heap.table, stored, Option.getD_some]
      have htexts : t.entries.mapM (formatEntry heap n) = .ok (es.map textEntry) := by
        refine mapM_eq_ok (forall₂_imp_of_mem (is_entries hkeys hvalues) fun e he p hp => ?_)
        obtain ⟨k, d⟩ := e
        obtain ⟨key, v⟩ := p
        obtain ⟨rfl, hv⟩ := hp
        exact formatEntry_eq (keys _ he) (ih _ he hv (hlevels _ he))
      rw [formatWithin_table, hread, htexts, text, textEntries_eq_map]
      rfl

/-- The text of a value that is data. -/
theorem Writable.format_eq {d : Datum} (h : d.Writable) {heap : Heap} {v : Value}
    (hv : d.Is heap v) : heap.format v = .ok d.text :=
  h.formatWithin_eq hv (Nat.le_succ_of_le hv.levels_le)

end Datum

end CommandScript
