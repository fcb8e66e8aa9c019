import CommandScript.Tree.Outline
import CommandScript.Proofs.Reading
/-!
# CommandScript — what the parser builds

`Built c os d` says that on the way from `c` to `d` the parser built the outlines `os`,
and how: each token is read and kept, or it is a semicolon between statements, or it
stands behind the statement that leaves a block. Each part spans what was read for it,
and each part that lacks something comes with an issue.

The relation follows the tree and not the rules of the grammar. What holds of every
tree that is read — that no token is lost, that a tree without issues lacks nothing — is
proved from it by induction, and the rules are gone through only once, to show that they
build (`CommandScript.Proofs.Phrases`).
-/

namespace CommandScript

/-! ## Parts that lack nothing -/

namespace Brackets

/-- The closing token is there. -/
def isClosed (b : Brackets) : Bool := b.right.isSome

end Brackets

/-- Every item of the list has a value. -/
def Separated.isFull {α : Type} (items : Separated α) : Bool := items.all (·.value.isSome)

namespace Condition

/-- The condition is there, and so is the closing parenthesis. -/
def isWhole (c : Condition) : Bool := c.brackets.isClosed && c.inner.isSome

end Condition

namespace Braced

/-- The closing brace is there. -/
def isClosed (b : Braced) : Bool := b.brackets.isClosed

end Braced

namespace Expression

/-- The operands are there, the brackets are closed, and items have values. Parentheses
may stand around nothing. -/
def isWhole : Expression → Bool
  | binary _ _ right _ => right.isSome
  | unary _ value _ => value.isSome
  | vector b items _ => b.isClosed && Separated.isFull items
  | table b fields _ => b.isClosed && Separated.isFull fields
  | group b _ _ => b.isClosed
  | nil _ | boolean _ | number _ | string _ | lambda _ | var _ | call _ => true
  | skipped _ => false

end Expression

namespace TableField

def isWhole : TableField → Bool
  | named _ _ value _ => value.isSome
  | keyed b key equals value _ => b.isClosed && key.isSome && equals.isSome && value.isSome
  | positional .. => true

end TableField

namespace FunctionBody

/-- The bars are closed and the parameters have names; there may be no block, but one that
is there is closed. -/
def isWhole : FunctionBody → Bool
  | mk bars parameters block _ =>
    bars.isClosed && Separated.isFull parameters && block.all Braced.isClosed

end FunctionBody

namespace VarRoot

def isWhole : VarRoot → Bool
  | bare _ => true
  | named _ name _ => name.isSome
  | computed _ b inner _ => b.isClosed && inner.isSome

/-- The token that it begins with. -/
def head : VarRoot → Token
  | bare t | named t _ _ | computed t _ _ _ => t

end VarRoot

namespace VarSuffix

def isWhole : VarSuffix → Bool
  | field _ name _ => name.isSome
  | index _ b inner _ => b.isClosed && inner.isSome

end VarSuffix

namespace Statement

/-- What the statement itself holds is there; the branches of an `if` answer for
themselves. -/
def isWhole : Statement → Bool
  | command _ | call _ | expression _ | conditional .. => true
  | assign _ _ value _ => value.isSome
  | whileLoop _ condition block _ => condition.any Condition.isWhole && block.any Braced.isClosed
  | forLoop _ subject body _ => subject.any Condition.isWhole && body.isSome
  | skipped _ => false

end Statement

namespace LastStatement

/-- Behind `return` may stand nothing. -/
def isWhole : LastStatement → Bool
  | «continue» _ | «break» _ => true
  | «return» _ values _ => Separated.isFull values

end LastStatement

namespace Token

variable {ts us : List Token} {start stop : Nat} {spans : List Span}

/-- Where one token stops the next one starts, on the same line. -/
def Adjoin (ts : List Token) (stop start : Nat) : Prop :=
  ∃ t u, [t, u] <:+: ts ∧ t.span.stop = stop ∧ u.span.start = start ∧
    u.flags.lineBreakBefore = false

/-- Spans follow one another on one line, from where a token stops to where another one does. -/
def InLine (ts : List Token) : Nat → List Span → Nat → Prop
  | start, [], stop => start = stop ∧ ∃ t ∈ ts, t.span.stop = stop
  | start, s :: rest, stop => Adjoin ts start s.start ∧ InLine ts s.stop rest stop

theorem Adjoin.mono (h : Adjoin ts stop start) (hts : ts <:+: us) : Adjoin us stop start :=
  let ⟨t, u, hnext, hplaces⟩ := h
  ⟨t, u, hnext.trans hts, hplaces⟩

theorem InLine.mono (h : InLine ts start spans stop) (hts : ts <:+: us) :
    InLine us start spans stop := by
  induction spans generalizing start with
  | nil =>
    obtain ⟨hstop, t, ht, hplace⟩ := h
    exact ⟨hstop, t, hts.subset ht, hplace⟩
  | cons s rest ih => exact ⟨h.1.mono hts, ih h.2⟩

end Token

namespace Node

/-- The part itself lacks nothing; what is in it is not looked at. -/
def isWhole : Node → Bool
  | block _ | var _ | command _ | elseIf _ => true
  | expression e => e.isWhole
  | field f => f.isWhole
  | body b => b.isWhole
  | root r => r.isWhole
  | suffix s => s.isWhole
  | call c => c.command.isSome
  | skipped _ => false
  | statement s => s.isWhole
  | last l => l.isWhole
  | branch b => b.condition.any Condition.isWhole && b.block.any Braced.isClosed
  | otherwise o => o.block.any Braced.isClosed

def isBlock : Node → Bool
  | block _ => true
  | _ => false

/-- What stands between brackets spans what the brackets and what is in them say. A chain begins
with its first token. The arguments of a command follow what is called on its line, and the
command ends with them. -/
def Coheres (read : List Token) : Node → Prop
  | expression (.vector b items s) => s = b.listSpan items
  | expression (.table b fields s) => s = b.listSpan fields
  | expression (.group b inner s) => s = b.expressionSpan inner
  | var v => v.span.start = v.root.head.span.start
  | command k => Token.InLine read k.callee.span.stop (k.arguments.map (·.span)) k.span.stop
  | _ => True

theorem Coheres.mono {p : Node} {ts us : List Token} (h : p.Coheres ts) (hts : ts <:+: us) :
    p.Coheres us := by
  unfold Coheres at h ⊢
  split at h
  case h_5 => exact h.mono hts
  all_goals exact h

/-- A branch of which neither the condition nor the block is there. -/
def isBare : Node → Bool
  | branch (.mk none none _) => true
  | _ => false

end Node

namespace Outline

theorem tokensOfAll_append (os os' : List Outline) :
    tokensOfAll (os ++ os') = tokensOfAll os ++ tokensOfAll os' := by
  induction os with
  | nil => rfl
  | cons o rest ih => rw [List.cons_append, tokensOfAll, tokensOfAll, ih, List.append_assoc]

theorem partsOfAll_append (os os' : List Outline) :
    partsOfAll (os ++ os') = partsOfAll os ++ partsOfAll os' := by
  induction os with
  | nil => rfl
  | cons o rest ih => rw [List.cons_append, partsOfAll, partsOfAll, ih, List.append_assoc]

theorem tokensOfAll_map_token (ts : List Token) : tokensOfAll (ts.map token) = ts := by
  induction ts with
  | nil => rfl
  | cons t rest ih => rw [List.map_cons, tokensOfAll, tokens, ih, List.singleton_append]

theorem tokensOfAll_singleton (o : Outline) : tokensOfAll [o] = o.tokens := by
  rw [tokensOfAll, tokensOfAll, List.append_nil]

theorem partsOfAll_singleton (o : Outline) : partsOfAll [o] = o.parts := by
  rw [partsOfAll, partsOfAll, List.append_nil]

end Outline

/-! ## Where reading stops -/

/-- From one cursor to another what ends with a span was read, or nothing. -/
def Cursor.StopsAt (c : Cursor) (s : Option Span) (d : Cursor) : Prop :=
  d.lastStop = (s.map (·.stop)).getD c.lastStop

namespace Cursor.StopsAt

variable {c c' d : Cursor} {t : Token} {s : Option Span}

theorem nothing (h : c.Advanced [] d) : c.StopsAt none d := by
  rw [StopsAt, lastStop, h.last_nil]
  rfl

theorem token (h : c.Advanced [t] d) : c.StopsAt (some t.span) d := h.lastStop_one

/-- What was read ends where it is said to end, if it begins before that. -/
theorem spanFrom {o : Nat} (h : o ≤ d.lastStop) : c.StopsAt (some (d.spanFrom o)) d :=
  (Nat.max_eq_right h).symm

/-- To find an issue changes nothing. -/
theorem before (h : c.StopsAt s c') (h' : c'.Advanced [] d) : c.StopsAt s d := by
  rw [StopsAt, lastStop, h'.last_nil]
  exact h

/-- From an opening token on, what was read ends with the closing token, or with what
stands behind the opening one, or with that. -/
theorem spanFrom_eq_spanWith {c₁ c₂ : Cursor} {left : Token} {right : Option Token}
    (hc : c.Sound) (hleft : c.Advanced [left] c₁) (hinner : c₁.StopsAt s c₂)
    (hright : c₂.StopsAt (right.map (·.span)) d) (hmoved : ∃ ts, c₁.Moved ts d) :
    d.spanFrom left.span.start = Brackets.spanWith ⟨left, right⟩ s := by
  obtain ⟨ts, hmoved⟩ := hmoved
  have hstart := (hc.offset_lt hleft.toMoved).1
  have hlength := hmoved.length_le
  have hread := hleft.length_succ
  have hle := hc.offset_le_lastStop (hleft.toMoved.trans hmoved) (by omega)
  rw [Cursor.spanFrom, Nat.max_eq_right (hstart ▸ hle), hright, hinner, hleft.lastStop_one]
  cases right <;> rfl

end Cursor.StopsAt

namespace Cursor

variable {c d : Cursor} {ts : List Token}

/-- The token read last and those that are still to be read. -/
def trail (c : Cursor) : List Token := c.last.toList ++ c.upcoming

theorem Moved.trail (h : c.Moved ts d) : d.trail <:+ c.trail := by
  unfold Cursor.trail
  rw [h.upcoming, h.last]
  obtain rfl | ⟨ts, t, rfl⟩ := List.eq_nil_or_concat ts
  · exact List.suffix_rfl
  · exact ⟨c.last.toList ++ ts, by simp⟩

end Cursor

/-! ## The relation -/

open Outline

/-- What a block spans that was read from one cursor to another: what was read, or else,
where nothing had been read before and nothing is left, the whole text. -/
def Cursor.BlockSpan (d c : Cursor) (s : Span) : Prop :=
  s = d.spanFrom c.lastStop ∨ c.lastStop = 0 ∧ d.upcoming = [] ∧ s = ⟨0, c.ending.span.stop⟩

/-- The statement that leaves a block is read from one cursor to another. To read `break` or
`continue` finds no issue. -/
structure Cursor.Leaves (d : Cursor) (l : LastStatement) (e : Cursor) : Prop where
  span : l.span = e.spanFrom d.offset
  shorter : e.upcoming.length < d.upcoming.length
  quiet : l.isReturn = false → e.found = d.found

/-- Where tokens are passed over that are not all semicolons, something is told. -/
theorem Cursor.Reports.told {e f : Cursor} {ts : List Token} (h : e.Reports ts f)
    (hmoved : e.Moved ts f) : f.Told ∨ ∀ t ∈ ts, t.kind = .semicolon := by
  cases hrun : Token.pastSemicolons ts with
  | nil => exact .inr (Token.kind_of_pastSemicolons hrun)
  | cons t rest =>
    refine .inl (.inl ?_)
    obtain hfound | ⟨i, hi, -⟩ := h t (by rw [hrun]; rfl) _
      (by rw [hrun]; exact List.getLast?_eq_some_getLast (List.cons_ne_nil t rest))
    · exact List.ne_nil_of_mem hfound
    · exact List.ne_nil_of_mem (hmoved.found.mem hi)

/-- Outlines begin with the token that one cursor is at and end with the one that another
cursor has read last. -/
structure Cursor.Fits (c : Cursor) (os : List Outline) (d : Cursor) : Prop where
  first : ∃ t, (tokensOfAll os).head? = some t ∧ t.span.start = c.offset
  last : d.last = (tokensOfAll os).getLast?

/-- Of tokens that are there, one is the last. -/
theorem Token.getLast?_or {ts : List Token} {t : Token} (h : ts.head? = some t)
    (before : Option Token) : ts.getLast?.or before = ts.getLast? :=
  Option.or_of_isSome (List.getLast?_isSome.2 (List.ne_nil_of_mem (List.mem_of_head? h)))

namespace Cursor.Fits

variable {c d : Cursor} {os : List Outline}

/-- A part has the tokens of its children. -/
theorem node {p : Node} (h : c.Fits os d) : c.Fits [.node p os] d := by
  have htokens : tokensOfAll [.node p os] = tokensOfAll os := tokensOfAll_singleton _
  exact ⟨htokens ▸ h.first, htokens ▸ h.last⟩

theorem last_or (h : c.Fits os d) : d.last = (tokensOfAll os).getLast?.or c.last := by
  obtain ⟨t, ht, -⟩ := h.first
  rw [h.last, Token.getLast?_or ht]

end Cursor.Fits

/-- **On the way from one cursor to another the parser built the outlines.** -/
inductive Built : Cursor → List Outline → Cursor → Prop
  /-- Nothing is built of semicolons, and nothing is read to find an issue. -/
  | passed {c d : Cursor} {ts : List Token} :
      c.Advanced ts d → (∀ t ∈ ts, t.kind = .semicolon) → Built c [] d
  | token {c d : Cursor} {t : Token} : c.Advanced [t] d → Built c [.token t] d
  | append {c d e : Cursor} {os os' : List Outline} :
      Built c os d → Built d os' e → Built c (os ++ os') e
  /-- A part spans what was read for it, which is nothing only for a bare branch. One that
  lacks something comes with an issue, of the grammar or about the characters of its
  tokens. Without an issue of the grammar, its tokens reach from end to end of what was
  read. What stands in it hangs together. -/
  | node {c d : Cursor} {os : List Outline} {p : Node} :
      Built c os d → p.span = d.spanFrom c.offset →
      (p.isWhole = true ∨ d.Told ∨ ∃ t ∈ tokensOfAll os, t.kind = .unknown) →
      (d.upcoming.length < c.upcoming.length ∨ p.isBare = true) → p.isBlock = false →
      (d.Told ∨ c.Fits os d) → p.Coheres c.trail → Built c [.node p os] d
  /-- A block begins behind its brace. The block of a whole text begins and ends where the
  text does. -/
  | block {c d : Cursor} {os : List Outline} {b : Block} :
      Built c os d → b.last = none → d.BlockSpan c b.span →
      Built c [.node (.block b) os] d
  /-- Behind the statement that leaves a block, tokens are passed over, and that is
  reported. -/
  | left {c d e f : Cursor} {os os' : List Outline} {b : Block} {l : LastStatement}
      {ts : List Token} :
      Built c os d → Built d os' e → b.last = some l → d.Leaves l e →
      e.Advanced ts f → e.Reports ts f → f.BlockSpan c b.span →
      Built c [.node (.block b) (os ++ os')] f

namespace Built

variable {c d e : Cursor} {t : Token} {ts : List Token} {os os' : List Outline} {o : Outline}
variable {p : Node}

theorem nothing (h : c.Advanced [] d) : Built c [] d :=
  .passed h fun _ ht => absurd ht List.not_mem_nil

theorem refl (c : Cursor) : Built c [] c := .nothing (.refl c)

theorem consToken (h : c.Advanced [t] d) (h' : Built d os e) : Built c (.token t :: os) e :=
  (Built.token h).append h'

theorem cons (h : Built c [o] d) (h' : Built d os e) : Built c (o :: os) e := h.append h'

/-- Nothing is built at the end. -/
theorem before (h : Built c os d) (h' : Built d [] e) : Built c os e := by
  simpa using h.append h'

/-- Nothing is built at the beginning. -/
theorem after (h : Built c [] d) (h' : Built d os e) : Built c os e := h.append h'

theorem tokens (hc : c.Sound) (h : c.Advanced ts d) : Built c (ts.map .token) d := by
  induction ts generalizing c with
  | nil => exact .nothing h
  | cons t rest ih =>
    -- one token is read, and then the others
    let c' : Cursor := { c with upcoming := rest ++ d.upcoming, last := some t }
    have hfirst : c.Moved [t] c' := ⟨h.upcoming, rfl, rfl, List.suffix_rfl, rfl, id, .inl⟩
    have hrest : c'.Moved rest d := by
      refine ⟨rfl, ?_, h.ending, h.found, h.stalled, h.deep, h.deepFound⟩
      rw [h.last, List.getLast?_cons]
      cases hlast : rest.getLast? <;> rfl
    exact .consToken (.of_found_eq hfirst rfl) (ih (hfirst.sound hc) ⟨hrest, fun _ => h.early hc⟩)

/-- What is built, is built of tokens that were read. -/
theorem advanced (h : Built c os d) : ∃ ts, c.Advanced ts d := by
  induction h with
  | passed h _ => exact ⟨_, h⟩
  | token h => exact ⟨_, h⟩
  | append _ _ ih ih' =>
    obtain ⟨ts, h⟩ := ih
    obtain ⟨us, h'⟩ := ih'
    exact ⟨ts ++ us, h.trans h'⟩
  | node _ _ _ _ _ _ _ ih => exact ih
  | block _ _ _ ih => exact ih
  | left _ _ _ _ hpassed _ _ ih ih' =>
    obtain ⟨ts, h⟩ := ih
    obtain ⟨us, h'⟩ := ih'
    exact ⟨_, h.trans (h'.trans hpassed)⟩

theorem moved (h : Built c os d) : ∃ ts, c.Moved ts d := h.advanced.imp fun _ => (·.toMoved)

theorem length_le (h : Built c os d) : d.upcoming.length ≤ c.upcoming.length := by
  obtain ⟨ts, h⟩ := h.moved
  exact h.length_le

/-- Every token that is built of was read. -/
theorem length_tokens_add_le (h : Built c os d) :
    (tokensOfAll os).length + d.upcoming.length ≤ c.upcoming.length := by
  induction h with
  | passed h _ => simpa [tokensOfAll] using h.length_le
  | token h =>
    simpa [tokensOfAll, Outline.tokens, Nat.add_comm] using Nat.le_of_eq h.length_succ
  | append _ _ ih ih' =>
    rw [tokensOfAll_append, List.length_append]
    omega
  | node _ _ _ _ _ _ _ ih => rwa [tokensOfAll_singleton, Outline.tokens]
  | block _ _ _ ih => rwa [tokensOfAll_singleton, Outline.tokens]
  | left _ _ _ _ hpassed _ _ ih ih' =>
    have hlength := hpassed.length_le
    rw [tokensOfAll_singleton, Outline.tokens, tokensOfAll_append, List.length_append]
    omega

/-- Where fewer tokens are left, the cursor's place has moved forward. -/
theorem offset_lt (hc : c.Sound) (h : Built c os d)
    (hlt : d.upcoming.length < c.upcoming.length) : c.offset < d.offset := by
  obtain ⟨ts, hmoved⟩ := h.moved
  refine hc.offset_lt_offset hmoved ?_
  rintro rfl
  have hlength := hmoved.length_add
  rw [List.length_nil] at hlength
  omega

theorem told (h : Built c os d) (hc : c.Told) : d.Told := by
  obtain ⟨ts, h⟩ := h.moved
  exact h.told hc

end Built

/-! ## Nothing read behind what is built -/

/-- The parser built the outlines and read nothing behind their last token, or something was
reported. -/
structure Flush (c : Cursor) (os : List Outline) (d : Cursor) : Prop where
  built : Built c os d
  last : d.Told ∨ d.last = (tokensOfAll os).getLast?.or c.last

namespace Flush

variable {c d e : Cursor} {t : Token} {os os' : List Outline} {o : Outline}

theorem nothing (h : c.Advanced [] d) : Flush c [] d := ⟨.nothing h, .inr h.last_nil⟩

theorem refl (c : Cursor) : Flush c [] c := .nothing (.refl c)

theorem token (h : c.Advanced [t] d) : Flush c [.token t] d := ⟨.token h, .inr h.last⟩

/-- Where something was reported, it does not matter what was read last. -/
theorem of_told (h : Built c os d) (htold : d.Told) : Flush c os d := ⟨h, .inl htold⟩

/-- Whatever was read before a token, nothing was read behind it. -/
theorem closed (h : Built c os d) (h' : d.Advanced [t] e) : Flush c (os ++ [.token t]) e where
  built := h.append (.token h')
  last := .inr (by simp [h'.last, tokensOfAll_append, tokensOfAll, Outline.tokens])

theorem append (h : Flush c os d) (h' : Flush d os' e) : Flush c (os ++ os') e where
  built := h.built.append h'.built
  last := by
    obtain htold | hlast := h.last
    · exact .inl (h'.built.told htold)
    refine h'.last.imp_right fun hlast' => ?_
    rw [hlast', hlast, tokensOfAll_append, List.getLast?_append, Option.or_assoc]

theorem consToken (h : c.Advanced [t] d) (h' : Flush d os e) : Flush c (.token t :: os) e :=
  (Flush.token h).append h'

theorem cons (h : Flush c [o] d) (h' : Flush d os e) : Flush c (o :: os) e := h.append h'

/-- Nothing is built at the end. -/
theorem before (h : Flush c os d) (h' : Flush d [] e) : Flush c os e := by
  simpa using h.append h'

/-- Nothing is built at the beginning. -/
theorem after (h : Flush c [] d) (h' : Flush d os e) : Flush c os e := h.append h'

theorem length_le (h : Flush c os d) : d.upcoming.length ≤ c.upcoming.length := h.built.length_le

theorem told (h : Flush c os d) (hc : c.Told) : d.Told := h.built.told hc

/-- What begins with the token that the cursor is at, reaches from end to end. -/
theorem fits (h : Flush c os d) (hfirst : (tokensOfAll os).head? = some t)
    (hstart : t.span.start = c.offset) : d.Told ∨ c.Fits os d := by
  refine h.last.imp_right fun hlast => ⟨⟨t, hfirst, hstart⟩, ?_⟩
  rw [hlast, Token.getLast?_or hfirst]

/-- With what is built behind it, what reaches from end to end still does. -/
theorem fits_append (h : Flush c os d) (hfits : d.Told ∨ c.Fits os d) (h' : Flush d os' e) :
    e.Told ∨ c.Fits (os ++ os') e := by
  obtain htold | ⟨⟨t, ht, hstart⟩, -⟩ := hfits
  · exact .inl (h'.told htold)
  refine (h.append h').fits ?_ hstart
  rw [tokensOfAll_append, List.head?_append, ht, Option.some_or]

end Flush

/-- It is so, or something was reported. -/
def Excused (b : Bool) (c : Cursor) : Prop := b = true ∨ c.Told

namespace Excused

variable {a b : Bool} {c d : Cursor} {os : List Outline}

theorem of_true (c : Cursor) : Excused true c := .inl rfl

theorem and (ha : Excused a c) (hb : Excused b c) : Excused (a && b) c := by
  obtain rfl | htold := ha
  · simpa using hb
  · exact .inr htold

/-- What was reported, stays reported. -/
theorem along (h : Excused b c) (hd : Flush c os d) : Excused b d := h.imp_right hd.told

end Excused

/-! ## One part at a time -/

/-- On the way from one cursor to another the parser built one part or token, which spans
all that was read. Its own tokens do so too, or something was reported. -/
structure Grown (c : Cursor) (o : Outline) (d : Cursor) : Prop where
  built : Built c [o] d
  span : o.span = d.spanFrom c.offset
  shorter : d.upcoming.length < c.upcoming.length
  fits : d.Told ∨ c.Fits [o] d

namespace Grown

variable {c c' d : Cursor} {t : Token} {os : List Outline} {o : Outline} {p : Node}

/-- Nothing was read behind its last token. -/
theorem flush (h : Grown c o d) : Flush c [o] d where
  built := h.built
  last := h.fits.imp_right (·.last_or)

/-- It ends with the token read last. -/
theorem stop_eq (h : Grown c o d) (hc : c.Sound) : o.span.stop = d.lastStop := by
  obtain ⟨ts, hmoved⟩ := h.built.moved
  rw [h.span]
  exact Nat.max_eq_right (hc.offset_le_lastStop hmoved h.shorter)

theorem last_ne_none (h : Grown c o d) : d.last ≠ none := by
  obtain ⟨ts, hmoved⟩ := h.built.moved
  have hlength := hmoved.length_add
  have hshorter := h.shorter
  obtain rfl | ⟨ts, t, rfl⟩ := List.eq_nil_or_concat ts
  · rw [List.length_nil] at hlength
    omega
  · simp [hmoved.last]

/-- With what is built behind it, it reaches from end to end. -/
theorem fits_cons (h : Grown c o c') (hos : Flush c' os d) : d.Told ∨ c.Fits (o :: os) d :=
  h.flush.fits_append h.fits hos

theorem token (hc : c.Sound) (h : c.Advanced [t] d) : Grown c (.token t) d :=
  ⟨.token h, hc.span_eq h.toMoved, Nat.lt_of_succ_le (Nat.le_of_eq h.length_succ),
    (Flush.token h).fits rfl (hc.offset_lt h.toMoved).1.symm⟩

/-- To find an issue changes nothing. -/
theorem before (h : Grown c o c') (h' : c'.Advanced [] d) : Grown c o d := by
  have hstop : d.spanFrom c.offset = c'.spanFrom c.offset := by
    rw [Cursor.spanFrom, Cursor.spanFrom, Cursor.lastStop, Cursor.lastStop, h'.last_nil]
  have hshorter := h.shorter
  have hlength := h'.length_le
  exact ⟨h.built.before (.nothing h'), h.span.trans hstop.symm, by omega,
    h.fits_cons (.nothing h')⟩

/-- A part that begins with a token. -/
theorem ofToken (hc : c.Sound) (h : c.Advanced [t] c') (hos : Flush c' os d)
    (hspan : p.span = d.spanFrom t.span.start) (hblock : p.isBlock = false)
    (hwhole : Excused p.isWhole d) (hcoheres : p.Coheres c.trail) :
    Grown c (.node p (.token t :: os)) d := by
  have hstart : p.span = d.spanFrom c.offset := by rw [hspan, (hc.offset_lt h.toMoved).1]
  have hshorter := (Grown.token hc h).shorter
  have hrest := hos.length_le
  have hshort : d.upcoming.length < c.upcoming.length := by omega
  have hfits := (Flush.consToken h hos).fits rfl (hc.offset_lt h.toMoved).1.symm
  refine ⟨?_, hstart, hshort, hfits.imp_right .node⟩
  exact .node (.consToken h hos.built) hstart (hwhole.imp_right .inl) (.inl hshort) hblock hfits
    hcoheres

/-- A part that is one token. -/
theorem ofOneToken (hc : c.Sound) (h : c.Advanced [t] d) (hspan : p.span = t.span)
    (hblock : p.isBlock = false) (hwhole : p.isWhole = true)
    (hcoheres : p.Coheres c.trail) : Grown c (.node p [.token t]) d := by
  refine .ofToken hc h (.refl d) ?_ hblock (.inl hwhole) hcoheres
  rw [hspan, hc.span_eq h.toMoved, Cursor.spanFrom, Cursor.spanFrom, (hc.offset_lt h.toMoved).1]

/-- A part that begins with another one. -/
theorem ofGrown (h : Grown c o c') (hos : Flush c' os d)
    (hspan : p.span = d.spanFrom c.offset) (hblock : p.isBlock = false)
    (hwhole : Excused p.isWhole d) (hcoheres : p.Coheres c.trail) :
    Grown c (.node p (o :: os)) d := by
  have hshorter := h.shorter
  have hrest := hos.length_le
  have hshort : d.upcoming.length < c.upcoming.length := by omega
  have hfits := h.fits_cons hos
  refine ⟨?_, hspan, hshort, hfits.imp_right .node⟩
  exact .node (.cons h.built hos.built) hspan (hwhole.imp_right .inl) (.inl hshort) hblock hfits
    hcoheres

/-- Tokens that fit nowhere. -/
theorem ofSkipped {ts : List Token} {k : Skipped} (hc : c.Sound) (h : c.Advanced (t :: ts) d)
    (hk : k.tokens = t :: ts) (hspan : k.span = d.spanFrom c.offset)
    (hwhy : d.Told ∨ t.kind = .unknown) : Grown c (Outline.ofSkipped k) d := by
  have hlength := h.length_add
  rw [List.length_cons] at hlength
  have hshort : d.upcoming.length < c.upcoming.length := by omega
  have hfits : c.Fits (k.tokens.map .token) d := by
    refine ⟨⟨t, ?_, (hc.offset_lt h.toMoved).1.symm⟩, ?_⟩
    · rw [tokensOfAll_map_token, hk, List.head?_cons]
    · rw [tokensOfAll_map_token, hk, h.last, List.getLast?_cons, Option.some_or]
  refine ⟨?_, hspan, hshort, .inr hfits.node⟩
  refine .node (hk ▸ .tokens hc h) hspan (.inr (hwhy.imp_right fun hkind => ⟨t, ?_, hkind⟩))
    (.inl hshort) rfl (.inr hfits) trivial
  rw [tokensOfAll_map_token, hk]
  exact List.mem_cons_self

end Grown

/-- Behind what was read last, no line is left where nothing is read. -/
theorem Cursor.Advanced.inLine {c d : Cursor} (h : c.Advanced [] d) (hlast : c.last ≠ none) :
    Token.InLine c.trail c.lastStop [] d.lastStop := by
  obtain ⟨t, ht⟩ := Option.ne_none_iff_exists'.1 hlast
  refine ⟨by rw [lastStop, lastStop, h.last_nil], t, ?_, ?_⟩
  · simp [trail, ht]
  · simp [lastStop, h.last_nil, ht]

/-- A part on the line of what was read last, and what follows it there. -/
theorem Grown.inLine {c c' d : Cursor} {o : Outline} {spans : List Span} (h : Grown c o c')
    (hc : c.Sound) (hline : c.onNewLine = false) (hlast : c.last ≠ none)
    (hspans : c'.last ≠ none → Token.InLine c'.trail c'.lastStop spans d.lastStop) :
    Token.InLine c.trail c.lastStop (o.span :: spans) d.lastStop := by
  obtain ⟨t, ht⟩ := Option.ne_none_iff_exists'.1 hlast
  obtain ⟨ts, hmoved⟩ := h.built.moved
  have hread := h.shorter
  obtain ⟨u, rest, hup⟩ : ∃ u rest, c.upcoming = u :: rest :=
    List.exists_cons_of_length_pos (by omega)
  refine ⟨⟨t, u, ⟨[], rest, by simp [Cursor.trail, ht, hup]⟩, ?_, ?_, ?_⟩, ?_⟩
  · simp [Cursor.lastStop, ht]
  · simp [h.span, Cursor.spanFrom, Cursor.offset, Cursor.token, hup]
  · simpa [Cursor.onNewLine, Cursor.token, hup] using hline
  · rw [h.stop_eq hc]
    exact (hspans h.last_ne_none).mono hmoved.trail.isInfix

/-- On the way from one cursor to another the parser built what may be missing. -/
inductive MayGrow {α : Type} (outline : α → Outline) (c : Cursor) : Option α → Cursor → Prop
  | some {a : α} {d : Cursor} : Grown c (outline a) d → MayGrow outline c (some a) d
  | none {d : Cursor} : c.Advanced [] d → MayGrow outline c none d

namespace MayGrow

variable {α : Type} {outline : α → Outline} {c d : Cursor} {r : Option α}

theorem flush (h : MayGrow outline c r d) : Flush c (r.toList.map outline) d := by
  cases h with
  | some h => exact h.flush
  | none h => exact .nothing h

theorem stopsAt (hc : c.Sound) (h : MayGrow outline c r d) :
    c.StopsAt (r.map fun a => (outline a).span) d := by
  cases h with
  | some h =>
    obtain ⟨ts, hmoved⟩ := h.built.moved
    rw [Option.map_some, h.span]
    exact .spanFrom (hc.offset_le_lastStop hmoved h.shorter)
  | none h => exact .nothing h

end MayGrow

/-! ## Outlines of optional parts and lists -/

namespace Outline

variable {α : Type}

theorem ofOptional_eq (r : Option Expression) : ofOptional r = r.toList.map ofExpression := by
  cases r <;> rfl

theorem ofOptionalField_eq (r : Option TableField) : ofOptionalField r = r.toList.map ofField := by
  cases r <;> rfl

/-- Items of a list with their separators. -/
def ofSeparated (outline : α → Outline) (items : Separated α) : List Outline :=
  items.flatMap fun i => i.value.toList.map outline ++ ofTokens [i.separator]

theorem ofSeparated_cons (outline : α → Outline) (i : SeparatedItem α) (items : Separated α) :
    ofSeparated outline (i :: items) =
      i.value.toList.map outline ++ ofTokens [i.separator] ++ ofSeparated outline items :=
  List.flatMap_cons

theorem ofItems_eq (items : Separated Expression) :
    ofItems items = ofSeparated ofExpression items := by
  induction items with
  | nil => rfl
  | cons i rest ih => rw [ofItems, ofItem, ofOptional_eq, ih, ofSeparated_cons]

theorem ofFields_eq (items : Separated TableField) :
    ofFields items = ofSeparated ofField items := by
  induction items with
  | nil => rfl
  | cons i rest ih => rw [ofFields, ofFieldItem, ofOptionalField_eq, ih, ofSeparated_cons]

theorem ofParameters_eq (items : Separated Token) :
    ofParameters items = ofSeparated token items := by
  unfold ofParameters ofSeparated ofTokens
  simp

theorem ofStatements_append (ss ss' : List Statement) :
    ofStatements (ss ++ ss') = ofStatements ss ++ ofStatements ss' := by
  induction ss with
  | nil => rfl
  | cons s rest ih => rw [List.cons_append, ofStatements, ofStatements, ih, List.cons_append]

theorem span_ofExpression (e : Expression) : (ofExpression e).span = e.span := by
  cases e with
  | var v => cases v; rfl
  | call c => cases c; rfl
  | skipped k => rfl
  | nil | boolean | number | string | binary | unary | vector | table | lambda | group => rfl

end Outline

end CommandScript
