import CommandScript.Proofs.Alongside
import CommandScript.Proofs.Onward
/-!
# CommandScript — two runs of the parser in lockstep

`View.Lockstep` compares what one step does to two cursors on their way. Both runs go on
alike, or the left one is lost: something is wrong with its text. Which brackets are still
open is the same before a step and behind it, so a rule that looks for the end of a bracket
finds the same on both sides.

Where a text is compared to itself in other places, a mistake in it is no way out.
-/

namespace CommandScript

variable {α β γ δ : Type} {c c' d d' e e' : Cursor}

/-- The cursor some tokens further on. -/
def Cursor.past (c : Cursor) (n : Nat) : Cursor :=
  { c with upcoming := c.upcoming.drop n, last := (c.upcoming.take n).getLast?.or c.last }

theorem Cursor.past_succ {t : Token} {us : List Token} (h : c.upcoming = t :: us) (n : Nat) :
    c.past (n + 1) = (Parse.bump c).2.past n := by
  simp only [Parse.bump, modifyGet, MonadStateOf.modifyGet, StateT.modifyGet, Cursor.past, h,
    List.drop_succ_cons, List.take_succ_cons, List.getLast?_cons, pure]
  cases (us.take n).getLast? <;> rfl

theorem Parse.bumpWhile_eq (q : Token → Bool) (c : Cursor) :
    bumpWhile q c = (c.upcoming.take (c.upcoming.takeWhile q).length,
      c.past (c.upcoming.takeWhile q).length) := by
  have htake := (List.prefix_iff_eq_take.1 (List.takeWhile_prefix (l := c.upcoming) q)).symm
  have hdrop : c.upcoming.drop (c.upcoming.takeWhile q).length = c.upcoming.dropWhile q := by
    have hleft : List.drop (c.upcoming.takeWhile q).length
        (c.upcoming.takeWhile q ++ c.upcoming.dropWhile q) = c.upcoming.dropWhile q := List.drop_left
    rwa [List.takeWhile_append_dropWhile] at hleft
  rw [Cursor.past, htake, hdrop]
  rfl

namespace Parse

/-- From the cursor the step reports something. -/
def Tells (p : Parse α) (c : Cursor) : Prop := (p c).2.Told

theorem Tells.bind {p : Parse α} {f : α → Parse β} [hf : ∀ a, Moves (f a)] (h : p.Tells c) :
    (p >>= f).Tells c :=
  ((hf _).onward _).told h

theorem Tells.map {p : Parse α} {f : α → β} (h : p.Tells c) : (f <$> p).Tells c := h

theorem Tells.get_bind {f : Cursor → Parse α} (h : (f c).Tells c) : (get >>= f).Tells c := h

theorem Tells.bump_bind {f : Token → Parse α} (h : (f (bump c).1).Tells (bump c).2) :
    (bump >>= f).Tells c := h

theorem tells_report (i : Issue) (c : Cursor) : (report i).Tells c := by
  rw [Parse.Tells, report_eq]
  split
  next h =>
    obtain ⟨j, hj, -⟩ := Option.map_eq_some_iff.1 h
    exact .inl (List.ne_nil_of_mem (List.mem_of_head? hj))
  next => exact .inl (List.cons_ne_nil _ _)

theorem tells_reportHere (k : Issue.Kind) (message : String) (c : Cursor) :
    (reportHere k message).Tells c := tells_report _ c

theorem tells_reportTooDeep (c : Cursor) : reportTooDeep.Tells c := by
  rw [Parse.Tells, reportTooDeep, modify_snd]
  split
  next h => exact .inr h
  next => exact .inr rfl

theorem tells_tooDeep (c : Cursor) : tooDeep.Tells c := .bind (tells_reportTooDeep c)

theorem eat_of_not_sees {k : TokenKind} (h : c.sees k = false) : eat k c = (none, c) := by
  change (if c.sees k = true then some <$> bump else pure none) c = (none, c)
  rw [h]
  rfl

/-- What is not here is reported to be missing. -/
theorem tells_expect {k : TokenKind} {opener : Option Token} (h : c.sees k = false) :
    (expect k opener).Tells c := by
  change ((expect k opener) c).2.Told
  simp only [expect, bind, StateT.bind, eat_of_not_sees h]
  exact tells_report _ c

end Parse

namespace View

open Grammar Parse

variable (V : View)

/-- Something is wrong with the left text; or it was read to its end, where something is
still open and the right text goes on. -/
def Lost (opened : Prop) (d : Cursor) : Prop :=
  ¬ V.exact ∧ (d.Told ∨ d.stalled = true ∨ opened ∧ ¬ V.Inside d)

/-- Two cursors that went on alike from two others. -/
structure Kept (c c' d d' : Cursor) : Prop where
  along : V.Along d d'
  left : ¬ V.exact → SameNesting c.upcoming d.upcoming
  right : ¬ V.exact → SameNesting c'.upcoming d'.upcoming

/-- From two cursors that are on their way alike, two steps go on alike and give what is
asked for, unless the left text is lost. -/
def Lockstep (opened : Prop) (p : Parse α) (p' : Parse β) (c c' : Cursor)
    (W : α → β → Cursor → Prop) : Prop :=
  V.Along c c' →
    V.Lost opened (p c).2 ∨ V.Kept c c' (p c).2 (p' c').2 ∧ W (p c).1 (p' c').1 (p c).2

/-- A token read on both sides. -/
structure Reads (c c' : Cursor) (t t' : Token) (d d' : Cursor) : Prop where
  along : V.Along d d'
  left : c.upcoming = t :: d.upcoming
  right : c'.upcoming = t' :: d'.upcoming
  last : d.last = some t
  same : V.Same t t'

variable {V} {opened opened' : Prop} {p : Parse α} {p' : Parse β} {f : α → Parse γ}
  {f' : β → Parse δ} {Q W W' : α → β → Cursor → Prop} {R : γ → δ → Cursor → Prop}
  {us us' : List Token} {marked : Prop}

namespace Facing

/-- A run of tokens is as long on both sides, unless it is all that is left on the left. -/
theorem length_takeWhile {q q' : Token → Bool} (h : V.Facing marked us us')
    (hq : ∀ t t', V.Same t t' → (marked → t.SameMarks t') → q' t' = q t) :
    (us'.takeWhile q').length = (us.takeWhile q).length ∨
      V.tail ≠ [] ∧ (us.takeWhile q).length = us.length := by
  induction h with
  | nil =>
    by_cases htail : V.tail = []
    · exact .inl (by rw [htail]; rfl)
    · exact .inr ⟨htail, rfl⟩
  | @cons _ t t' us us' hsame hmarks _ _ _ ih =>
    have hih := ih fun t t' hsame hmarks => hq t t' hsame fun _ => hmarks trivial
    rw [List.takeWhile_cons, List.takeWhile_cons, hq t t' hsame hmarks]
    cases q t with
    | true => simpa using hih
    | false => exact .inl rfl

/-- Where both texts end together, so do runs. -/
theorem length_balancedRun (htail : V.tail = []) (stop : List TokenKind)
    (h : V.Facing marked us us') (depth : Nat) :
    (balancedRun stop depth us').length = (balancedRun stop depth us).length := by
  induction h generalizing depth with
  | nil => rw [htail]
  | @cons _ t t' us us' hsame _ _ _ _ ih =>
    rw [balancedRun, balancedRun, hsame.kind]
    split
    · rfl
    · simp [ih]

end Facing

namespace Lost

theorem onward (hon : c.Onward d) (h : V.Lost opened c) : V.Lost opened d := by
  obtain ⟨hexact, h | h | ⟨ho, h⟩⟩ := h
  · exact ⟨hexact, .inl (hon.told h)⟩
  · exact ⟨hexact, .inr (.inl (hon.stalled h))⟩
  · exact ⟨hexact, .inr (.inr ⟨ho, fun hin => h (hin.imp_right (mt hon.spent))⟩)⟩

theorem imp (ho : opened → opened') (h : V.Lost opened c) : V.Lost opened' c :=
  ⟨h.1, h.2.imp_right (.imp_right (.imp_left ho))⟩

/-- Where the right text goes on, the two are not the same to the end. -/
theorem of_not_inside (h : ¬ V.Inside c) : V.Lost True c :=
  ⟨not_exact fun htail => h (.inl htail), .inr (.inr ⟨trivial, h⟩)⟩

end Lost

theorem Began.onward (h : V.Began c) (hon : c.Onward d) : V.Began d := h.imp_right hon.last

namespace Kept

theorem refl (h : V.Along c c') : V.Kept c c' c c' := ⟨h, fun _ _ => rfl, fun _ _ => rfl⟩

theorem trans (h : V.Kept c c' d d') (h' : V.Kept d d' e e') : V.Kept c c' e e' where
  along := h'.along
  left hexact n := (h.left hexact n).trans (h'.left hexact n)
  right hexact n := (h.right hexact n).trans (h'.right hexact n)

end Kept

namespace Reads

variable {t t' : Token} (h : V.Reads c c' t t' d d')
include h

theorem began : V.Began d := .inr (by rw [h.last]; rfl)

theorem token : c.token = t := by rw [Cursor.token, h.left]; rfl

theorem token' : c'.token = t' := by rw [Cursor.token, h.right]; rfl

theorem kind : t.kind = c.kind := by rw [Cursor.kind, h.token]

theorem offsets : V.start c.offset c'.offset := by
  rw [Cursor.offset, Cursor.offset, h.token, h.token']
  exact h.same.start

/-- Behind the token read stands the one that stood behind it before. -/
theorem ahead (hal : V.Along c c') : c.ahead 1 = d.token := by
  rw [Cursor.ahead, Cursor.token, h.left, hal.leftEnd, h.along.leftEnd]
  cases d.upcoming <;> rfl

end Reads

namespace Lockstep

theorem along (h : V.Along c c' → V.Lockstep opened p p' c c' W) :
    V.Lockstep opened p p' c c' W := fun hal => h hal hal

theorem pure {a : α} {a' : β} (h : V.Along c c' → W a a' c) :
    V.Lockstep opened (pure a) (pure a') c c' W :=
  fun hal => .inr ⟨.refl hal, h hal⟩

theorem get_bind {f : Cursor → Parse γ} {f' : Cursor → Parse δ}
    (h : V.Along c c' → V.Lockstep opened (f c) (f' c') c c' R) :
    V.Lockstep opened (get >>= f) (get >>= f') c c' R :=
  fun hal => h hal hal

/-- Two steps in lockstep, one behind the other. -/
theorem bind [m : ∀ a, Moves (f a)] (h : V.Lockstep opened p p' c c' Q)
    (hf : ∀ a a' d d', V.Along d d' → c.Onward d → Q a a' d →
      V.Lockstep opened (f a) (f' a') d d' R) [hp : Moves p] :
    V.Lockstep opened (p >>= f) (p' >>= f') c c' R := by
  intro hal
  obtain hlost | ⟨hkept, hq⟩ := h hal
  · exact .inl (hlost.onward ((m _).onward _))
  · obtain hlost | ⟨hkept', hr⟩ := hf _ _ _ _ hkept.along (hp.onward c) hq hkept.along
    · exact .inl hlost
    · exact .inr ⟨hkept.trans hkept', hr⟩

theorem imp (h : V.Lockstep opened p p' c c' W) (hw : ∀ a a' d, W a a' d → W' a a' d) :
    V.Lockstep opened p p' c c' W' :=
  fun hal => (h hal).imp_right fun ⟨hkept, hr⟩ => ⟨hkept, hw _ _ _ hr⟩

theorem weaken (h : V.Lockstep False p p' c c' W) : V.Lockstep opened p p' c c' W :=
  fun hal => (h hal).imp_left (.imp False.elim)

theorem map {g : α → γ} {g' : β → δ} (h : V.Lockstep opened p p' c c' fun a a' => R (g a) (g' a')) :
    V.Lockstep opened (g <$> p) (g' <$> p') c c' R := h

/-- What was begun stays begun. -/
theorem begun [hp : Moves p] (hbegan : V.Began c) (h : V.Lockstep opened p p' c c' W) :
    V.Lockstep opened p p' c c' fun a a' d => W a a' d ∧ V.Began d :=
  fun hal => (h hal).imp_right fun ⟨hkept, hr⟩ => ⟨hkept, hr, hbegan.onward (hp.onward c)⟩

theorem ite {P P' : Prop} [Decidable P] [Decidable P'] {q : Parse α} {q' : Parse β} (h : P' ↔ P)
    (hp : P → V.Lockstep opened p p' c c' W) (hq : ¬ P → V.Lockstep opened q q' c c' W) :
    V.Lockstep opened (if P then p else q) (if P' then p' else q') c c' W := by
  by_cases hP : P
  · rw [if_pos hP, if_pos (h.2 hP)]
    exact hp hP
  · rw [if_neg hP, if_neg (mt h.1 hP)]
    exact hq hP

/-- What reports something is looked at further only where the two texts are the same. -/
theorem of_tells (h : p.Tells c) (hexact : V.exact → V.Lockstep opened p p' c c' W) :
    V.Lockstep opened p p' c c' W := by
  by_cases he : V.exact
  · exact hexact he
  · exact fun _ => .inl ⟨he, .inl h⟩

/-- Where the left text is over and the right one is not, a report decides. -/
theorem of_not_inside (hin : ¬ V.Inside c) (h : p.Tells c) : V.Lockstep opened p p' c c' W :=
  .of_tells h fun he => absurd (.inl (tail_nil he)) hin

/-- Where something is still open, it is enough to look at cursors before the end of the left text. -/
theorem of_inside [hp : Moves p] (h : V.Inside c → V.Lockstep True p p' c c' W) :
    V.Lockstep True p p' c c' W := by
  by_cases hin : V.Inside c
  · exact h hin
  · exact fun _ => .inl ((Lost.of_not_inside hin).onward (hp.onward c))

/-! ## The steps -/

theorem spanFrom_bind {start start' : Nat} {f : Span → Parse γ} {f' : Span → Parse δ}
    (hstart : V.place start start')
    (hf : ∀ s s', s.start = start → s'.start = start' → V.left.span s = V.right.span s' →
      V.Lockstep opened (f s) (f' s') c c' R) :
    V.Lockstep opened (spanFrom start >>= f) (spanFrom start' >>= f') c c' R :=
  .along fun hal => hf _ _ rfl rfl ((V.span_eq _ _).2 ⟨hstart, hal.stop hstart⟩)

theorem reads_bump (h : V.Along c c') (hk : c.kind ≠ .endOfInput) :
    V.Reads c c' (bump c).1 (bump c').1 (bump c).2 (bump c').2 := by
  obtain ⟨hnil, -⟩ | ⟨t, t', us, us', hup, hup', hsame, -, -, -, hrest⟩ := h.cases
  · exact absurd (h.kind_of_nil hnil) hk
  have hleft : bump c = (t, { c with upcoming := us, last := some t }) := by
    simp only [Parse.bump, modifyGet, MonadStateOf.modifyGet, StateT.modifyGet, hup]
    rfl
  have hright : bump c' = (t', { c' with upcoming := us', last := some t' }) := by
    simp only [Parse.bump, modifyGet, MonadStateOf.modifyGet, StateT.modifyGet, hup']
    rfl
  rw [hleft, hright]
  refine ⟨⟨hrest.of_true, h.leftEnd, h.rightEnd, ?_, ?_, ?_, h.found, h.deep⟩, hup, hup', rfl, hsame⟩
  · exact fun _ => congrArg some hsame.text
  · intro s s' hplace
    exact V.cover hplace hsame.place_stop
  · intro htail u hu
    refine h.bar htail u ?_
    rw [hup, List.getLast?_cons]
    cases hlast : us.getLast? with
    | none => simpa [hlast] using hu
    | some v => simpa [hlast] using hu

/-- Kinds of brackets whose end is looked for. -/
def squares : List TokenKind := [.leftBracket, .rightBracket]

theorem sameNesting_cons {t : Token} {us : List Token} (h : t.kind ∉ squares) :
    SameNesting (t :: us) us := by
  intro n
  have hl : t.kind ≠ .leftBracket := fun hk => h (by rw [hk]; decide)
  have hr : t.kind ≠ .rightBracket := fun hk => h (by rw [hk]; decide)
  simp [closesBeforeEquals, hl, hr]

/-- A token that is no bracket of a vector is read on both sides. -/
theorem bump_bind {f : Token → Parse γ} {f' : Token → Parse δ}
    (hend : c.kind ≠ .endOfInput) (hk : V.exact ∨ c.kind ∉ squares)
    (hf : ∀ t t' d d', V.Reads c c' t t' d d' → V.Lockstep opened (f t) (f' t') d d' R) :
    V.Lockstep opened (bump >>= f) (bump >>= f') c c' R := by
  intro hal
  have hreads := reads_bump hal hend
  have hkept : V.Kept c c' (bump c).2 (bump c').2 := by
    refine ⟨hreads.along, fun he => ?_, fun he => ?_⟩
    · rw [hreads.left]
      exact sameNesting_cons (hreads.kind ▸ hk.resolve_left he)
    · rw [hreads.right]
      exact sameNesting_cons (hreads.same.kind ▸ hreads.kind ▸ hk.resolve_left he)
  obtain hlost | ⟨hkept', hr⟩ := hf _ _ _ _ hreads hreads.along
  · exact .inl hlost
  · exact .inr ⟨hkept.trans hkept', hr⟩

theorem eat_of_sees {k : TokenKind} (h : c.sees k = true) :
    eat k c = (some (bump c).1, (bump c).2) := by
  change (if c.sees k = true then some <$> bump else Pure.pure none) c = _
  rw [h]
  rfl

/-- A token that may be here is read on both sides or on none. -/
theorem eat_bind {k : TokenKind} {f : Option Token → Parse γ} {f' : Option Token → Parse δ}
    (hend : k ≠ .endOfInput) (hk : V.exact ∨ k ∉ squares)
    (hsees : V.Along c c' → c'.sees k = c.sees k)
    (hsome : ∀ t t' d d', V.Reads c c' t t' d d' → t.kind = k →
      V.Lockstep opened (f (some t)) (f' (some t')) d d' R)
    (hnone : c.sees k = false → V.Lockstep opened (f none) (f' none) c c' R) :
    V.Lockstep opened (eat k >>= f) (eat k >>= f') c c' R := by
  refine .along fun hal => ?_
  cases hc : c.sees k with
  | false =>
    have hc' := (hsees hal).trans hc
    intro _
    simp only [Bind.bind, StateT.bind, eat_of_not_sees hc, eat_of_not_sees hc']
    exact hnone hc hal
  | true =>
    have hc' := (hsees hal).trans hc
    have hkind : c.kind = k := by simpa [Cursor.sees] using hc
    have h : V.Lockstep opened (bump >>= fun t => f (some t)) (bump >>= fun t => f' (some t)) c c' R :=
      .bump_bind (hkind ▸ hend) (hkind ▸ hk)
        fun t t' d d' hreads => hsome t t' d d' hreads (hreads.kind.trans hkind)
    intro hal
    simp only [Bind.bind, StateT.bind, eat_of_sees hc, eat_of_sees hc']
    exact h hal

/-- An issue that is found in the same place on both sides is found after the same other ones. -/
theorem along_report {i i' : Issue} (h : V.Along c c') (hcode : i.code = i'.code)
    (hstart : V.start i.span.start i'.span.start) :
    V.Along (report i c).2 (report i' c').2 := by
  have hfound := h.found
  rw [report_eq, report_eq]
  cases hc : c.found with
  | nil =>
    rw [hc] at hfound
    rw [List.forall₂_nil_left_iff.1 hfound]
    exact ⟨h.facing, h.leftEnd, h.rightEnd, h.text, h.stop, h.bar, .cons ⟨hcode, hstart⟩ .nil, h.deep⟩
  | cons before rest =>
    rw [hc] at hfound
    obtain ⟨before', rest', hbefore, hrest, hc'⟩ := List.forall₂_cons_left_iff.1 hfound
    have hiff : before.span.start = i.span.start ↔ before'.span.start = i'.span.start := by
      have hlt := V.order hbefore.2 hstart
      have hgt := V.order hstart hbefore.2
      omega
    simp only [hc', List.head?_cons, Option.map_some, Option.some.injEq]
    by_cases heq : before.span.start = i.span.start
    · rw [if_pos heq, if_pos (hiff.1 heq)]
      exact h
    · rw [if_neg heq, if_neg (mt hiff.2 heq)]
      exact ⟨h.facing, h.leftEnd, h.rightEnd, h.text, h.stop, h.bar,
        .cons ⟨hcode, hstart⟩ (.cons hbefore hrest), h.deep⟩

theorem report {i i' : Issue} (hcode : i.code = i'.code)
    (hstart : V.exact → V.Along c c' → V.start i.span.start i'.span.start) :
    V.Lockstep opened (Parse.report i) (Parse.report i') c c' fun _ _ _ => V.exact :=
  .of_tells (tells_report i c) fun he hal => .inr ⟨⟨along_report hal hcode (hstart he hal),
    fun hne => absurd he hne, fun hne => absurd he hne⟩, he⟩

theorem reportHere {k : Issue.Kind} {m m' : String} :
    V.Lockstep opened (Parse.reportHere k m) (Parse.reportHere k m') c c' fun _ _ _ => V.exact :=
  get_bind fun _ => .report rfl fun he hal => hal.offsets (.inl he)

/-- What was expected is read on both sides, or it is missing on both sides. -/
theorem expect {k : TokenKind} {opener opener' : Option Token} (hend : k ≠ .endOfInput)
    (hk : V.exact ∨ k ∉ squares) :
    V.Lockstep opened (Parse.expect k opener) (Parse.expect k opener') c c' fun r r' d =>
      r.map V.left.token = r'.map V.right.token ∧
        (V.exact ∨ ∃ t, r = some t ∧ t.kind = k ∧ d.last = some t) := by
  refine .along fun hal => ?_
  by_cases hin : V.Inside c
  · refine eat_bind hend hk (fun hal => hal.sees_eq hin) (fun t t' d d' hreads hkind => ?_) fun _ => ?_
    · exact .pure fun _ => ⟨congrArg some hreads.same.token, .inr ⟨t, rfl, hkind, hreads.last⟩⟩
    · exact .get_bind fun _ => .bind .reportHere fun _ _ _ _ _ _ he => .pure fun _ => ⟨rfl, .inl he⟩
  · have hnil : c.upcoming = [] := not_not.1 fun hne => hin (.inr hne)
    exact .of_not_inside hin (tells_expect (hal.sees_of_nil hnil hend))

theorem of_exact (he : V.exact) (h : V.Lockstep True p p' c c' W) :
    V.Lockstep opened p p' c c' W :=
  fun hal => (h hal).imp_left fun hlost => absurd he hlost.1

theorem sameNesting_append {ts : List Token} (h : ∀ t ∈ ts, t.kind ∉ squares) :
    SameNesting (ts ++ us) us := by
  induction ts with
  | nil => exact fun _ => rfl
  | cons t ts ih =>
    rw [List.forall_mem_cons] at h
    exact fun n => (sameNesting_cons h.1 n).trans (ih h.2 n)

/-- Some tokens further on, both cursors are on their way alike. -/
theorem along_past (n : Nat) (h : V.Along c c') (hn : n ≤ c.upcoming.length) :
    V.Along (c.past n) (c'.past n) ∧
      (c.upcoming.take n).map V.left.token = (c'.upcoming.take n).map V.right.token := by
  induction n generalizing c c' with
  | zero => exact ⟨h, rfl⟩
  | succ n ih =>
    obtain ⟨hnil, -⟩ | ⟨t, t', us, us', hup, hup', -, -, hend, -⟩ := h.cases
    · simp [hnil] at hn
    have hreads := reads_bump h (by rw [Cursor.kind, Cursor.token, hup]; exact hend)
    obtain ⟨halong, htokens⟩ := ih hreads.along (by
      have := congrArg List.length hreads.left
      simp at this
      omega)
    rw [Cursor.past_succ hup, Cursor.past_succ hup', hreads.left, hreads.right, List.take_succ_cons,
      List.take_succ_cons, List.map_cons, List.map_cons, hreads.same.token, htokens]
    exact ⟨halong, rfl⟩

theorem kinds_eq {ts ts' : List Token} (h : ts.map V.left.token = ts'.map V.right.token) :
    ts.map Token.kind = ts'.map Token.kind := by
  have hkind := congrArg (List.map Token.kind) h
  rw [List.map_map, List.map_map] at hkind
  exact hkind

/-- A run of tokens is read on both sides, where something is still open. -/
theorem bumpWhile {q q' : Token → Bool} (hsquares : ¬ V.exact → ∀ t, q t = true → t.kind ∉ squares)
    (hq : ∀ t t', V.Same t t' → (V.Began c → t.SameMarks t') → q' t' = q t) :
    V.Lockstep True (Parse.bumpWhile q) (Parse.bumpWhile q') c c' fun ts ts' _ =>
      ts.map V.left.token = ts'.map V.right.token := by
  intro hal
  have hprefix := List.prefix_iff_eq_take.1 (List.takeWhile_prefix (l := c.upcoming) q)
  rw [bumpWhile_eq, bumpWhile_eq]
  obtain hlength | ⟨htail, hall⟩ := hal.facing.length_takeWhile hq
  · rw [hlength]
    obtain ⟨halong, htokens⟩ :=
      along_past _ hal (List.takeWhile_sublist (l := c.upcoming) q).length_le
    have hplain (he : ¬ V.exact) :
        ∀ t ∈ c.upcoming.take (c.upcoming.takeWhile q).length, t.kind ∉ squares := fun t ht => by
      rw [← hprefix] at ht
      exact hsquares he t (List.all_eq_true.1 List.all_takeWhile t ht)
    have hplain' (he : ¬ V.exact) :
        ∀ t ∈ c'.upcoming.take (c.upcoming.takeWhile q).length, t.kind ∉ squares := fun t ht => by
      obtain ⟨u, hu, hk⟩ := List.mem_map.1 (kinds_eq htokens ▸ List.mem_map_of_mem ht : t.kind ∈ _)
      exact hk ▸ hplain he u hu
    have hkept {us : List Token} {n : Nat} (h : ∀ t ∈ us.take n, t.kind ∉ squares) :
        SameNesting us (us.drop n) := by
      conv => arg 1; rw [← List.take_append_drop n us]
      exact sameNesting_append h
    exact .inr ⟨⟨halong, fun he => hkept (hplain he), fun he => hkept (hplain' he)⟩, htokens⟩
  · refine .inl (.of_not_inside ?_)
    rintro (hnil | hne)
    · exact htail hnil
    · exact hne (by rw [Cursor.past, hall, List.drop_length])

theorem reportTooDeep :
    V.Lockstep opened Parse.reportTooDeep Parse.reportTooDeep c c' fun _ _ _ => V.exact := by
  refine .of_tells (tells_reportTooDeep c) fun he hal => .inr ⟨⟨?_, fun hne => absurd he hne,
    fun hne => absurd he hne⟩, he⟩
  have hreport {c : Cursor} : (Parse.reportTooDeep c).2 = if c.deepReported then c else
      { c with deepReported := true, found := .of .tooDeep c.token.span :: c.found } := rfl
  rw [hreport, hreport, ← hal.deep]
  split
  · exact hal
  · exact ⟨hal.facing, hal.leftEnd, hal.rightEnd, hal.text, hal.stop, hal.bar,
      .cons ⟨rfl, hal.offsets (.inl he)⟩ hal.found, rfl⟩

/-- The rest of the text is skipped on both sides. -/
theorem tooDeep : V.Lockstep opened Parse.tooDeep Parse.tooDeep c c' fun k k' _ =>
    k.map V.left.skipped = k'.map V.right.skipped ∧ V.exact := by
  refine .bind .reportTooDeep fun _ _ d d' _ _ he => .get_bind fun hal => ?_
  refine .ite (by rw [hal.atEnd_eq (.inl (tail_nil he))]) (fun _ => .pure fun _ => ⟨rfl, he⟩) fun _ => ?_
  refine .bind (.of_exact he (.bumpWhile (fun hne => absurd he hne) fun _ _ _ _ => rfl))
    fun ts ts' _ _ _ _ hts => ?_
  refine .spanFrom_bind (V.place_of_start (hal.offsets (.inl he))) fun s s' _ _ hs => .pure fun _ => ⟨?_, he⟩
  simp only [Option.map_some, Relocation.skipped, hts, hs]

/-- Before the end of a text something is skipped. -/
theorem isSome_skip {r : Recovery} (h : c.kind ≠ .endOfInput) : ((r.skip c).1).isSome = true := by
  have hend : ¬ c.atEnd = true := fun hend => h (eq_of_beq hend)
  change ((if c.atEnd = true then _ else _ : Parse (Option Skipped)) c).1.isSome = true
  rw [if_neg hend]
  rfl

/-- Where both texts end together, the same is skipped. -/
theorem skip (he : V.exact) (r : Recovery) : V.Lockstep opened r.skip r.skip c c' fun k k' _ =>
    k.map V.left.skipped = k'.map V.right.skipped ∧
      ∀ node ∈ k, ∀ node' ∈ k', V.start node.span.start node'.span.start := by
  have hin {c : Cursor} : V.Inside c := .inl (tail_nil he)
  refine .get_bind fun hal => .ite (by rw [hal.atEnd_eq hin])
    (fun _ => .pure fun _ => ⟨rfl, fun _ h => nomatch h⟩) fun hend => ?_
  have hkind : c.kind ≠ .endOfInput := fun hk => hend (by simp [Cursor.atEnd, Cursor.sees, hk])
  refine .bump_bind hkind (.inl he) fun t t' d d' hreads => ?_
  refine .bind (.of_exact he (.bumpWhile (fun hne => absurd he hne) fun u u' hsame hmarks => ?_))
    fun ts ts' _ _ _ _ hts => ?_
  · rw [Recovery.accepts, Recovery.accepts, hsame.kind, (hmarks (.inl he)).1]
  · refine .spanFrom_bind (V.place_of_start hreads.offsets) fun s s' hs hs' hspan => .pure fun _ => ?_
    refine ⟨?_, ?_⟩
    · simp only [Option.map_some, Relocation.skipped, List.map_cons, hreads.same.token, hts, hspan]
    · rintro _ ⟨⟩ _ ⟨⟩
      rw [hs, hs']
      exact hreads.offsets

/-- Between the semicolons behind the statement that leaves a block and the end of the block
there is nothing, or it is reported. -/
theorem skipUnreachable (stop : List TokenKind) :
    V.Lockstep True (Parse.skipUnreachable stop) (Parse.skipUnreachable stop) c c' fun _ _ _ => True := by
  have hsemicolon : ∀ t : Token, (t.kind == .semicolon && !stop.contains t.kind) = true →
      t.kind ∉ squares := fun t ht => by
    have hk : t.kind = .semicolon := by simpa using (Bool.and_eq_true_iff.1 ht).1
    rw [hk]
    decide
  refine .bind (.bumpWhile (fun _ => hsemicolon) fun t t' hsame _ => by rw [hsame.kind])
    fun _ _ d d' _ _ _ => ?_
  refine .of_inside fun hin => .get_bind fun hal => ?_
  have hempty : (balancedRun stop 0 d'.upcoming).isEmpty = (balancedRun stop 0 d.upcoming).isEmpty := by
    obtain ⟨hnil, hnil'⟩ | ⟨t, t', us, us', hup, hup', hsame, -⟩ := hal.cases
    · rw [hnil, hnil', hin.resolve_right fun h => h hnil]
    · rw [hup, hup', balancedRun, balancedRun, hsame.kind]
      split <;> rfl
  refine .ite (by rw [hempty]) (fun _ => .pure fun _ => trivial) fun hrun => ?_
  refine .of_tells (tells_report _ _) fun he hal => .inr ⟨⟨?_, fun hne => absurd he hne,
    fun hne => absurd he hne⟩, trivial⟩
  have hpast {c : Cursor} (h : ¬ (balancedRun stop 0 c.upcoming).isEmpty = true) :
      ({ c with upcoming := c.upcoming.drop (balancedRun stop 0 c.upcoming).length
                last := (balancedRun stop 0 c.upcoming).getLast? } : Cursor) =
        c.past (balancedRun stop 0 c.upcoming).length := by
    obtain ⟨t, ts, hrun⟩ := List.exists_cons_of_ne_nil (mt List.isEmpty_iff.2 h)
    rw [Cursor.past, ← List.prefix_iff_eq_take.1 (balancedRun_isPrefix stop 0 c.upcoming), hrun,
      List.getLast?_cons, Option.some_or]
  have halong := (along_past _ hal (balancedRun_isPrefix stop 0 d.upcoming).length_le).1
  have hlength : d'.past (balancedRun stop 0 d.upcoming).length =
      d'.past (balancedRun stop 0 d'.upcoming).length := by
    rw [hal.facing.length_balancedRun (tail_nil he)]
  rw [hlength, ← hpast hrun, ← hpast (hempty ▸ hrun)] at halong
  exact along_report halong rfl (hal.offsets (.inl he))

theorem stall : V.Lockstep opened Parse.stall Parse.stall c c' fun _ _ _ => True := fun hal =>
  .inr ⟨⟨⟨hal.facing, hal.leftEnd, hal.rightEnd, hal.text, hal.stop, hal.bar, hal.found, hal.deep⟩,
    fun _ _ => rfl, fun _ _ => rfl⟩, trivial⟩

/-- A run that is out of rounds or of budget is lost, unless both are. -/
theorem of_stall {a : α} {rounds : Nat → Parse β} {n : Nat} {a' : β} (hn : V.exact → n = 0)
    (hzero : rounds 0 = (do Parse.stall; Pure.pure a')) (h : V.exact → V.Along c c' → ∀ d, W a a' d) :
    V.Lockstep opened (do Parse.stall; Pure.pure a) (rounds n) c c' W := by
  refine .along fun hal => ?_
  by_cases he : V.exact
  · rw [hn he, hzero]
    exact .bind .stall fun _ _ d _ _ _ _ => .pure fun _ => h he hal d
  · exact fun _ => .inl ⟨he, .inr (.inl rfl)⟩

/-- The rounds of two loops go on alike. -/
theorem progressed {before before' : Option Nat} (hat : V.exact ∨ c.upcoming ≠ [])
    (h : Option.Rel V.start before before') :
    V.Lockstep opened (Parse.progressed before) (Parse.progressed before') c c' fun a a' d =>
      a = a' ∧ d.upcoming = c.upcoming := by
  refine .get_bind fun hal => ?_
  cases h with
  | none => exact .pure fun _ => ⟨rfl, rfl⟩
  | some hstart =>
    refine .ite (V.order hstart (hal.offsets hat)).symm (fun _ => .pure fun _ => ⟨rfl, rfl⟩) fun _ hal => ?_
    have hstall : V.Lockstep opened Parse.stall Parse.stall c c' _ := .stall
    obtain hlost | ⟨hkept, -⟩ := hstall hal
    · exact .inl hlost
    · exact .inr ⟨hkept, rfl, rfl⟩

/-- At the end of the left text, what is open is reported not to be closed. -/
theorem lost_expect {k : TokenKind} {opener : Option Token} {f : Option Token → Parse γ}
    [∀ t, Moves (f t)] (hend : k ≠ .endOfInput) (hending : d.ending = V.leftEnd)
    (h : V.Lost True d) : V.Lost opened ((Parse.expect k opener >>= f) d).2 := by
  obtain ⟨hexact, htold | hstalled | ⟨-, hout⟩⟩ := h
  · exact Lost.onward (Moves.onward d) ⟨hexact, .inl htold⟩
  · exact Lost.onward (Moves.onward d) ⟨hexact, .inr (.inl hstalled)⟩
  · have hnil : d.upcoming = [] := not_not.1 fun hne => hout (.inr hne)
    have hsees : d.sees k = false := by
      rw [Cursor.sees, Cursor.kind, Cursor.token, hnil, List.headD_nil, hending, V.leftEnd_kind,
        beq_eq_false_iff_ne]
      exact hend.symm
    exact ⟨hexact, .inl (Tells.bind (tells_expect hsees))⟩

/-- What is open has to be closed. -/
theorem expect_of_open {k : TokenKind} {opener opener' : Option Token}
    {g : α → Option Token → Parse γ} {g' : β → Option Token → Parse δ} [∀ a t, Moves (g a t)]
    [hp : Moves p] (hend : k ≠ .endOfInput) (hk : V.exact ∨ k ∉ squares)
    (h : V.Lockstep True p p' c c' Q)
    (hg : ∀ a a' r r' d d', c.Onward d → (∃ e, Q a a' e) →
      r.map V.left.token = r'.map V.right.token →
      (V.exact ∨ ∃ t, r = some t ∧ t.kind = k ∧ d.last = some t) →
      V.Lockstep opened (g a r) (g' a' r') d d' R) :
    V.Lockstep opened (do let a ← p; let t ← Parse.expect k opener; g a t)
      (do let a ← p'; let t ← Parse.expect k opener'; g' a t) c c' R := by
  intro hal
  have hon := hp.onward c
  obtain hlost | ⟨hkept, hq⟩ := h hal
  · exact .inl (lost_expect hend (hon.ending.trans hal.leftEnd) hlost)
  · have hexpect : V.Lockstep opened (Parse.expect k opener) (Parse.expect k opener') (p c).2 (p' c').2 _ :=
      .expect hend hk
    obtain hlost | ⟨hkept', hr⟩ := hexpect.bind
      (fun r r' d d' _ hon' hr => hg _ _ r r' d d' (hon.trans hon') ⟨_, hq⟩ hr.1 hr.2) hkept.along
    · exact .inl hlost
    · exact .inr ⟨hkept.trans hkept', hr⟩

theorem closesBeforeEquals_open {t : Token} {us : List Token} (h : t.kind = .leftBracket) (n : Nat) :
    closesBeforeEquals n (t :: us) = closesBeforeEquals (n + 1) us := by
  rw [closesBeforeEquals, if_pos h]

theorem closesBeforeEquals_close {t : Token} {us : List Token} (h : t.kind = .rightBracket) (n : Nat) :
    closesBeforeEquals (n + 2) (t :: us) = closesBeforeEquals (n + 1) us := by
  rw [closesBeforeEquals, if_neg (by rw [h]; decide), if_pos h, if_neg (by omega)]
  rfl

theorem expect_bind_of_sees {k : TokenKind} {opener : Option Token} {f : Option Token → Parse γ}
    (h : c.sees k = true) : (Parse.expect k opener >>= f) c = f (some (bump c).1) (bump c).2 := by
  simp only [Parse.expect, Bind.bind, StateT.bind, eat_of_sees h]
  rfl

theorem closesBeforeEquals_last {t : Token} {us : List Token} (h : t.kind = .rightBracket) :
    closesBeforeEquals 1 (t :: us) = us.head?.any (·.kind == .equal) := by
  rw [closesBeforeEquals, if_neg (by rw [h]; decide), if_pos h, if_pos rfl]

/-- No equals sign begins what the right text has behind the left one. -/
theorem head_equal (h : V.Along c c') :
    c'.upcoming.head?.any (·.kind == .equal) = c.upcoming.head?.any (·.kind == .equal) := by
  obtain ⟨hnil, hnil'⟩ | ⟨t, t', us, us', hup, hup', hsame, -⟩ := h.cases
  · rw [hnil, hnil', List.head?_nil, Option.any_none]
    have hseam := V.seam_kind
    cases htail : V.tail with
    | nil => rfl
    | cons t rest =>
      rw [htail, List.headD_cons] at hseam
      rw [List.head?_cons, Option.any_some, beq_eq_false_iff_ne]
      intro hk
      rw [hk] at hseam
      exact absurd hseam (by decide)
  · rw [hup, hup', List.head?_cons, List.head?_cons, Option.any_some, Option.any_some, hsame.kind]

/-- What stands between brackets is closed where it was opened: so what is read there shows
whether an equals sign follows. -/
theorem bracketed {p : Token → Parse α} {p' : Token → Parse β}
    {g : Token → α → Option Token → Parse γ} {g' : Token → β → Option Token → Parse δ}
    [hmoves : ∀ t, Moves (p t)] [∀ t a r, Moves (g t a r)] (hc : c.kind = .leftBracket)
    (hp : ∀ t t' d d', V.Reads c c' t t' d d' → V.Lockstep True (p t) (p' t') d d' Q)
    (hg : ∀ t t' a a' r r' d d', V.Same t t' → c.offset = t.span.start → V.Began d → (∃ e, Q a a' e) →
      r.map V.left.token = r'.map V.right.token → (V.exact ∨ r.isSome = true) →
      closesBeforeEquals 0 c.upcoming = closesBeforeEquals 0 c'.upcoming →
      V.Lockstep opened (g t a r) (g' t' a' r') d d' R) :
    V.Lockstep opened
      (do let t ← bump; let a ← p t; let r ← Parse.expect .rightBracket (some t); g t a r)
      (do let t ← bump; let a ← p' t; let r ← Parse.expect .rightBracket (some t); g' t a r) c c' R := by
  refine .along fun hal => ?_
  by_cases he : V.exact
  · refine .bump_bind (by rw [hc]; decide) (.inl he) fun t t' d d' hreads => ?_
    refine expect_of_open (by decide) (.inl he) (hp t t' d d' hreads) fun a a' r r' e e' hon hq hr _ => ?_
    exact hg t t' a a' r r' e e' hreads.same (by rw [Cursor.offset, hreads.token])
      (hreads.began.onward hon) hq hr (.inl he) (hal.facing.closesBeforeEquals_eq (tail_nil he) 0)
  intro _
  have hreads := reads_bump hal (by rw [hc]; decide)
  have hopen := hreads.kind.trans hc
  have hon := (hmoves (bump c).1).onward (bump c).2
  obtain hlost | ⟨hkept, hq⟩ := hp _ _ _ _ hreads hreads.along
  · exact .inl (lost_expect (by decide) (hon.ending.trans hreads.along.leftEnd) hlost)
  have hleft := hkept.left he
  have hright := hkept.right he
  have halong := hkept.along
  cases hsees : (p (bump c).1 (bump c).2).2.sees .rightBracket with
  | false =>
    exact .inl ⟨he, .inl (Tells.bind (f := g _ _) (tells_expect hsees))⟩
  | true =>
    have hkind := (eq_of_beq hsees : (p (bump c).1 (bump c).2).2.kind = .rightBracket)
    have hreads' := reads_bump halong (by rw [hkind]; decide)
    have hclose := hreads'.kind.trans hkind
    have hclose' := hreads'.same.kind.symm.trans hclose
    have hopen' := hreads.same.kind.symm.trans hopen
    rw [hreads'.left] at hleft
    rw [hreads'.right] at hright
    have hboth : closesBeforeEquals 0 c.upcoming = closesBeforeEquals 0 c'.upcoming := by
      rw [hreads.left, hreads.right, closesBeforeEquals_open hopen, closesBeforeEquals_open hopen',
        hleft 0, hright 0, closesBeforeEquals_last hclose, closesBeforeEquals_last hclose',
        head_equal hreads'.along]
    have hkept' : V.Kept c c' _ _ := ⟨hreads'.along, fun _ n => by
      rw [hreads.left, closesBeforeEquals_open hopen, hleft (n + 1), closesBeforeEquals_close hclose],
      fun _ n => by
      rw [hreads.right, closesBeforeEquals_open hopen', hright (n + 1),
        closesBeforeEquals_close hclose']⟩
    have hsees' := (halong.sees_eq (halong.inside_of_kind (by rw [hkind]; decide))).trans hsees
    have hrun : (do let t ← bump; let a ← p t; let r ← Parse.expect .rightBracket (some t); g t a r) c =
        _ := expect_bind_of_sees (f := g (bump c).1 _) hsees
    have hrun' : (do let t ← bump; let a ← p' t; let r ← Parse.expect .rightBracket (some t); g' t a r)
        c' = _ := expect_bind_of_sees (f := g' (bump c').1 _) hsees'
    rw [hrun, hrun']
    obtain hlost | ⟨hrest, hr⟩ := hg _ _ _ _ (some _) (some _) _ _ hreads.same
      (by rw [Cursor.offset, hreads.token]) hreads'.began ⟨_, hq⟩ (congrArg some hreads'.same.token)
      (.inr rfl) hboth hreads'.along
    · exact .inl hlost
    · exact .inr ⟨hkept'.trans hrest, hr⟩

end Lockstep

end View

end CommandScript
