import CommandScript.Proofs.Lockstep
/-!
# CommandScript — the rules of the grammar side by side

Each rule of the grammar is read in lockstep, as long as what it asks for itself is. Where
the left text is over and the right one goes on, a rule that has to have something reports
that it is missing, and a rule that may have something sees nothing on either side.
-/

namespace CommandScript

-- A rule is a long term, and the search for what it keeps goes through all of it.
set_option synthInstance.maxSize 2000

variable {α β γ δ : Type} {c c' d d' : Cursor}

namespace View

open Grammar Parse

variable {V : View} {opened : Prop}

/-! ## Lists -/

/-- Two lists of the grammar that are read alike. -/
structure Lists (V : View) (l l' : Listing α) (E : Option α → Option α → Prop) : Prop where
  starts : ∀ {c c'}, V.Along c c' → V.Inside c → V.Began c → l'.starts c' = l.starts c
  ends : ∀ {c c'}, V.Along c c' → V.Inside c → V.Began c → l'.ends c' = l.ends c
  element : ∀ {c c'}, c.upcoming ≠ [] → V.Began c →
    V.Lockstep True l.element l'.element c c' fun r r' _ => E r r'
  absent : E none none
  present : ∀ {r r'}, E r r' → r'.isNone = r.isNone

namespace Lockstep

variable {l l' : Listing α} {E : Option α → Option α → Prop} (left right : SeparatedItem α → γ)

/-- What follows an element of a list, or the place of one that is missing. -/
theorem item [Moves l.element] (hl : V.Lists l l' E)
    (hitem : ∀ v v' t t' s s', E v v' → t.map V.left.token = t'.map V.right.token →
      V.left.span s = V.right.span s' → left ⟨v, t, s⟩ = right ⟨v', t', s'⟩)
    {v v' : Option α} {start start' n n' : Nat} (hv : E v v') (hstart : V.start start start')
    (hrounds : ∀ d d', V.Began d → V.Lockstep True (l.rounds (some start) n)
      (l'.rounds (some start') n') d d' fun is is' _ => is.map left = is'.map right)
    (hbegan : V.Began c) :
    V.Lockstep True
      (do
        let separator ← eat .comma
        let item : SeparatedItem α := ⟨v, separator, ← spanFrom start⟩
        let now ← get
        if separator.isNone && !l.ends now then
          if !l.starts now then return [item]
          Parse.report (.of .missingSeparator now.token.span)
        return item :: (← l.rounds (some start) n))
      (do
        let separator ← eat .comma
        let item : SeparatedItem α := ⟨v', separator, ← spanFrom start'⟩
        let now ← get
        if separator.isNone && !l'.ends now then
          if !l'.starts now then return [item]
          Parse.report (.of .missingSeparator now.token.span)
        return item :: (← l'.rounds (some start') n'))
      c c' fun is is' _ => is.map left = is'.map right := by
  have hrest {t t' s s' d d'} (ht : t.map V.left.token = t'.map V.right.token)
      (hs : V.left.span s = V.right.span s') (hbegan : V.Began d) : V.Lockstep True
        (do return ⟨v, t, s⟩ :: (← l.rounds (some start) n))
        (do return ⟨v', t', s'⟩ :: (← l'.rounds (some start') n'))
        d d' fun is is' _ => is.map left = is'.map right := by
    refine .bind (hrounds d d' hbegan) fun is is' _ _ _ _ his => .pure fun _ => ?_
    rw [List.map_cons, List.map_cons, his, hitem _ _ _ _ _ _ hv ht hs]
  refine .along fun hal => .eat_bind (by decide) (.inr (by decide))
    (fun hal => hal.sees_eq_of_notMem (by decide)) (fun t t' d d' hreads _ => ?_) fun _ => ?_
  · refine .spanFrom_bind (V.place_of_start hstart) fun s s' _ _ hs => .get_bind fun _ => ?_
    exact hrest (congrArg some hreads.same.token) hs hreads.began
  · refine .spanFrom_bind (V.place_of_start hstart) fun s s' _ _ hs => ?_
    dsimp only
    refine .of_inside fun hin => .get_bind fun hal => ?_
    refine .ite (by rw [hl.ends hal hin hbegan]) (fun _ => ?_) fun _ => hrest rfl hs hbegan
    refine .ite (by rw [hl.starts hal hin hbegan])
      (fun _ => .pure fun _ => by simp only [List.map_cons, List.map_nil, hitem _ _ none none _ _ hv rfl hs])
      fun _ => ?_
    exact .bind (.report rfl fun he hal => hal.offsets (.inl he)) fun _ _ _ _ _ hon _ =>
      hrest rfl hs (hbegan.onward hon)

/-- A list is read alike on both sides, where something is still open. -/
theorem rounds [Moves l.element] (hl : V.Lists l l' E)
    (hitem : ∀ v v' t t' s s', E v v' → t.map V.left.token = t'.map V.right.token →
      V.left.span s = V.right.span s' → left ⟨v, t, s⟩ = right ⟨v', t', s'⟩)
    {before before' : Option Nat} (hbefore : Option.Rel V.start before before') {n n' : Nat}
    (hn : n ≤ n') (hexact : V.exact → n = n') (hbegan : V.Began c) :
    V.Lockstep True (l.rounds before n) (l'.rounds before' n') c c' fun is is' _ =>
      is.map left = is'.map right := by
  induction n generalizing before before' n' c c' with
  | zero => exact .of_stall (fun he => (hexact he).symm) rfl fun _ _ _ => rfl
  | succ n ih =>
    obtain ⟨n', rfl⟩ : ∃ m, n' = m + 1 := ⟨n' - 1, by omega⟩
    refine .of_inside fun hin => ?_
    unfold Listing.rounds
    refine .get_bind fun hal => ?_
    refine .ite (by rw [hal.atEnd_eq hin, hl.ends hal hin hbegan]) (fun _ => .pure fun _ => rfl)
      fun hend => ?_
    have hne : c.upcoming ≠ [] := fun hnil => hend (by
      rw [Cursor.atEnd, Cursor.sees, hal.kind_of_nil hnil]
      rfl)
    have hoffsets := hal.offsets (.inr hne)
    have hrounds : ∀ d d', V.Began d → V.Lockstep True (l.rounds (some c.offset) n)
        (l'.rounds (some c'.offset) n') d d' fun is is' _ => is.map left = is'.map right :=
      fun d d' hbegan => ih (.some hoffsets) (by omega) (fun he => by have := hexact he; omega) hbegan
    refine .bind (m := fun _ => by dsimp only; infer_instance) (.progressed (.inr hne) hbefore)
      fun goes _ d d' _ hon hgoes => ?_
    obtain ⟨rfl, hup⟩ := hgoes
    refine .ite Iff.rfl (fun _ => .pure fun _ => rfl) fun _ => ?_
    extract_lets behind behind'
    have hmoves : ∀ v, Moves (behind v) := fun v => by
      dsimp only [behind]
      infer_instance
    have hbehind : ∀ v v' d d', E v v' → V.Began d → V.Lockstep True (behind v) (behind' v') d d'
        fun is is' _ => is.map left = is'.map right := fun v v' d d' hv hbegan => by
      have hlist {d d'} (hbegan : V.Began d) :=
        @item _ _ d d' V _ _ E left right _ hl hitem _ _ _ _ n n' hv hoffsets hrounds hbegan
      dsimp only [behind, behind'] at hlist ⊢
      refine .ite (by rw [hl.present hv]) (fun _ => .get_bind fun hal => ?_) fun _ => hlist hbegan
      refine .ite (by rw [hal.sees_eq_of_notMem (by decide)]) (fun _ => .pure fun _ => rfl) fun _ => ?_
      exact .bind .reportHere fun _ _ _ _ _ hon _ => hlist (hbegan.onward hon)
    have hbegan' := hbegan.onward hon
    refine .ite (by rw [hl.starts hal hin hbegan]) (fun _ => ?_) fun _ => ?_
    · exact .bind (hl.element (hup ▸ hne) hbegan') fun v v' _ _ _ hon' hv =>
        hbehind v v' _ _ hv (hbegan'.onward hon')
    · exact hbehind none none d d' hl.absent hbegan'

/-- A list is read alike on both sides, in as many rounds as there are tokens. -/
theorem read [Moves l.element] (hl : V.Lists l l' E)
    (hitem : ∀ v v' t t' s s', E v v' → t.map V.left.token = t'.map V.right.token →
      V.left.span s = V.right.span s' → left ⟨v, t, s⟩ = right ⟨v', t', s'⟩)
    (hbegan : V.Began c) :
    V.Lockstep True l.read l'.read c c' fun is is' _ => is.map left = is'.map right := by
  exact .get_bind fun hal => rounds left right hl hitem .none (Nat.succ_le_succ hal.length_le)
    (fun he => congrArg Nat.succ (hal.length_eq he)) hbegan

end Lockstep

/-! ## Variables and commands -/

/-- What is read for an operand, an expression or a value is the same on both sides, and
where it is a vector, an equals sign follows on both sides or on none. -/
structure Found (V : View) (c c' : Cursor) (r r' : Option Expression) (d : Cursor) : Prop where
  same : V.left.optional r = V.right.optional r'
  began : r.isSome = true → V.Began d
  absent : r = none → V.exact ∨ d.upcoming = c.upcoming
  closed : c.kind = .leftBracket →
    closesBeforeEquals 0 c.upcoming = closesBeforeEquals 0 c'.upcoming

/-- What is asked for is read in lockstep. At the end of a text there is nothing, and a minus
there has no operand. -/
structure Alike (V : View) (rules rules' : (n : Nonterminal) → Parse n.Result) : Prop where
  operand : ∀ {depth argument c c'}, V.Inside c → V.Lockstep False (rules (.operand depth argument))
    (rules' (.operand depth argument)) c c' (V.Found c c')
  expression : ∀ {depth precedence c c'}, V.Inside c →
    V.Lockstep False (rules (.expression depth precedence)) (rules' (.expression depth precedence))
      c c' (V.Found c c')
  value : ∀ {depth c c'}, V.Inside c →
    V.Lockstep False (rules (.value depth)) (rules' (.value depth)) c c' (V.Found c c')
  block : ∀ {depth stop start start' c c'}, V.place start start' →
    V.Lockstep True (rules (.block depth stop start)) (rules' (.block depth stop start')) c c'
      fun b b' _ => V.left.block b = V.right.block b'
  noOperand : ∀ {depth c}, c.upcoming = [] → c.ending.kind = .endOfInput →
    (rules (.operand depth false) c).1 = none
  noExpression : ∀ {depth precedence c}, c.upcoming = [] → c.ending.kind = .endOfInput →
    (rules (.expression depth precedence) c).1 = none
  noValue : ∀ {depth c}, c.upcoming = [] → c.ending.kind = .endOfInput →
    (rules (.value depth) c).1 = none
  minus : ∀ {depth c t}, c.upcoming = [t] → t.kind = .minus → c.ending.kind = .endOfInput →
    ¬ V.exact → V.Lost False (rules (.operand depth true) c).2

/-- An expression that may be missing is there on both sides or on none. -/
theorem optional_cases {r r' : Option Expression} (h : V.left.optional r = V.right.optional r') :
    (r = none ∧ r' = none) ∨
      ∃ e e', r = some e ∧ r' = some e' ∧ V.left.expression e = V.right.expression e' := by
  cases r with
  | none => cases r' with
    | none => exact .inl ⟨rfl, rfl⟩
    | some e' => cases h
  | some e => cases r' with
    | none => cases h
    | some e' => exact .inr ⟨e, e', rfl, rfl, Option.some.inj h⟩

theorem upcoming_of_not_inside (h : ¬ V.Inside c) : c.upcoming = [] :=
  not_not.1 fun hne => h (.inr hne)

theorem Along.ending_kind (h : V.Along c c') : c.ending.kind = .endOfInput := by
  rw [h.leftEnd, V.leftEnd_kind]

/-- A step goes on from what the one before it read. -/
theorem run_bind {p : Parse α} {f : α → Parse β} {a : α} (h : (p c).1 = a) :
    (p >>= f) c = f a (p c).2 :=
  congrArg (fun r => f r (p c).2) h

theorem tells_of_eq {p : Parse α} {f : α → Parse β} {a : α} (ha : (p c).1 = a)
    (h : (f a).Tells (p c).2) : (p >>= f).Tells c := by
  rw [Parse.Tells, run_bind ha]
  exact h

namespace Lockstep

variable {limit depth : Nat} {self self' : (n : Nonterminal) → Parse n.Result} [Forward self]
  (hself : V.Alike self self')
include hself

theorem required {m m' : String} :
    V.Lockstep opened (required self depth m) (required self' depth m') c c' fun r r' _ =>
      V.left.optional r = V.right.optional r' := by
  by_cases hin : V.Inside c
  · unfold Grammar.required
    refine .bind (m := fun r => by cases r <;> infer_instance) (hself.value hin).weaken
      fun r r' d d' _ _ hr => ?_
    obtain ⟨rfl, rfl⟩ | ⟨e, e', rfl, rfl, -⟩ := optional_cases hr.same
    · exact .bind .reportHere fun _ _ _ _ _ _ _ => .pure fun _ => rfl
    · exact .pure fun _ => hr.same
  · refine .along fun hal => .of_not_inside hin ?_
    unfold Grammar.required
    have hnone : (self (.value depth) c).1 = none :=
      hself.noValue (upcoming_of_not_inside hin) hal.ending_kind
    exact tells_of_eq hnone (.bind (tells_reportHere _ _ _))

/-- What has to be here between a token that opens and one that closes. -/
theorem enclosed {k : TokenKind} {t t' : Token} {m m' : String} (hend : k ≠ .endOfInput)
    (hk : k ∉ squares) {f f' : Option Expression → Option Token → Parse α} {W : α → α → Cursor → Prop}
    [∀ e t, Moves (f e t)]
    (hf : ∀ e e' r r' d d', c.Onward d → V.left.optional e = V.right.optional e' →
      r.map V.left.token = r'.map V.right.token → V.Lockstep opened (f e r) (f' e' r') d d' W) :
    V.Lockstep opened
      (do
        let inner ← Grammar.required self depth m
        let right ← Parse.expect k (some t)
        f inner right)
      (do
        let inner ← Grammar.required self' depth m'
        let right ← Parse.expect k (some t')
        f' inner right) c c' W :=
  .bind (.required hself) fun _ _ _ _ _ hon he => .bind (.expect hend (.inr hk))
    fun _ _ _ _ _ hon' hr => hf _ _ _ _ _ _ (hon.trans hon') he hr.1

theorem varRoot (hk : c.kind = .identifier ∨ c.kind = .dollar) :
    V.Lockstep opened (varRoot self depth) (varRoot self' depth) c c' fun r r' d =>
      V.left.root r = V.right.root r' ∧ V.Began d := by
  have hend : c.kind ≠ .endOfInput := by obtain hk | hk := hk <;> rw [hk] <;> decide
  have hplain : c.kind ∉ squares := by obtain hk | hk := hk <;> rw [hk] <;> decide
  unfold Grammar.varRoot
  dsimp only
  refine .get_bind fun hal => .ite (by rw [hal.sees_eq (hal.inside_of_kind hend)]) (fun _ => ?_) fun _ => ?_
  · refine .bump_bind hend (.inr hplain) fun t t' d d' hreads => .pure fun _ => ⟨?_, hreads.began⟩
    rw [Relocation.root, Relocation.root, hreads.same.token]
  refine .bump_bind hend (.inr hplain) fun t t' d d' hreads => .get_bind fun hal => ?_
  have hbegan := hreads.began
  have hplace := hreads.same.place_start
  refine .ite (by rw [hal.tight_eq hbegan (by decide)]) (fun hname => ?_) fun _ => ?_
  · have hkind : d.kind = .identifier := by simp [Cursor.sees] at hname; exact hname.1
    refine .bump_bind (by rw [hkind]; decide) (.inr (by rw [hkind]; decide)) fun u u' e e' hname => ?_
    refine .spanFrom_bind hplace fun s s' _ _ hs => .pure fun _ => ⟨?_, hname.began⟩
    simp only [Relocation.root, Option.map_some, hreads.same.token, hname.same.token, hs]
  refine .ite (by rw [hal.tight_eq hbegan (by decide)]) (fun hparen => ?_) fun _ => ?_
  · have hkind : d.kind = .leftParen := by simp [Cursor.sees] at hparen; exact hparen.1
    refine .bump_bind (by rw [hkind]; decide) (.inr (by rw [hkind]; decide)) fun u u' e e' hleft => ?_
    refine .enclosed hself (by decide) (by decide) fun i i' r r' f f' hon hi hr => ?_
    refine .spanFrom_bind hplace fun s s' _ _ hs => .pure fun _ => ⟨?_, hleft.began.onward hon⟩
    simp only [Relocation.root, Relocation.brackets, hreads.same.token, hleft.same.token, hi, hr, hs]
  · refine .bind .reportHere fun _ _ e e' _ hon _ => ?_
    refine .spanFrom_bind hplace fun s s' _ _ hs => .pure fun _ => ⟨?_, hbegan.onward hon⟩
    simp only [Relocation.root, Option.map_none, hreads.same.token, hs]

theorem varSuffix (hk : c.kind = .dot) :
    V.Lockstep opened (varSuffix self depth) (varSuffix self' depth) c c' fun s s' _ =>
      V.left.suffix s = V.right.suffix s' := by
  unfold Grammar.varSuffix
  dsimp only
  refine .bump_bind (by rw [hk]; decide) (.inr (by rw [hk]; decide)) fun t t' d d' hreads => ?_
  have hplace := hreads.same.place_start
  by_cases hin : V.Inside d
  · refine .get_bind fun hal => .ite (by rw [hal.sees_eq hin]) (fun hname => ?_) fun _ => ?_
    · have hkind : d.kind = .identifier := by simpa [Cursor.sees] using hname
      refine .bump_bind (by rw [hkind]; decide) (.inr (by rw [hkind]; decide)) fun u u' e e' hname => ?_
      refine .spanFrom_bind hplace fun s s' _ _ hs => .pure fun _ => ?_
      simp only [Relocation.suffix, Option.map_some, hreads.same.token, hname.same.token, hs]
    refine .ite (by rw [hal.sees_eq hin]) (fun hbracket => ?_) fun _ => ?_
    · have hkind : d.kind = .leftBracket := by simpa [Cursor.sees] using hbracket
      refine .bracketed hkind (fun _ _ _ _ _ => .required hself) fun u u' i i' r r' f f' hleft _ _ hi hr _ _ => ?_
      refine .spanFrom_bind hplace fun s s' _ _ hs => .pure fun _ => ?_
      simp only [Relocation.suffix, Relocation.brackets, hreads.same.token, hleft.token, hi.choose_spec, hr, hs]
    · refine .bind .reportHere fun _ _ e e' _ hon _ => ?_
      refine .spanFrom_bind hplace fun s s' _ _ hs => .pure fun _ => ?_
      simp only [Relocation.suffix, Option.map_none, hreads.same.token, hs]
  · refine .along fun hal => .of_not_inside hin ?_
    have hnil := upcoming_of_not_inside hin
    change Parse.Tells (if d.sees .identifier = true then _ else _) d
    rw [hal.sees_of_nil hnil (by decide), if_neg (by decide), hal.sees_of_nil hnil (by decide),
      if_neg (by decide)]
    exact .bind (tells_reportHere _ _ _)

theorem varSuffixes {n n' : Nat} (hn : n ≤ n') (hexact : V.exact → n = n') :
    V.Lockstep opened (varSuffixes self depth n) (varSuffixes self' depth n') c c' fun ss ss' _ =>
      V.left.suffixes ss = V.right.suffixes ss' := by
  induction n generalizing n' c c' with
  | zero => exact .of_stall (fun he => (hexact he).symm) rfl fun _ _ _ => rfl
  | succ n ih =>
    obtain ⟨n', rfl⟩ : ∃ m, n' = m + 1 := ⟨n' - 1, by omega⟩
    unfold Grammar.varSuffixes
    refine .get_bind fun hal => .ite (by rw [hal.sees_eq_of_notMem (by decide)]) (fun hdot => ?_)
      fun _ => .pure fun _ => rfl
    refine .bind (.varSuffix hself (by simpa [Cursor.sees] using hdot)) fun s s' _ _ _ _ hs => ?_
    refine .bind (ih (by omega) fun he => by have := hexact he; omega) fun ss ss' _ _ _ _ hss => ?_
    exact .pure fun _ => by rw [Relocation.suffixes, Relocation.suffixes, hs, hss]

theorem var (hk : c.kind = .identifier ∨ c.kind = .dollar) :
    V.Lockstep opened (var self depth) (var self' depth) c c' fun v v' d =>
      V.left.var v = V.right.var v' ∧ V.start v.span.start v'.span.start ∧ V.Began d := by
  have hend : c.kind ≠ .endOfInput := by obtain hk | hk := hk <;> rw [hk] <;> decide
  unfold Grammar.var
  refine .get_bind fun hal => .bind (.varRoot hself hk) fun r r' d d' _ _ hr => .get_bind fun hal' => ?_
  have hstart := hal.offsets (.inr (hal.upcoming_ne_nil hend))
  refine .bind (.varSuffixes hself (Nat.succ_le_succ hal'.length_le)
    fun he => congrArg Nat.succ (hal'.length_eq he)) fun ss ss' e e' _ hon hss => ?_
  refine .spanFrom_bind (V.place_of_start hstart) fun s s' hs hs' hspan => .pure fun _ => ⟨?_, ?_, ?_⟩
  · rw [Relocation.var, Relocation.var, hr.1, hss, hspan]
  · rw [Var.span, Var.span, hs, hs']
    exact hstart
  · exact hr.2.onward hon

omit hself in
theorem lost_bind {p : Parse α} {f : α → Parse β} [m : ∀ a, Moves (f a)] (h : V.Lost opened (p c).2) :
    V.Lost opened ((p >>= f) c).2 :=
  h.onward ((m _).onward _)

omit hself in
/-- A round is lost where it does not begin behind the one before, and else with what it reads. -/
theorem lost_progressed {before : Option Nat} {f : Bool → Parse β} [m : ∀ goes, Moves (f goes)]
    (he : ¬ V.exact) (h : V.Lost opened (f true c).2) :
    V.Lost opened ((Parse.progressed before >>= f) c).2 := by
  cases before with
  | none => exact h
  | some before =>
    by_cases hlt : before < c.offset
    · have hrun : Parse.progressed (some before) c = (true, c) := by
        change (if before < c.offset then _ else _ : Parse Bool) c = _
        rw [if_pos hlt]
        rfl
      simp only [Bind.bind, StateT.bind, hrun]
      exact h
    · refine lost_bind ⟨he, .inr (.inl ?_)⟩
      change ((if before < c.offset then _ else _ : Parse Bool) c).2.stalled = true
      rw [if_neg hlt]
      rfl

/-- A minus that ends the left text is an argument without its operand. -/
theorem lost_arguments {t : Token} {before : Option Nat} {n : Nat} (hal : V.Along c c') (he : ¬ V.exact)
    (hends : endsArguments c = false) (ht : c.upcoming = [t]) (hminus : t.kind = .minus) :
    V.Lost opened (arguments self depth before (n + 1) c).2 := by
  have hlost : V.Lost opened (self (.operand depth true) c).2 :=
    (hself.minus ht hminus hal.ending_kind he).imp False.elim
  unfold Grammar.arguments
  change V.Lost opened ((if endsArguments c = true then _ else _ : Parse (List Expression)) c).2
  rw [if_neg (by rw [hends]; decide)]
  refine lost_progressed (m := fun goes => ?_) he ?_
  · split
    · infer_instance
    · exact @Moves.bind _ _ _ _ _ fun r => by cases r <;> infer_instance
  · exact lost_bind (m := fun r => by cases r <;> infer_instance) hlost

theorem arguments {before before' : Option Nat} {n n' : Nat} (hbegan : V.Began c)
    (hbefore : Option.Rel V.start before before') (hn : n ≤ n') (hexact : V.exact → n = n') :
    V.Lockstep opened (arguments self depth before n) (arguments self' depth before' n') c c'
      fun es es' _ => V.left.arguments es = V.right.arguments es' := by
  induction n generalizing before before' n' c c' with
  | zero => exact .of_stall (fun he => (hexact he).symm) rfl fun _ _ _ => rfl
  | succ n ih =>
    obtain ⟨n', rfl⟩ : ∃ m, n' = m + 1 := ⟨n' - 1, by omega⟩
    refine .along fun hal => ?_
    obtain hends | ⟨he, hends, t, ht, hminus⟩ := hal.endsArguments_eq hbegan
    swap
    · exact fun hal => .inl (lost_arguments hself hal he hends ht hminus)
    unfold Grammar.arguments
    refine .get_bind fun _ => .ite (by rw [hends]) (fun _ => .pure fun _ => rfl) fun hgo => ?_
    have hne : c.upcoming ≠ [] := fun hnil => hgo (by
      rw [endsArguments, if_pos (by simp [endsStatement, Cursor.seesAny, hal.kind_of_nil hnil, statementEnd])])
    have hoffsets := hal.offsets (.inr hne)
    refine .bind (m := fun goes => ?_) (.progressed (.inr hne) hbefore) fun goes _ d d' hal' hon hgoes => ?_
    · split
      · infer_instance
      · exact @Moves.bind _ _ _ _ _ fun r => by cases r <;> infer_instance
    obtain ⟨rfl, hup⟩ := hgoes
    refine .ite Iff.rfl (fun _ => .pure fun _ => rfl) fun _ => ?_
    refine .bind (m := fun r => by cases r <;> infer_instance) (hself.operand (.inr (hup ▸ hne))).weaken
      fun r r' e e' _ hon' hr => ?_
    obtain ⟨rfl, rfl⟩ | ⟨a, a', rfl, rfl, ha⟩ := optional_cases hr.same
    · exact .pure fun _ => rfl
    · refine .bind (ih ((hbegan.onward hon).onward hon') (.some hoffsets) (by omega)
        fun he => by have := hexact he; omega) fun es es' _ _ _ _ hes => .pure fun _ => ?_
      rw [Relocation.arguments, Relocation.arguments, hes, ha]

theorem command {callee callee' : Var} (hcallee : V.left.var callee = V.right.var callee')
    (hstart : V.start callee.span.start callee'.span.start) (hbegan : V.Began c) :
    V.Lockstep opened (command self depth callee) (command self' depth callee') c c' fun k k' _ =>
      V.left.command k = V.right.command k' := by
  refine .get_bind fun hal => .bind (.arguments hself hbegan .none (Nat.succ_le_succ hal.length_le)
    fun he => congrArg Nat.succ (hal.length_eq he)) fun es es' _ _ _ _ hes => ?_
  refine .spanFrom_bind (V.place_of_start hstart) fun s s' _ _ hs => .pure fun _ => ?_
  rw [Relocation.command, Relocation.command, hcallee, hes, hs]

theorem call (hk : c.kind = .ampersand) :
    V.Lockstep opened (call self depth) (call self' depth) c c' fun k k' d =>
      V.left.call k = V.right.call k' ∧ V.Began d := by
  unfold Grammar.call
  refine .bump_bind (by rw [hk]; decide) (.inr (by rw [hk]; decide)) fun t t' d d' hreads => ?_
  by_cases hin : V.Inside d
  · refine .get_bind fun hal => ?_
    extract_lets behind behind'
    have hmoves : ∀ r, Moves (behind r) := fun r => by
      dsimp only [behind]
      infer_instance
    have hbehind : ∀ r r' e e', d.Onward e → V.left.optionalCommand r = V.right.optionalCommand r' →
        V.Lockstep opened (behind r) (behind' r') e e' fun k k' d =>
          V.left.call k = V.right.call k' ∧ V.Began d := fun r r' e e' hon hr => by
      refine .spanFrom_bind hreads.same.place_start fun s s' _ _ hs => .pure fun _ => ⟨?_, ?_⟩
      · rw [Relocation.call, Relocation.call, hreads.same.token, hr, hs]
      · exact hreads.began.onward hon
    refine .ite (by rw [hal.seesAny_eq hin]) (fun hsees => ?_) fun _ => ?_
    · have hkind : d.kind = .identifier ∨ d.kind = .dollar := by simpa [Cursor.seesAny] using hsees
      refine .bind (Q := fun r r' _ => V.left.optionalCommand r = V.right.optionalCommand r') (.map ?_)
        fun r r' e e' _ hon hr => hbehind r r' e e' hon hr
      refine .bind (.var hself hkind) fun v v' e e' _ _ hv => ?_
      exact (Lockstep.command hself hv.1 hv.2.1 hv.2.2).imp fun k k' _ hk => congrArg some hk
    · exact .bind .reportHere fun _ _ e e' _ hon _ => hbehind none none e e' hon rfl
  · refine .along fun hal => .of_not_inside hin ?_
    have hnil := upcoming_of_not_inside hin
    change Parse.Tells (if d.seesAny [.identifier, .dollar] = true then _ else _) d
    rw [Cursor.seesAny, hal.kind_of_nil hnil, if_neg (by decide)]
    exact .bind (tells_reportHere _ _ _)

/-! ## Expressions -/

theorem operators {precedence chain : Nat} {left left' : Expression} {n n' : Nat} (hbegan : V.Began c)
    (hleft : V.left.expression left = V.right.expression left') (hn : n ≤ n')
    (hexact : V.exact → n = n') :
    V.Lockstep opened (operators self depth precedence chain left n)
      (operators self' depth precedence chain left' n') c c' fun e e' d =>
        V.left.expression e = V.right.expression e' ∧ V.Began d := by
  induction n generalizing chain left left' n' c c' with
  | zero => exact .of_stall (fun he => (hexact he).symm) rfl fun he _ _ => ⟨hleft, .inl he⟩
  | succ n ih =>
    obtain ⟨n', rfl⟩ : ∃ m, n' = m + 1 := ⟨n' - 1, by omega⟩
    unfold Grammar.operators
    refine .get_bind fun hal => .ite (by rw [hal.seesOperator_eq hbegan])
      (fun _ => .pure fun _ => ⟨hleft, hbegan⟩) fun hsees => ?_
    have hkind : c.kind ≠ .endOfInput := fun hk => by simp [seesOperator, hk, TokenKind.precedence?] at hsees
    rw [hal.kind_eq (hal.inside_of_kind hkind)]
    cases hp : c.kind.precedence? with
    | none => exact .pure fun _ => ⟨hleft, hbegan⟩
    | some p =>
      have hplain : c.kind ∉ squares := by
        intro hsquare
        simp only [squares, List.mem_cons, List.not_mem_nil, or_false] at hsquare
        obtain hk | hk := hsquare <;> (rw [hk] at hp; cases hp)
      dsimp only
      refine .ite Iff.rfl (fun _ => .pure fun _ => ⟨hleft, hbegan⟩) fun _ => ?_
      refine .bump_bind hkind (.inr hplain) fun t t' d d' hreads => ?_
      rw [← hreads.same.kind]
      have hrest : ∀ r r' e e', d.Onward e → V.left.optional r = V.right.optional r' → V.Lockstep opened
          (do
            let joined := Expression.binary left t r (← Parse.spanFrom left.span.start)
            if r.isNone then return joined
            operators self depth precedence (chain + 1) joined n)
          (do
            let joined := Expression.binary left' t' r' (← Parse.spanFrom left'.span.start)
            if r'.isNone then return joined
            operators self' depth precedence (chain + 1) joined n')
          e e' fun e e' d => V.left.expression e = V.right.expression e' ∧ V.Began d :=
        fun r r' e e' hon hr => by
        have hspan : V.left.span left.span = V.right.span left'.span := by
          rw [← Relocation.span_expression, hleft, Relocation.span_expression]
        refine .spanFrom_bind ((V.span_eq _ _).1 hspan).1 fun s s' _ _ hs => ?_
        have hjoined : V.left.expression (.binary left t r s) = V.right.expression (.binary left' t' r' s') := by
          rw [Relocation.expression, Relocation.expression, hleft, hreads.same.token, hr, hs]
        have hnone : r'.isNone = r.isNone := by
          obtain ⟨rfl, rfl⟩ | ⟨_, _, rfl, rfl, -⟩ := optional_cases hr <;> rfl
        refine .ite (by rw [hnone]) (fun _ => .pure fun _ => ⟨hjoined, hreads.began.onward hon⟩) fun _ => ?_
        exact ih (hreads.began.onward hon) hjoined (by omega) fun he => by have := hexact he; omega
      by_cases hin : V.Inside d
      · refine .bind (hself.expression hin).weaken fun r r' e e' _ hon hr => ?_
        obtain ⟨rfl, rfl⟩ | ⟨a, a', rfl, rfl, ha⟩ := optional_cases hr.same
        · exact .bind .reportHere fun _ _ e e' _ hon' _ => hrest none none e e' (hon.trans hon') rfl
        · exact hrest (some a) (some a') e e' hon hr.same
      · refine .along fun hal => .of_not_inside hin ?_
        exact tells_of_eq (hself.noExpression (upcoming_of_not_inside hin) hal.ending_kind)
          (.bind (tells_reportHere _ _ _))

theorem operatorChain {precedence : Nat} {left left' : Expression} (hbegan : V.Began c)
    (hleft : V.left.expression left = V.right.expression left') :
    V.Lockstep opened (operatorChain self depth precedence left)
      (operatorChain self' depth precedence left') c c' fun e e' d =>
        V.left.expression e = V.right.expression e' ∧ V.Began d :=
  .get_bind fun hal => .operators hself hbegan hleft (Nat.succ_le_succ hal.length_le)
    fun he => congrArg Nat.succ (hal.length_eq he)

theorem expression {precedence : Nat} (hin : V.Inside c) :
    V.Lockstep opened (expression self depth precedence) (expression self' depth precedence) c c'
      (V.Found c c') := by
  unfold Grammar.expression
  refine .bind (m := fun r => by cases r <;> infer_instance) (hself.operand hin).weaken
    fun r r' d d' _ _ hr => ?_
  obtain ⟨rfl, rfl⟩ | ⟨e, e', rfl, rfl, he⟩ := optional_cases hr.same
  · exact .pure fun _ => ⟨rfl, (fun h => by cases h), hr.absent, hr.closed⟩
  · exact .map ((Lockstep.operatorChain hself (hr.began rfl) he).imp fun e e' d h =>
      ⟨congrArg some h.1, fun _ => h.2, (fun h => by cases h), hr.closed⟩)

theorem value (hin : V.Inside c) :
    V.Lockstep opened (value self depth) (value self' depth) c c' (V.Found c c') := by
  refine .get_bind fun hal => .ite (by rw [hal.sees_eq hin]) (fun hsees => ?_)
    fun _ => (hself.expression hin).weaken
  have hk : c.kind = .ampersand := by simpa [Cursor.sees] using hsees
  refine .bind (.call hself hk) fun k k' d d' _ _ h => .pure fun _ =>
    ⟨?_, fun _ => h.2, (fun h => by cases h), fun hb => ?_⟩
  · rw [Relocation.optional, Relocation.optional, Relocation.expression, Relocation.expression, h.1]
  · rw [hk] at hb
    cases hb

theorem braced (hk : c.kind = .leftBrace) :
    V.Lockstep opened (braced limit self depth) (braced limit self' depth) c c' fun b b' d =>
      V.left.braced b = V.right.braced b' ∧ V.Began d := by
  unfold Grammar.braced
  dsimp only
  refine .bump_bind (by rw [hk]; decide) (.inr (by rw [hk]; decide)) fun t t' d d' hreads => ?_
  refine .ite Iff.rfl (fun _ => ?_) fun _ => ?_
  · refine .bind .tooDeep fun k k' e e' _ hon hskip => ?_
    refine .spanFrom_bind hreads.same.place_stop fun s s' _ _ hs =>
      .pure fun _ => ⟨?_, hreads.began.onward hon⟩
    have hstatements : V.left.statements (k.map Statement.skipped).toList =
        V.right.statements (k'.map Statement.skipped).toList := by
      have hsame := hskip.1
      cases k with
      | none => cases k' with
        | none => rfl
        | some _ => cases hsame
      | some k => cases k' with
        | none => cases hsame
        | some k' =>
          exact congrArg (fun k => [Statement.skipped k]) (Option.some.inj hsame)
    simp only [Relocation.braced, Relocation.brackets, Relocation.block, hreads.same.token,
      hstatements, hs, Option.map_none, Relocation.optionalLast]
  · refine .expect_of_open (by decide) (.inr (by decide)) (hself.block hreads.same.place_stop)
      fun b b' r r' e e' hon hb hr _ => .pure fun _ => ⟨?_, hreads.began.onward hon⟩
    simp only [Relocation.braced, Relocation.brackets, hreads.same.token, hb.choose_spec, hr]

omit hself in
/-- A name with an equals sign behind it stands on both sides or on none. -/
theorem names_eq (hal : V.Along c c') (hin : V.Inside c) :
    (c'.sees .identifier && (c'.ahead 1).kind == .equal) =
      (c.sees .identifier && (c.ahead 1).kind == .equal) := by
  rw [hal.sees_eq hin]
  by_cases hnil : c.upcoming = []
  · rw [hal.sees_of_nil hnil (by decide)]
    rfl
  · rw [hal.ahead_kind hnil (by decide)]

omit [Forward self] in
/-- Where the bracket that the field begins with is closed before an equals sign on the right
only, it is not closed on the left. -/
theorem lost_value (hal : V.Along c c') (hin : V.Inside c) (hk : c.kind = .leftBracket)
    (h : closesBeforeEquals 0 c.upcoming ≠ closesBeforeEquals 0 c'.upcoming) :
    V.Lost opened (self (.value depth) c).2 := by
  have hvalue : V.Lockstep False (self (.value depth)) (self' (.value depth)) c c' _ := hself.value hin
  obtain hlost | ⟨-, hfound⟩ := hvalue hal
  · exact hlost.imp False.elim
  · exact absurd (hfound.closed hk) h

/-- A field without a key is a value. -/
theorem positional (opened : Prop) (depth : Nat) (hin : V.Inside c)
    (hplace : V.place c.offset c'.offset) :
    V.Lockstep opened
      (do
        match ← self (.value depth) with
        | none => Pure.pure none
        | some e => return some (TableField.positional e (← Parse.spanFrom c.offset)))
      (do
        match ← self' (.value depth) with
        | none => Pure.pure none
        | some e => return some (TableField.positional e (← Parse.spanFrom c'.offset)))
      c c' fun r r' _ => V.left.optionalField r = V.right.optionalField r' := by
  refine .bind (m := fun r => by cases r <;> infer_instance) (hself.value hin).weaken
    fun r r' d d' _ _ hr => ?_
  obtain ⟨rfl, rfl⟩ | ⟨e, e', rfl, rfl, he⟩ := optional_cases hr.same
  · exact .pure fun _ => rfl
  · refine .spanFrom_bind hplace fun s s' _ _ hs => .pure fun _ => ?_
    rw [Relocation.optionalField, Relocation.optionalField, Relocation.field, Relocation.field, he, hs]

theorem tableField (hne : c.upcoming ≠ []) :
    V.Lockstep opened (tableField self depth) (tableField self' depth) c c' fun r r' _ =>
      V.left.optionalField r = V.right.optionalField r' := by
  have hin : V.Inside c := .inr hne
  unfold Grammar.tableField
  dsimp only
  refine .get_bind fun hal => ?_
  have hplace := V.place_of_start (hal.offsets (.inr hne))
  refine .ite (by rw [names_eq hal hin]) (fun hname => ?_) fun _ => ?_
  · have hk : c.kind = .identifier := by simp [Cursor.sees] at hname; exact hname.1
    refine .bump_bind (by rw [hk]; decide) (.inr (by rw [hk]; decide)) fun t t' d d' hreads => ?_
    have hequal : d.kind = .equal := by
      rw [hreads.ahead hal] at hname
      exact eq_of_beq (Bool.and_eq_true_iff.1 hname).2
    refine .bump_bind (by rw [hequal]; decide) (.inr (by rw [hequal]; decide)) fun u u' e e' hreads' => ?_
    refine .bind (.required hself) fun v v' _ _ _ _ hv => ?_
    refine .spanFrom_bind hplace fun s s' _ _ hs => .pure fun _ => ?_
    simp only [Relocation.optionalField, Relocation.field, hreads.same.token, hreads'.same.token, hv, hs]
  have hpositional := positional hself opened depth hin hplace
  have hbracket := hal.sees_eq (k := .leftBracket) hin
  cases hsees : c.sees .leftBracket with
  | false =>
    rw [hbracket, hsees]
    exact hpositional
  | true =>
    have hk : c.kind = .leftBracket := eq_of_beq hsees
    rw [hbracket, hsees]
    by_cases hcloses : closesBeforeEquals 0 c.upcoming = closesBeforeEquals 0 c'.upcoming
    · refine .ite (by rw [hcloses]) (fun _ => ?_) fun _ => hpositional
      refine .bracketed hk (fun _ _ _ _ _ => .required hself) fun t t' key key' r r' d d' ht _ _ hkey hr _ _ => ?_
      refine .bind (.expect (by decide) (.inr (by decide))) fun q q' e e' _ _ hq => ?_
      have hsome : q'.isSome = q.isSome := by
        have := congrArg Option.isSome hq.1
        simpa using this.symm
      have hrest : ∀ v v' f f', V.left.optional v = V.right.optional v' → V.Lockstep opened
          (do return some (TableField.keyed ⟨t, r⟩ key q v (← Parse.spanFrom c.offset)))
          (do return some (TableField.keyed ⟨t', r'⟩ key' q' v' (← Parse.spanFrom c'.offset)))
          f f' fun r r' _ => V.left.optionalField r = V.right.optionalField r' := fun v v' f f' hv => by
        refine .spanFrom_bind hplace fun s s' _ _ hs => .pure fun _ => ?_
        simp only [Relocation.optionalField, Relocation.field, Relocation.brackets, ht.token,
          hkey.choose_spec, hr, hq.1, hv, hs]
      refine .ite (by rw [hsome]) (fun _ => ?_) fun _ => hrest none none e e' rfl
      exact .bind (.required hself) fun v v' f f' _ _ hv => hrest v v' f f' hv
    · have hleft : closesBeforeEquals 0 c.upcoming = false := by
        by_contra htrue
        rw [Bool.not_eq_false] at htrue
        exact hcloses (htrue.trans (hal.facing.closesBeforeEquals_of_left htrue).symm)
      rw [hleft]
      exact fun hal => .inl (lost_bind (m := fun r => by cases r <;> infer_instance)
        (lost_value hself hal hin hk hcloses))

omit [Forward self] in
theorem items : V.Lists (items self depth) (items self' depth) fun r r' =>
    V.left.optional r = V.right.optional r' where
  starts hal hin _ := hal.seesAny_eq hin
  ends hal hin _ := hal.sees_eq hin
  element hne _ := (hself.value (.inr hne)).weaken.imp fun _ _ _ hr => hr.same
  absent := rfl
  present hr := by obtain ⟨rfl, rfl⟩ | ⟨_, _, rfl, rfl, -⟩ := optional_cases hr <;> rfl

theorem fields : V.Lists (fields self depth) (fields self' depth) fun r r' =>
    V.left.optionalField r = V.right.optionalField r' where
  starts hal hin _ := hal.seesAny_eq hin
  ends hal hin _ := hal.sees_eq hin
  element hne _ := .tableField hself hne
  absent := rfl
  present {r r'} hr := by cases r <;> cases r' <;> first | rfl | cases hr

omit [Forward self] in
theorem returned : V.Lists (returned self depth) (returned self' depth) fun r r' =>
    V.left.optional r = V.right.optional r' where
  starts {c c'} hal hin hbegan := by
    by_cases hnil : c.upcoming = []
    · have hnone : c.seesAny expressionStart = false := by
        rw [Cursor.seesAny, hal.kind_of_nil hnil]
        decide
      simp only [Grammar.returned, hal.seesAny_eq hin, hnone, Bool.false_and]
    · simp only [Grammar.returned, hal.seesAny_eq hin, hal.onNewLine_eq hbegan hnil]
  ends hal _ hbegan := hal.endsStatement_eq hbegan
  element hne _ := (hself.value (.inr hne)).weaken.imp fun _ _ _ hr => hr.same
  absent := rfl
  present hr := by obtain ⟨rfl, rfl⟩ | ⟨_, _, rfl, rfl, -⟩ := optional_cases hr <;> rfl

omit hself [Forward self] in
theorem parameters : V.Lists parameters parameters fun r r' =>
    r.map V.left.token = r'.map V.right.token where
  starts hal hin _ := hal.sees_eq hin
  ends hal hin _ := hal.sees_eq hin
  element {c c'} hne _ := by
    have heat : V.Lockstep True (Parse.eat .identifier >>= Pure.pure) (Parse.eat .identifier >>= Pure.pure)
        c c' fun r r' _ => r.map V.left.token = r'.map V.right.token :=
      .eat_bind (by decide) (.inr (by decide)) (fun hal => hal.sees_eq (.inr hne))
        (fun t t' d d' hreads _ => .pure fun _ => congrArg some hreads.same.token)
        fun _ => .pure fun _ => rfl
    exact heat
  absent := rfl
  present {r r'} hr := by cases r <;> cases r' <;> first | rfl | cases hr

theorem unary (hk : c.kind = .minus ∨ c.kind = .bang) :
    V.Lockstep opened (unary self depth) (unary self' depth) c c' fun e e' d =>
      V.left.expression e = V.right.expression e' ∧ V.Began d := by
  have hend : c.kind ≠ .endOfInput := by obtain hk | hk := hk <;> rw [hk] <;> decide
  have hplain : c.kind ∉ squares := by obtain hk | hk := hk <;> rw [hk] <;> decide
  unfold Grammar.unary
  refine .bump_bind hend (.inr hplain) fun t t' d d' hreads => ?_
  have hrest : ∀ r r' e e', d.Onward e → V.left.optional r = V.right.optional r' → V.Lockstep opened
      (do return Expression.unary t r (← Parse.spanFrom t.span.start))
      (do return Expression.unary t' r' (← Parse.spanFrom t'.span.start)) e e' fun e e' d =>
        V.left.expression e = V.right.expression e' ∧ V.Began d := fun r r' e e' hon hr => by
    refine .spanFrom_bind hreads.same.place_start fun s s' _ _ hs =>
      .pure fun _ => ⟨?_, hreads.began.onward hon⟩
    rw [Relocation.expression, Relocation.expression, hreads.same.token, hr, hs]
  by_cases hin : V.Inside d
  · refine .bind (m := fun r => by dsimp only; infer_instance) (hself.operand hin).weaken
      fun r r' e e' _ hon hr => ?_
    obtain ⟨rfl, rfl⟩ | ⟨a, a', rfl, rfl, ha⟩ := optional_cases hr.same
    · exact .bind .reportHere fun _ _ e e' _ hon' _ => hrest none none e e' (hon.trans hon') rfl
    · exact hrest (some a) (some a') e e' hon hr.same
  · refine .along fun hal => .of_not_inside hin ?_
    exact tells_of_eq (hself.noOperand (upcoming_of_not_inside hin) hal.ending_kind)
      (.bind (tells_reportHere _ _ _))

theorem group (hk : c.kind = .leftParen) :
    V.Lockstep opened (group self depth) (group self' depth) c c' fun e e' d =>
      V.left.expression e = V.right.expression e' ∧ V.Began d := by
  unfold Grammar.group
  refine .bump_bind (by rw [hk]; decide) (.inr (by rw [hk]; decide)) fun t t' d d' hreads => ?_
  have hrest : ∀ i i' e e', d.Onward e → V.left.optional i = V.right.optional i' → V.Lockstep opened
      (do
        let right ← Parse.expect .rightParen (some t)
        return Expression.group ⟨t, right⟩ i (← Parse.spanFrom t.span.start))
      (do
        let right ← Parse.expect .rightParen (some t')
        return Expression.group ⟨t', right⟩ i' (← Parse.spanFrom t'.span.start)) e e' fun e e' d =>
        V.left.expression e = V.right.expression e' ∧ V.Began d := fun i i' e e' hon hi => by
    refine .bind (.expect (by decide) (.inr (by decide))) fun r r' f f' _ hon' hr => ?_
    refine .spanFrom_bind hreads.same.place_start fun s s' _ _ hs =>
      .pure fun _ => ⟨?_, hreads.began.onward (hon.trans hon')⟩
    simp only [Relocation.expression, Relocation.brackets, hreads.same.token, hi, hr.1, hs]
  refine .get_bind fun hal => .ite (by rw [hal.sees_eq_of_notMem (by decide)])
    (fun _ => hrest none none d d' (.refl d) rfl) fun _ => ?_
  exact .bind (.required hself) fun i i' e e' _ hon hi => hrest i i' e e' hon hi

theorem vector (hk : c.kind = .leftBracket) :
    V.Lockstep opened (vector self depth) (vector self' depth) c c' fun e e' d =>
      V.left.expression e = V.right.expression e' ∧ V.Began d ∧
        closesBeforeEquals 0 c.upcoming = closesBeforeEquals 0 c'.upcoming := by
  unfold Grammar.vector
  refine .bracketed hk (fun t t' d d' hreads => .read V.left.item V.right.item (Lockstep.items hself)
    (fun v v' t t' s s' hv ht hs => ?_) hreads.began)
    fun t t' is is' r r' d d' ht _ hbegan his hr _ hcloses => ?_
  · simp only [Relocation.item, hv, ht, hs]
  · refine .spanFrom_bind ht.place_start fun s s' _ _ hs => .pure fun _ => ⟨?_, hbegan, hcloses⟩
    simp only [Relocation.expression, Relocation.brackets, Relocation.items_eq_map, his.choose_spec, ht.token, hr, hs]

theorem table (hk : c.kind = .leftBrace) :
    V.Lockstep opened (table self depth) (table self' depth) c c' fun e e' d =>
      V.left.expression e = V.right.expression e' ∧ V.Began d := by
  unfold Grammar.table
  refine .bump_bind (by rw [hk]; decide) (.inr (by rw [hk]; decide)) fun t t' d d' hreads => ?_
  refine .expect_of_open (by decide) (.inr (by decide)) (.read V.left.fieldItem V.right.fieldItem
    (Lockstep.fields hself) (fun v v' t t' s s' hv ht hs => ?_) hreads.began)
    fun is is' r r' e e' hon his hr _ => ?_
  · simp only [Relocation.fieldItem, hv, ht, hs]
  · refine .spanFrom_bind hreads.same.place_start fun s s' _ _ hs =>
      .pure fun _ => ⟨?_, hreads.began.onward hon⟩
    simp only [Relocation.expression, Relocation.brackets, Relocation.fields_eq_map, his.choose_spec,
      hreads.same.token, hr, hs]

theorem lambda (hk : c.kind = .pipe) :
    V.Lockstep opened (lambda limit self depth) (lambda limit self' depth) c c' fun e e' d =>
      V.left.expression e = V.right.expression e' ∧ V.Began d := by
  unfold Grammar.lambda
  dsimp only
  refine .bump_bind (by rw [hk]; decide) (.inr (by rw [hk]; decide)) fun t t' d d' hreads => ?_
  refine .expect_of_open (by decide) (.inr (by decide)) (.read V.left.parameter
    V.right.parameter Lockstep.parameters (fun v v' t t' s s' hv ht hs => by simp only [Relocation.parameter, hv, ht, hs]) hreads.began)
    fun is is' r r' e e' hon his hr hpipe => ?_
  have hrest : ∀ b b' f f', d.Onward f → V.left.optionalBraced b = V.right.optionalBraced b' →
      V.Lockstep opened
        (do return Expression.lambda (.mk ⟨t, r⟩ is b (← Parse.spanFrom t.span.start)))
        (do return Expression.lambda (.mk ⟨t', r'⟩ is' b' (← Parse.spanFrom t'.span.start)))
        f f' fun e e' d => V.left.expression e = V.right.expression e' ∧ V.Began d :=
    fun b b' f f' hon hb => by
    refine .spanFrom_bind hreads.same.place_start fun s s' _ _ hs =>
      .pure fun _ => ⟨?_, hreads.began.onward hon⟩
    simp only [Relocation.expression, Relocation.body, Relocation.brackets,
      his.choose_spec, hreads.same.token, hr, hb, hs]
  refine .get_bind fun hal => ?_
  have hin : V.Inside e := by
    by_contra hin
    obtain he | ⟨u, -, hu, hlast⟩ := hpipe
    · exact hin (.inl (tail_nil he))
    · refine hal.bar (fun htail => hin (.inl htail)) u ?_ hu
      rw [upcoming_of_not_inside hin, hlast]
      rfl
  refine .ite (by rw [hal.sees_eq hin]) (fun hbrace => ?_) fun _ => hrest none none e e' hon rfl
  have hkind : e.kind = .leftBrace := eq_of_beq hbrace
  refine .bind (Q := fun b b' _ => V.left.optionalBraced b = V.right.optionalBraced b') (.map ?_)
    fun b b' f f' _ hon' hb => hrest b b' f f' (hon.trans hon') hb
  exact (Lockstep.braced hself hkind).imp fun b b' _ hb => congrArg some hb.1

theorem operand {argument : Bool} (hin : V.Inside c) :
    V.Lockstep opened (operand limit self depth argument) (operand limit self' depth argument) c c'
      (V.Found c c') := by
  unfold Grammar.operand
  refine .ite Iff.rfl (fun _ => .along fun hal => ?_) fun _ => .get_bind fun hal => ?_
  · refine .bind .tooDeep fun k k' d d' _ _ hskip => .pure fun _ => ⟨?_, fun _ => .inl hskip.2, fun _ => .inl hskip.2, fun _ =>
      hal.facing.closesBeforeEquals_eq (tail_nil hskip.2) 0⟩
    have hsame := hskip.1
    cases k <;> cases k' <;> first | rfl | cases hsame | skip
    exact congrArg (fun k => some (Expression.skipped k)) (Option.some.inj hsame)
  have hsome : ∀ {p p' : Parse Expression}, c.kind ≠ .leftBracket →
      V.Lockstep opened p p' c c' (fun e e' d => V.left.expression e = V.right.expression e' ∧ V.Began d) →
      V.Lockstep opened (some <$> p) (some <$> p') c c' (V.Found c c') := fun hk h =>
    .map (h.imp fun e e' d he => ⟨congrArg some he.1, fun _ => he.2, (fun h => by cases h), fun hb => absurd hb hk⟩)
  have hone : ∀ {f : Token → Expression}, c.kind ≠ .endOfInput → c.kind ∉ squares →
      (∀ t t', V.left.token t = V.right.token t' → V.left.expression (f t) = V.right.expression (f t')) →
      V.Lockstep opened (do return some (f (← bump))) (do return some (f (← bump))) c c' (V.Found c c') :=
    fun hend hplain hf => .bump_bind hend (.inr hplain) fun t t' d d' hreads => .pure fun _ =>
      ⟨congrArg some (hf t t' hreads.same.token), fun _ => hreads.began, (fun h => by cases h), fun hb => by
        rw [hb] at hplain
        exact absurd (by decide) hplain⟩
  have hvar : c.kind = .identifier ∨ c.kind = .dollar → V.Lockstep opened
      (do return some (Expression.var (← Grammar.var self (depth + 1))))
      (do return some (Expression.var (← Grammar.var self' (depth + 1)))) c c' (V.Found c c') := fun hk =>
    .bind (.var hself hk) fun v v' d d' _ _ hv => .pure fun _ =>
      ⟨by rw [Relocation.optional, Relocation.optional, Relocation.expression, Relocation.expression, hv.1],
        fun _ => hv.2.2, (fun h => by cases h), fun hb => by obtain hk | hk := hk <;> (rw [hk] at hb; cases hb)⟩
  rw [hal.kind_eq hin]
  split
  next hk => exact hone (by rw [hk]; decide) (by rw [hk]; decide) fun _ _ h => congrArg Expression.nil h
  next hk => exact hone (by rw [hk]; decide) (by rw [hk]; decide) fun _ _ h => congrArg Expression.boolean h
  next hk => exact hone (by rw [hk]; decide) (by rw [hk]; decide) fun _ _ h => congrArg Expression.boolean h
  next hk => exact hone (by rw [hk]; decide) (by rw [hk]; decide) fun _ _ h => congrArg Expression.number h
  next hk => exact hone (by rw [hk]; decide) (by rw [hk]; decide) fun _ _ h => congrArg Expression.string h
  next hk =>
    have hne := hal.upcoming_ne_nil (by rw [hk]; decide)
    have hdot : (c'.ahead 1).kind != .dot ↔ (c.ahead 1).kind != .dot := by
      rw [bne, bne, hal.ahead_kind hne (by decide)]
    refine .ite (by rw [Bool.and_eq_true, Bool.and_eq_true, hdot]) (fun _ => ?_) fun _ => hvar (.inl hk)
    exact hone (by rw [hk]; decide) (by rw [hk]; decide) fun _ _ h => congrArg Expression.string h
  next hk => exact hvar (.inr hk)
  next hk => exact hsome (by rw [hk]; decide) (.group hself hk)
  next hk => exact .map ((Lockstep.vector hself hk).imp fun e e' d he =>
      ⟨congrArg some he.1, fun _ => he.2.1, (fun h => by cases h), fun _ => he.2.2⟩)
  next hk => exact hsome (by rw [hk]; decide) (.table hself hk)
  next hk => exact hsome (by rw [hk]; decide) (.lambda hself hk)
  next hk => exact hsome (by rw [hk]; decide) (.unary hself (.inl hk))
  next hk => exact hsome (by rw [hk]; decide) (.unary hself (.inr hk))
  next hk =>
    refine hone (f := fun t => .skipped (.one t)) (by rw [hk]; decide) (by rw [hk]; decide) fun t t' h => ?_
    have hspan : V.left.span t.span = V.right.span t'.span := congrArg Token.span h
    simp only [Relocation.expression, Relocation.skipped, Skipped.one, List.map_cons, List.map_nil, h, hspan]
  next => exact .pure fun hal => ⟨rfl, (fun h => by cases h), fun _ => .inr rfl, fun hb => by simp_all⟩

end Lockstep

end View

end CommandScript
