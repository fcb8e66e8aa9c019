import CommandScript.Proofs.Known
import CommandScript.Proofs.Written
/-!
# CommandScript — expressions for data

An expression denotes a datum if it evaluates to it in every state, and changes nothing but
the heap, which grows by the new containers (`Denotes`). The containers are new ones each
time, so it is not one value that is denoted.

Each lemma is about one form of expression, given by what its tokens say.
-/

namespace CommandScript

variable {σ : Type}

/-- The expression is evaluated to this datum, whatever the state is. The budget has to
exceed the levels of the datum, by one for the sign of a number. -/
def Denotes (host : Host σ) (e : Expression) (d : Datum) : Prop :=
  ∀ (source : String) (s : State σ) (budget : Nat), d.levels + 2 ≤ budget →
    ∃ v h, (Eval.run host budget source (.value e)).Gives s v h ∧ d.Is h v

/-- The field of a table has this key, and an expression for this datum. -/
structure DenotesEntry (host : Host σ) (f : TableField) (entry : Key × Datum) : Prop where
  key : ∀ (source : String) (s : State σ) (budget : Nat) (position : Int), 2 ≤ budget →
    ∃ h, (Eval.fieldKey (Eval.run host budget) source position f).Gives s entry.1.value h
  value : ∃ e, f.value = some e ∧ Denotes host e entry.2

namespace Denotes

open Exec

variable {host : Host σ} {t : Token} {n : Nat} {budget : Nat}

/-- An expression that is evaluated at once, and to what is no container. -/
theorem of_value {e : Expression} {v : Value} {d : Datum}
    (h : ∀ (source : String) (s : State σ) (budget : Nat),
      (Eval.value host (Eval.run host (budget + 1)) source e).Gives s v s.heap)
    (hd : ∀ h, d.Is h v) : Denotes host e d := by
  intro source s budget hbudget
  obtain ⟨n, rfl⟩ : ∃ n, budget = n + 2 := ⟨budget - 2, by omega⟩
  exact ⟨v, s.heap, h source s n, hd _⟩

theorem nil (t : Token) : Denotes host (.nil t) .nil :=
  of_value (v := Value.nil) (fun _ s _ => gives_pure s Value.nil) fun _ => .nil

theorem boolean {b : Bool} (h : (t.kind == .kwTrue) = b) : Denotes host (.boolean t) (.bool b) := by
  subst h
  exact of_value (v := .bool _) (fun _ s _ => gives_pure s _) fun _ => .bool _

/-! ## Numbers -/

theorem length_toDigits_le {k : Nat} (hk : 0 < k) (h : n < Decimal.tenTo k) :
    (Nat.toDigits 10 n).length ≤ k :=
  (Nat.length_toDigits_le_iff (by decide) hk).2 h

/-- **The digits of a number are read as that number.** -/
theorem numberValue?_eq (h : t.spelling = .number n)
    (hn : n < Decimal.tenTo Decimal.digitLimit) : t.numberValue? = some (.int n) := by
  have htext : t.text = String.ofList (Nat.toDigits 10 n) := congrArg Spelling.text h
  have hpoint : (Nat.toDigits 10 n).contains '.' = false := by
    refine Bool.eq_false_iff.2 fun hmem => ?_
    have hmem := List.contains_iff_mem.1 hmem
    have hdigit := Nat.isDigit_of_mem_toDigits (by decide) (by decide) hmem
    exact absurd hdigit (by decide)
  have hlength : (Nat.toDigits 10 n).length ≤ Decimal.digitLimit :=
    length_toDigits_le (by decide) hn
  have hvalue : Decimal.natOfDigits (Nat.toDigits 10 n) = n := by
    rw [Decimal.natOfDigits, ← Nat.ofDigitChars_eq_foldl, Nat.ofDigitChars_ten_toDigits]
  rw [Token.numberValue?, htext, String.toList_ofList]
  rw [hpoint, hvalue, if_pos hlength]
  rfl

/-- A number is what its token denotes. -/
theorem gives_number {k : Number} (h : t.numberValue? = some k)
    (self : String → (t : Task σ) → Exec σ t.Result) (source : String) (s : State σ) :
    (Eval.value host self source (.number t)).Gives s (.number k) s.heap := by
  unfold Eval.value
  dsimp only
  rw [h]
  exact gives_pure s _

/-- A minus before a number gives the negative of the number. -/
theorem gives_negated {k : Number} (h : t.numberValue? = some k) {o : Token} (ho : o.kind = .minus)
    (span : Span) (source : String) (s : State σ) (budget : Nat) :
    (Eval.value host (Eval.run host (budget + 1)) source (.unary o (some (.number t)) span)).Gives s
      (.number k.neg) s.heap := by
  have hoperand :
      (Eval.run host (budget + 1) source (.value (.number t))).Gives s (.number k) s.heap := by
    change (Eval.value host (Eval.run host budget) source (.number t)).Gives s _ _
    exact gives_number h _ source s
  refine hoperand.bind ?_
  rw [ho]
  exact gives_operated rfl span

theorem number (h : t.spelling = .number n) (hn : n < Decimal.tenTo Decimal.digitLimit) :
    Denotes host (.number t) (.int n) :=
  of_value (v := .int n) (fun source s _ => gives_number (numberValue?_eq h hn) _ source s)
    fun _ => .int _

/-- A minus before a number. -/
theorem negative (h : t.spelling = .number n) (hn : n < Decimal.tenTo Decimal.digitLimit)
    {o : Token} (ho : o.kind = .minus) (span : Span) :
    Denotes host (.unary o (some (.number t)) span) (.int (-n)) :=
  of_value (v := .int (-n)) (gives_negated (numberValue?_eq h hn) ho span) fun _ => .int _

/-! ## Strings -/

/-- Escapes are resolved to what was escaped. -/
theorem unescape_flatMap_escaped (cs : List Char) : unescape (cs.flatMap escaped) = cs := by
  induction cs with
  | nil => rfl
  | cons c cs ih =>
    rw [List.flatMap_cons]
    by_cases hescape : needsEscape c = true
    · have hpair : escaped c = ['\\', c] := if_pos hescape
      have hself : escapeMeaning c = c := by
        simp only [needsEscape, Bool.or_eq_true, decide_eq_true_eq] at hescape
        obtain rfl | rfl := hescape <;> rfl
      rw [hpair]
      change escapeMeaning c :: unescape (cs.flatMap escaped) = c :: cs
      rw [hself, ih]
    · have hself : escaped c = [c] := if_neg hescape
      have hbackslash : c ≠ '\\' := by
        rintro rfl
        exact hescape rfl
      rw [hself, List.singleton_append, unescape, ih]
      exact fun _ _ h _ => hbackslash h

/-- Where nothing has to be escaped, a text stands as it is. -/
theorem flatMap_escaped_eq_self {cs : List Char} (h : cs.any needsEscape = false) :
    cs.flatMap escaped = cs := by
  induction cs with
  | nil => rfl
  | cons c cs ih =>
    rw [List.any_cons, Bool.or_eq_false_iff] at h
    have hself : escaped c = [c] := if_neg (by simp [h.1])
    rw [List.flatMap_cons, hself, ih h.2, List.singleton_append]

/-- **A string is read as what was written.** -/
theorem stringValue_eq {s : String} (h : t.spelling = .string s) : t.stringValue = s := by
  have hkind : t.kind = .string := congrArg Spelling.kind h
  have htext : t.text = String.ofList ('"' :: (s.toList.flatMap escaped ++ ['"'])) :=
    congrArg Spelling.text h
  have hopen : t.flags.unterminated = false := congrArg Spelling.unterminated h
  have hescape : t.flags.hasEscape = s.toList.any needsEscape := congrArg Spelling.hasEscape h
  have hbody : t.stringBody = s.toList.flatMap escaped := by
    rw [Token.stringBody, hopen, htext, String.toList_ofList]
    simp
  rw [Token.stringValue, hkind, hbody, hescape]
  split
  next hother => exact absurd rfl hother
  next =>
    split
    next => rw [unescape_flatMap_escaped, String.ofList_toList]
    next hplain =>
      rw [flatMap_escaped_eq_self (by simpa using hplain), String.ofList_toList]

theorem string {s : String} (h : t.spelling = .string s) :
    Denotes host (.string t) (.string s) := by
  have hvalue := stringValue_eq h
  refine of_value (v := .string s) (fun source u budget => ?_) fun _ => .string _
  rw [← hvalue]
  exact gives_pure u _

/-! ## Containers -/

theorem required {e : Expression} {d : Datum} (h : Denotes host e d)
    (hbudget : d.levels + 2 ≤ budget) (source : String) (span : Span) (s : State σ) :
    ∃ v h, (Eval.required (Eval.run host budget) source (some e) span).Gives s v h ∧ d.Is h v :=
  h source s budget hbudget

/-- The items of a vector, one after the other. -/
theorem itemValues {ds : List Datum} {is : Separated Expression}
    (h : List.Forall₂ (fun d i => ∃ e, i.value = some e ∧ Denotes host e d) ds is)
    (hbudget : ∀ d ∈ ds, d.levels + 2 ≤ budget) (source : String) (s : State σ) :
    ∃ vs h, (Eval.itemValues (Eval.run host budget) source is).Gives s vs h ∧
      List.Forall₂ (Datum.Is h) ds vs := by
  induction h generalizing s with
  | nil => exact ⟨[], s.heap, gives_pure s [], .nil⟩
  | @cons d i ds is hi _ ih =>
    obtain ⟨hd, hds⟩ := List.forall_mem_cons.1 hbudget
    obtain ⟨e, he, hdenotes⟩ := hi
    obtain ⟨v, h₁, hv, his⟩ := hdenotes source s budget hd
    obtain ⟨vs, h₂, hvs, hall⟩ := ih hds { s with heap := h₁ }
    have hfirst : (Eval.required (Eval.run host budget) source i.value i.span).Gives s v h₁ := by
      rw [he]
      exact hv
    exact ⟨v :: vs, h₂, hfirst.bind (hvs.bind (gives_pure _ _)), .cons (his.mono hvs.2) hall⟩

theorem vector {ds : List Datum} {is : Separated Expression}
    (h : List.Forall₂ (fun d i => ∃ e, i.value = some e ∧ Denotes host e d) ds is)
    (brackets : Brackets) (span : Span) :
    Denotes host (.vector brackets is span) (.vector ds) := by
  intro source s budget hbudget
  obtain ⟨n, rfl⟩ := Nat.exists_eq_succ_of_ne_zero (Nat.ne_zero_of_lt hbudget)
  have hitems : ∀ d ∈ ds, d.levels + 2 ≤ n := fun d hd => by
    have hle := Datum.levels_le_levelsAll hd
    change Datum.levelsAll ds + 1 + 2 ≤ n + 1 at hbudget
    omega
  obtain ⟨vs, h₁, hvs, hall⟩ := itemValues h hitems source s
  exact ⟨_, _, hvs.bind (gives_newVector { s with heap := h₁ } vs), Datum.is_newVector hall⟩

/-- Under a key that is not there, something is put behind all entries. -/
theorem insert_eq_append {α : Type} {t : Table α} {k : Value} {v : α}
    (h : ∀ p ∈ t.entries, p.1.same k = false) : t.insert k v = ⟨t.entries ++ [(k, v)]⟩ := by
  obtain ⟨entries⟩ := t
  unfold Table.insert
  congr 1
  dsimp only at h ⊢
  induction entries with
  | nil => rfl
  | cons p rest ih =>
    obtain ⟨hp, hrest⟩ := List.forall_mem_cons.1 h
    rw [Table.insertInto, if_neg (by simp [hp]), ih hrest, List.cons_append]

/-- The number of the field behind this one, if that has no key. -/
def nextPosition (position : Int) : TableField → Int
  | .positional .. => position + 1
  | _ => position

/-- The entries of a table, one after the other. -/
theorem fieldEntries {es : List (Key × Datum)} {fs : Separated TableField}
    (h : List.Forall₂ (fun e i => ∃ f, i.value = some f ∧ DenotesEntry host f e) es fs)
    (hbudget : ∀ e ∈ es, e.2.levels + 2 ≤ budget)
    (distinct : es.Pairwise fun e f => e.1.value.same f.1.value = false)
    (present : ∀ e ∈ es, e.2 ≠ .nil) {t : Table Value}
    (fresh : ∀ p ∈ t.entries, ∀ e ∈ es, p.1.same e.1.value = false) (source : String)
    (position : Int) (s : State σ) :
    ∃ entries h,
      (Eval.fieldEntries (Eval.run host budget) source position t fs).Gives s
        ⟨t.entries ++ entries⟩ h ∧
      entries.map (·.1) = (es.map (·.1)).map Key.value ∧
      List.Forall₂ (Datum.Is h) (es.map (·.2)) (entries.map (·.2)) := by
  induction h generalizing s t position with
  | nil =>
    refine ⟨[], s.heap, ?_, rfl, .nil⟩
    rw [List.append_nil]
    exact gives_pure s t
  | @cons e i es fs hi _ ih =>
    obtain ⟨he, hes⟩ := List.forall_mem_cons.1 hbudget
    obtain ⟨hother, hdistinct⟩ := List.pairwise_cons.1 distinct
    obtain ⟨hpresent, hothers⟩ := List.forall_mem_cons.1 present
    obtain ⟨f, hf, hkey, value, hvalue, hdenotes⟩ := hi
    obtain ⟨item, separator, span⟩ := i
    obtain rfl : item = some f := hf
    obtain ⟨h₁, hk⟩ := hkey source s budget position (by omega)
    obtain ⟨v, h₂, hv, his⟩ := hdenotes.required he source f.span { s with heap := h₁ }
    have hv' : (Eval.required (Eval.run host budget) source f.value f.span).Gives
        { s with heap := h₁ } v h₂ := by
      rw [hvalue]
      exact hv
    -- a field without a value would leave its key out
    have hnil : v ≠ .nil := by
      rintro rfl
      cases hd : e.2 <;> rw [hd] at his hpresent
      case nil => exact hpresent rfl
      all_goals cases his
    have hinsert : t.insert e.1.value v = ⟨t.entries ++ [(e.1.value, v)]⟩ :=
      insert_eq_append fun p hp => fresh p hp e List.mem_cons_self
    have hfresh : ∀ p ∈ (t.insert e.1.value v).entries, ∀ e' ∈ es, p.1.same e'.1.value = false := by
      rw [hinsert]
      refine List.forall_mem_append.2 ⟨fun p hp e' he' => ?_, List.forall_mem_singleton.2 hother⟩
      exact fresh p hp e' (List.mem_cons_of_mem _ he')
    obtain ⟨entries, h₃, hgives, hkeys, hall⟩ :=
      ih hes hdistinct hothers hfresh (nextPosition position f) { s with heap := h₂ }
    rw [hinsert, List.append_assoc] at hgives
    refine ⟨(e.1.value, v) :: entries, h₃, hk.bind (hv'.bind ?_), congrArg (e.1.value :: ·) hkeys,
      .cons (his.mono hgives.2) hall⟩
    split
    · exact absurd rfl hnil
    · rw [hinsert]
      cases f <;> exact hgives

/-- **A table of such fields**: its entries are new ones in the order of the fields. -/
theorem table {es : List (Key × Datum)} {fs : Separated TableField}
    (h : List.Forall₂ (fun e i => ∃ f, i.value = some f ∧ DenotesEntry host f e) es fs)
    (distinct : es.Pairwise fun e f => e.1.value.same f.1.value = false)
    (present : ∀ e ∈ es, e.2 ≠ .nil) (brackets : Brackets) (span : Span) :
    Denotes host (.table brackets fs span) (.table es) := by
  intro source s budget hbudget
  obtain ⟨n, rfl⟩ := Nat.exists_eq_succ_of_ne_zero (Nat.ne_zero_of_lt hbudget)
  have hvalues : ∀ e ∈ es, e.2.levels + 2 ≤ n := fun e he => by
    have hle := Datum.levels_le_levelsEntries he
    change Datum.levelsEntries es + 1 + 2 ≤ n + 1 at hbudget
    omega
  obtain ⟨entries, h₁, hgives, hkeys, hall⟩ := fieldEntries (t := {}) h hvalues distinct
    present (fun p hp => absurd hp List.not_mem_nil) source 1 s
  exact ⟨_, _, hgives.bind (gives_newTable { s with heap := h₁ } _), Datum.is_newTable hkeys hall⟩

end Denotes

namespace DenotesEntry

open Exec

variable {host : Host σ} {d : Datum} {e : Expression}

/-- A field with a name. -/
theorem named {t : Token} {name : String} (ht : t.text = name) (he : Denotes host e d)
    (equal : Token) (span : Span) :
    DenotesEntry host (.named t equal (some e) span) (.string name, d) where
  key source s budget position _ := by
    subst ht
    exact ⟨s.heap, gives_pure s (Value.string t.text)⟩
  value := ⟨e, rfl, he⟩

/-- A field with a key in brackets. -/
theorem keyed {k : Key} {key : Expression} (hkey : Denotes host key k.datum) (he : Denotes host e d)
    (brackets : Brackets) (equal : Option Token) (span : Span) :
    DenotesEntry host (.keyed brackets (some key) equal (some e) span) (k, d) where
  key source s budget position hbudget := by
    have hlevels : k.datum.levels + 2 ≤ budget := by cases k <;> exact hbudget
    obtain ⟨v, h, hv, his⟩ := hkey.required hlevels source span s
    obtain rfl := his.datum
    exact ⟨h, hv.bind (gives_tableKey _ k.isKey_value span)⟩
  value := ⟨e, rfl, he⟩

end DenotesEntry

end CommandScript
