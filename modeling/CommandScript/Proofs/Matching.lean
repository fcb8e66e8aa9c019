import CommandScript.Proofs.Keys
import CommandScript.Proofs.Loose
/-!
# CommandScript — what matching asks of a value

Matching is a search that ends early: at the first member of a union that takes the value, at
the first entry of a table that does not fit. In a shape that is made of shapes alone, with
literals that can be compared, no part of the search crashes (`MadeOf.answers`). Then a value is
taken or it is not, and what is asked of it can be said without the order of the search: a union
asks that some member takes it, an intersection that every member does, and a table that every
entry fits and, for an exact match, that nothing is missing.
-/

namespace CommandScript

/-! ## Tests that come back -/

section Tests

variable {x y : Except Crash Bool}

theorem both_eq_true :
    (do if ← x then y else return false) = .ok true ↔ x = .ok true ∧ y = .ok true := by
  rcases x with c | _ | _
  · exact iff_of_false (by rintro ⟨⟩) (by simp)
  · exact iff_of_false (by rintro ⟨⟩) (by simp)
  · exact (and_iff_right rfl).symm

theorem both_answers (hx : ∃ b, x = .ok b) (hy : ∃ b, y = .ok b) :
    ∃ b, (do if ← x then y else return false) = .ok b := by
  obtain ⟨b, rfl⟩ := hx
  cases b with
  | false => exact ⟨false, rfl⟩
  | true => exact hy

theorem either_eq_true (hx : ∃ b, x = .ok b) :
    (do if ← x then return true else y) = .ok true ↔ x = .ok true ∨ y = .ok true := by
  obtain ⟨b, rfl⟩ := hx
  cases b with
  | false => exact (or_iff_right (by simp)).symm
  | true => exact iff_of_true rfl (.inl rfl)

theorem either_answers (hx : ∃ b, x = .ok b) (hy : ∃ b, y = .ok b) :
    ∃ b, (do if ← x then return true else y) = .ok b := by
  obtain ⟨b, rfl⟩ := hx
  cases b with
  | false => exact hy
  | true => exact ⟨true, rfl⟩

end Tests

/-- A value can be compared with a literal, whatever it is. -/
def Heap.Comparable (h : Heap) (literal : Value) : Prop := ∀ v, ∃ b, h.equal v literal = .ok b

/-- A literal that is no container is compared without a look into the heap. -/
theorem Heap.equal_of_not_isContainer (h : Heap) {l : Value} (hl : l.isContainer = false)
    (v : Value) : h.equal v l = .ok (v.kind == l.kind && v.same l) := by
  unfold equal
  by_cases hkind : v.kind = l.kind
  · rw [if_neg (not_not_intro hkind), hkind, beq_self_eq_true, Bool.true_and]
    exact equalWithin_of_not_isContainer_right hl _
  · rw [if_pos hkind, beq_eq_false_iff_ne.2 hkind, Bool.false_and]

theorem Heap.comparable_of_not_isContainer (h : Heap) {l : Value} (hl : l.isContainer = false) :
    h.Comparable l :=
  fun v => ⟨_, h.equal_of_not_isContainer hl v⟩

namespace Shape

/-- The shape is made of shapes, with literals and with predicates of the host of the given
sorts; and as in every table, no two fields of a table are declared under one key. -/
inductive MadeOf (literal : Value → Prop) (predicate : (Heap → Value → Bool) → Prop) :
    Shape → Prop where
  | literal {l : Value} : literal l → MadeOf literal predicate (.literal l)
  | table {fields : Option (Table Shape)} {notes : Option (Table (Option String))}
      {indexer value : Option Shape}
      (declared : ∀ t ∈ fields, ∀ e ∈ t.entries, MadeOf literal predicate e.2)
      (distinct : ∀ t ∈ fields, t.keys.Pairwise fun k l => k.same l = false)
      (indexer_made : ∀ s ∈ indexer, MadeOf literal predicate s)
      (value_made : ∀ s ∈ value, MadeOf literal predicate s) :
      MadeOf literal predicate (.table fields notes indexer value)
  | function (names : List String) : MadeOf literal predicate (.function names)
  | command (c : CommandShape) : MadeOf literal predicate (.command c)
  | union {members : List Shape} (made : ∀ s ∈ members, MadeOf literal predicate s) :
      MadeOf literal predicate (.union members)
  | intersection {members : List Shape} (made : ∀ s ∈ members, MadeOf literal predicate s) :
      MadeOf literal predicate (.intersection members)
  | strange {name : String} {test exactTest : Option ShapeTest} {offers : Option Offers}
      (shapes : ∀ s, .shape s ∈ test ∨ .shape s ∈ exactTest → MadeOf literal predicate s)
      (predicates : ∀ holds, .predicate holds ∈ test ∨ .predicate holds ∈ exactTest →
        predicate holds) :
      MadeOf literal predicate (.strange name test exactTest offers)

variable {literal literal' : Value → Prop} {predicate predicate' : (Heap → Value → Bool) → Prop}
variable {h : Heap} {exact : Bool} {s : Shape} {v : Value}

theorem MadeOf.imp (hl : ∀ l, literal l → literal' l) (hp : ∀ p, predicate p → predicate' p)
    (hs : s.MadeOf literal predicate) : s.MadeOf literal' predicate' := by
  induction hs with
  | literal h => exact .literal (hl _ h)
  | table _ distinct _ _ declared indexer value => exact .table declared distinct indexer value
  | function names => exact .function names
  | command c => exact .command c
  | union _ ih => exact .union ih
  | intersection _ ih => exact .intersection ih
  | strange _ predicates ih => exact .strange ih fun p h => hp p (predicates p h)

theorem MadeOf.isShape (hs : s.MadeOf literal predicate) : s.isShape = true := by
  cases hs <;> rfl

/-- The value matches the shape. -/
def Takes (h : Heap) (exact : Bool) (s : Shape) (v : Value) : Prop :=
  (matchWith h exact s v).succeeds = .ok true

/-- There is an answer to whether a value matches the shape, whatever the value is. -/
def Answers (h : Heap) (exact : Bool) (s : Shape) : Prop :=
  ∀ v, ∃ b, (matchWith h exact s v).succeeds = .ok b

/-! ## The searches -/

theorem everyEntry_eq_true {test : Value → Value → Except Crash Bool} {es : List (Value × Value)} :
    everyEntry test es = .ok true ↔ ∀ e ∈ es, test e.1 e.2 = .ok true := by
  induction es with
  | nil => exact iff_of_true rfl (List.forall_mem_nil _)
  | cons e rest ih => rw [everyEntry, both_eq_true, ih, List.forall_mem_cons]

theorem everyEntry_answers {test : Value → Value → Except Crash Bool}
    (htest : ∀ k v, ∃ b, test k v = .ok b) (es : List (Value × Value)) :
    ∃ b, everyEntry test es = .ok b := by
  induction es with
  | nil => exact ⟨true, rfl⟩
  | cons e rest ih => exact both_answers (htest e.1 e.2) ih

theorem matchOptional_eq_true {s : Option Shape} :
    matchOptional h exact s v = .ok true ↔ ∀ t ∈ s, Takes h exact t v := by
  cases s with
  | none => exact iff_of_true rfl (by simp)
  | some s => simp only [Option.mem_some_iff, forall_eq']; exact Iff.rfl

theorem matchOptional_answers {s : Option Shape} (hs : ∀ t ∈ s, Answers h exact t) (v : Value) :
    ∃ b, matchOptional h exact s v = .ok b := by
  cases s with
  | none => exact ⟨true, rfl⟩
  | some s => exact hs s rfl v

/-- A field is matched against the shape that stands under its key. -/
theorem matchField_eq (fields : Option (Table Shape)) (key item : Value) :
    matchField h exact fields key item =
      (fields.bind (·.get? key)).map fun s => (matchWith h exact s item).succeeds := by
  have hentries (es : List (Value × Shape)) : matchFieldIn h exact es key item =
      (Table.get? ⟨es⟩ key).map fun s => (matchWith h exact s item).succeeds := by
    induction es with
    | nil => rfl
    | cons e rest ih =>
      obtain ⟨k, s⟩ := e
      rw [matchFieldIn, Table.get?, List.find?_cons]
      cases k.same key with
      | true => rfl
      | false => exact ih
  cases fields with
  | none => rfl
  | some t => exact hentries t.entries

theorem matchAbsent_eq_true {entries : Table Value} {fields : Option (Table Shape)} :
    matchAbsent h entries fields = .ok true ↔
      ∀ t ∈ fields, ∀ f ∈ t.entries, entries.has f.1 = false → Takes h true f.2 .nil := by
  have hentries (es : List (Value × Shape)) : matchAbsentIn h entries es = .ok true ↔
      ∀ f ∈ es, entries.has f.1 = false → Takes h true f.2 .nil := by
    induction es with
    | nil => exact iff_of_true rfl (List.forall_mem_nil _)
    | cons f rest ih =>
      obtain ⟨k, s⟩ := f
      rw [matchAbsentIn, List.forall_mem_cons, ← ih]
      cases hhas : entries.has k with
      | true => simp
      | false =>
        simp only [Bool.false_eq_true, if_false, forall_const]
        exact both_eq_true
  cases fields with
  | none => exact iff_of_true rfl (by simp)
  | some t =>
    simp only [Option.mem_some_iff, forall_eq']
    exact hentries t.entries

theorem matchAbsent_answers {entries : Table Value} {fields : Option (Table Shape)}
    (hfields : ∀ t ∈ fields, ∀ f ∈ t.entries, Answers h true f.2) :
    ∃ b, matchAbsent h entries fields = .ok b := by
  have hentries {es : List (Value × Shape)} (hes : ∀ f ∈ es, Answers h true f.2) :
      ∃ b, matchAbsentIn h entries es = .ok b := by
    induction es with
    | nil => exact ⟨true, rfl⟩
    | cons f rest ih =>
      obtain ⟨k, s⟩ := f
      obtain ⟨hf, hrest⟩ := List.forall_mem_cons.1 hes
      rw [matchAbsentIn]
      split
      · exact ih hrest
      · exact both_answers (hf .nil) (ih hrest)
  cases fields with
  | none => exact ⟨true, rfl⟩
  | some t => exact hentries (hfields t rfl)

theorem matchAny_eq_true {members : List Shape} (hs : ∀ s ∈ members, Answers h exact s)
    (position : Nat) :
    (matchAny h exact position members v).succeeds = .ok true ↔
      ∃ s ∈ members, Takes h exact s v := by
  induction members generalizing position with
  | nil =>
    rw [matchAny]
    exact iff_of_false (by rintro ⟨⟩) (by simp)
  | cons s rest ih =>
    obtain ⟨hs, hrest⟩ := List.forall_mem_cons.1 hs
    rw [succeeds_matchAny_cons, either_eq_true (hs v), ih hrest]
    simp only [List.mem_cons, exists_eq_or_imp]
    exact Iff.rfl

theorem matchAny_answers {members : List Shape} (hs : ∀ s ∈ members, Answers h exact s)
    (position : Nat) : ∃ b, (matchAny h exact position members v).succeeds = .ok b := by
  induction members generalizing position with
  | nil => exact ⟨false, rfl⟩
  | cons s rest ih =>
    obtain ⟨hs, hrest⟩ := List.forall_mem_cons.1 hs
    rw [succeeds_matchAny_cons]
    exact either_answers (hs v) (ih hrest _)

theorem matchAll_eq_true {members : List Shape} :
    matchAll h exact members v = .ok true ↔ ∀ s ∈ members, Takes h exact s v := by
  induction members with
  | nil => exact iff_of_true rfl (List.forall_mem_nil _)
  | cons s rest ih =>
    rw [matchAll, both_eq_true, ih, List.forall_mem_cons]
    exact Iff.rfl

theorem matchAll_answers {members : List Shape} (hs : ∀ s ∈ members, Answers h exact s) :
    ∃ b, matchAll h exact members v = .ok b := by
  induction members with
  | nil => exact ⟨true, rfl⟩
  | cons s rest ih =>
    obtain ⟨hs, hrest⟩ := List.forall_mem_cons.1 hs
    rw [matchAll]
    exact both_answers (hs v) (ih hrest)

/-! ## What each shape asks -/

/-- The test that decides about a strange shape. -/
def decisive (exact : Bool) (test exactTest : Option ShapeTest) : Option ShapeTest :=
  if exact && exactTest.isSome then exactTest else test

theorem decisive_mem {test exactTest : Option ShapeTest} {t : ShapeTest}
    (ht : t ∈ decisive exact test exactTest) : t ∈ test ∨ t ∈ exactTest := by
  unfold decisive at ht
  split at ht
  · exact .inr ht
  · exact .inl ht

theorem takes_literal {l : Value} :
    Takes h exact (.literal l) v ↔ literalMatches h exact v l = .ok true := by
  rw [Takes, matchWith, succeeds_ofTest]

theorem takes_union {members : List Shape} (hs : ∀ s ∈ members, Answers h exact s) :
    Takes h exact (.union members) v ↔ ∃ s ∈ members, Takes h exact s v := by
  rw [Takes, matchWith, matchAny_eq_true hs]

theorem takes_intersection {members : List Shape} :
    Takes h exact (.intersection members) v ↔ ∀ s ∈ members, Takes h exact s v := by
  rw [Takes, matchWith, succeeds_ofTest, matchAll_eq_true]

theorem succeeds_strange {name : String} {test exactTest : Option ShapeTest}
    {offers : Option Offers} :
    (matchWith h exact (.strange name test exactTest offers) v).succeeds =
      matchOptionalTest h exact (decisive exact test exactTest) v := by
  rw [matchWith, decisive]
  split <;> exact succeeds_ofTest _

/-- An entry fits: what is declared for its key takes it, or else the shapes for other keys and for
what is under them do. -/
def FitsEntry (h : Heap) (exact : Bool) (fields : Option (Table Shape))
    (indexer value : Option Shape) (e : Value × Value) : Prop :=
  match fields.bind (·.get? e.1) with
  | some s => Takes h exact s e.2
  | none => (∀ s ∈ indexer, Takes h exact s e.1) ∧ ∀ s ∈ value, Takes h exact s e.2

/-- The test of an entry. -/
def fitsEntry (h : Heap) (exact : Bool) (fields : Option (Table Shape))
    (indexer value : Option Shape) (k item : Value) : Except Crash Bool :=
  match fields.bind (·.get? k) with
  | some s => (matchWith h exact s item).succeeds
  | none => do
    if ← matchOptional h exact indexer k then matchOptional h exact value item else return false

theorem succeeds_table {fields : Option (Table Shape)} {notes : Option (Table (Option String))}
    {indexer value : Option Shape} {entries : Table Value} (hv : entriesOf h v = some entries) :
    (matchWith h exact (.table fields notes indexer value) v).succeeds = (do
      if ← everyEntry (fitsEntry h exact fields indexer value) entries.entries then
        if exact then matchAbsent h entries fields else pure true
      else return false) := by
  -- the search has its test written out in it, so the two tests are exchanged as functions
  have hfits {test : Value → Value → Except Crash Bool}
      (htest : ∀ k item, test k item = fitsEntry h exact fields indexer value k item)
      (absent : Except Crash Bool) :
      MatchResult.succeeds (do
        let present ← everyEntry test entries.entries
        if present then MatchResult.ofTest (← absent) else return none) = (do
      if ← everyEntry (fitsEntry h exact fields indexer value) entries.entries then absent
      else return false) := by
    obtain rfl : test = _ := funext fun k => funext (htest k)
    exact succeeds_ite _ _
  rw [matchWith, hv]
  cases exact <;>
  · refine hfits (fun k item => ?_) _
    rw [matchField_eq, fitsEntry]
    cases fields.bind (·.get? k) <;> rfl

theorem takes_table {fields : Option (Table Shape)} {notes : Option (Table (Option String))}
    {indexer value : Option Shape} :
    Takes h exact (.table fields notes indexer value) v ↔
      ∃ entries, entriesOf h v = some entries ∧
        (∀ e ∈ entries.entries, FitsEntry h exact fields indexer value e) ∧
        (exact = true → ∀ t ∈ fields, ∀ f ∈ t.entries, entries.has f.1 = false →
          Takes h true f.2 .nil) := by
  cases hv : entriesOf h v with
  | none =>
    rw [Takes, matchWith, hv]
    exact iff_of_false (by rintro ⟨⟩) (by simp)
  | some entries =>
    have hfits (e : Value × Value) : fitsEntry h exact fields indexer value e.1 e.2 = .ok true ↔
        FitsEntry h exact fields indexer value e := by
      rw [fitsEntry, FitsEntry]
      cases fields.bind (·.get? e.1) with
      | some s => exact Iff.rfl
      | none => rw [← matchOptional_eq_true, ← matchOptional_eq_true]; exact both_eq_true
    have habsent : (if exact then matchAbsent h entries fields else pure true) = .ok true ↔
        (exact = true → ∀ t ∈ fields, ∀ f ∈ t.entries, entries.has f.1 = false →
          Takes h true f.2 .nil) := by
      rw [← matchAbsent_eq_true]
      cases exact with
      | true => simp
      | false => exact iff_of_true rfl (by simp)
    rw [Takes, succeeds_table hv, both_eq_true, everyEntry_eq_true]
    simp only [Option.some.injEq, exists_eq_left', ← habsent, ← hfits]

/-! ## Shapes that answer -/

/-- A test of a shape that answers, or a predicate, answers. -/
theorem matchOptionalTest_answers {test : Option ShapeTest}
    (hshape : ∀ s, .shape s ∈ test → s.isShape = true ∧ Answers h exact s) (v : Value) :
    ∃ b, matchOptionalTest h exact test v = .ok b := by
  match test, hshape with
  | none, _ => exact ⟨true, rfl⟩
  | some (.predicate holds), _ => exact ⟨holds h v, rfl⟩
  | some (.shape s), hshape =>
    obtain ⟨hs, hanswers⟩ := hshape s rfl
    rw [matchOptionalTest, matchTest, if_pos hs]
    exact hanswers v

/-- **Matching always comes back**, where a shape is made of shapes and its literals can be
compared. -/
theorem MadeOf.answers (hs : s.MadeOf h.Comparable predicate) (exact : Bool) :
    Answers h exact s := by
  induction hs generalizing exact with
  | literal hl =>
    intro v
    rw [matchWith, succeeds_ofTest]
    unfold literalMatches
    split
    · exact ⟨_, rfl⟩
    · exact hl v
  | @table fields notes indexer value _ _ _ _ declared hindexer hvalue =>
    intro v
    cases hv : entriesOf h v with
    | none => exact ⟨false, by rw [matchWith, hv]; rfl⟩
    | some entries =>
      rw [succeeds_table hv]
      refine both_answers (everyEntry_answers (fun k item => ?_) _) ?_
      · rw [fitsEntry]
        cases hget : fields.bind (·.get? k) with
        | some s =>
          obtain ⟨t, ht, hs⟩ := Option.bind_eq_some_iff.1 hget
          obtain ⟨e, he, rfl⟩ := Option.map_eq_some_iff.1 hs
          exact declared t ht e (List.mem_of_find?_eq_some he) exact item
        | none =>
          exact both_answers (matchOptional_answers (fun s hs => hindexer s hs exact) k)
            (matchOptional_answers (fun s hs => hvalue s hs exact) item)
      · cases exact with
        | true => exact matchAbsent_answers fun t ht f hf => declared t ht f hf true
        | false => exact ⟨true, rfl⟩
  | function | command =>
    intro v
    rw [matchWith]
    cases v.isCallable <;> exact ⟨_, rfl⟩
  | union _ ih =>
    intro v
    rw [matchWith]
    exact matchAny_answers (fun s hs => ih s hs exact) 0
  | intersection _ ih =>
    intro v
    rw [matchWith, succeeds_ofTest]
    exact matchAll_answers fun s hs => ih s hs exact
  | strange made _ ih =>
    intro v
    rw [succeeds_strange]
    exact matchOptionalTest_answers (fun s hs =>
      ⟨(made s (decisive_mem hs)).isShape, ih s (decisive_mem hs) exact⟩) v

end Shape

end CommandScript
