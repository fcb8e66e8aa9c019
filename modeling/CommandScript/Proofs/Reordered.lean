import CommandScript.Proofs.Matching
/-!
# CommandScript — matching in any order

A union, an intersection, a table of fields and a table of a script are kept in some order, and
matching goes through each of them in it. Which member it names depends on that order, but not
whether the value matches.

Two shapes are reorderings of each other (`Shape.Reordered`) if steps lead from one to the other
that change places in one union, intersection or table of fields, or that put a union into the union
around it. Each step leaves what a shape asks of values as it is (`Reordered.takes_iff`). Two heaps
are reorderings of each other (`Heap.Reordered`) if they differ in the order of the entries of
tables; as long as no predicate of the host sees the difference, the same values match the same
shapes in both (`MadeOf.takes_iff`).
-/

namespace CommandScript

/-- The two heaps differ in the order of the entries of their tables. -/
structure Heap.Reordered (h h' : Heap) : Prop where
  vectors : h.vectors = h'.vectors
  tuples : h.tuples = h'.tuples
  lambdas : h.lambdas = h'.lambdas
  size : h.tables.size = h'.tables.size
  table : ∀ a, (h.table a).entries.Perm (h'.table a).entries

namespace Shape

/-- A predicate of the host that does not see in which order the entries of tables are. -/
def OrderBlind (holds : Heap → Value → Bool) : Prop :=
  ∀ h h' : Heap, h.Reordered h' → ∀ v, holds h v = holds h' v

/-- The two shapes differ, at any depth, in the order of members and of declared fields, and in
unions that stand inside unions and intersections that stand inside intersections. -/
inductive Reordered : Shape → Shape → Prop where
  | refl (s : Shape) : Reordered s s
  | symm {s t : Shape} : Reordered s t → Reordered t s
  | trans {s t u : Shape} : Reordered s t → Reordered t u → Reordered s u
  | union {members others : List Shape} :
      members.Perm others → Reordered (.union members) (.union others)
  | intersection {members others : List Shape} :
      members.Perm others → Reordered (.intersection members) (.intersection others)
  | fields {fields others : List (Value × Shape)} {notes : Option (Table (Option String))}
      {indexer value : Option Shape} :
      fields.Perm others →
      Reordered (.table (some ⟨fields⟩) notes indexer value)
        (.table (some ⟨others⟩) notes indexer value)
  | flatUnion (before inner after : List Shape) :
      Reordered (.union (before ++ .union inner :: after)) (.union (before ++ (inner ++ after)))
  | flatIntersection (before inner after : List Shape) :
      Reordered (.intersection (before ++ .intersection inner :: after))
        (.intersection (before ++ (inner ++ after)))
  | inUnion (before after : List Shape) {s t : Shape} : Reordered s t →
      Reordered (.union (before ++ s :: after)) (.union (before ++ t :: after))
  | inIntersection (before after : List Shape) {s t : Shape} : Reordered s t →
      Reordered (.intersection (before ++ s :: after)) (.intersection (before ++ t :: after))
  | inField (before after : List (Value × Shape)) (key : Value) {s t : Shape}
      {notes : Option (Table (Option String))} {indexer value : Option Shape} : Reordered s t →
      Reordered (.table (some ⟨before ++ (key, s) :: after⟩) notes indexer value)
        (.table (some ⟨before ++ (key, t) :: after⟩) notes indexer value)
  | inIndexer {fields : Option (Table Shape)} {notes : Option (Table (Option String))}
      {s t : Shape} {value : Option Shape} : Reordered s t →
      Reordered (.table fields notes (some s) value) (.table fields notes (some t) value)
  | inValue {fields : Option (Table Shape)} {notes : Option (Table (Option String))}
      {indexer : Option Shape} {s t : Shape} : Reordered s t →
      Reordered (.table fields notes indexer (some s)) (.table fields notes indexer (some t))
  | inTest {name : String} {s t : Shape} {exactTest : Option ShapeTest} {offers : Option Offers} :
      Reordered s t →
      Reordered (.strange name (some (.shape s)) exactTest offers)
        (.strange name (some (.shape t)) exactTest offers)
  | inExactTest {name : String} {test : Option ShapeTest} {s t : Shape} {offers : Option Offers} :
      Reordered s t →
      Reordered (.strange name test (some (.shape s)) offers)
        (.strange name test (some (.shape t)) offers)

variable {literal : Value → Prop} {predicate : (Heap → Value → Bool) → Prop}
variable {h h' : Heap} {exact : Bool} {s t : Shape} {v : Value}

/-! ## What reordered shapes are made of -/

theorem madeOf_union {members : List Shape} :
    (Shape.union members).MadeOf literal predicate ↔ ∀ s ∈ members, s.MadeOf literal predicate :=
  ⟨fun | .union made => made, .union⟩

theorem madeOf_intersection {members : List Shape} :
    (Shape.intersection members).MadeOf literal predicate ↔
      ∀ s ∈ members, s.MadeOf literal predicate :=
  ⟨fun | .intersection made => made, .intersection⟩

theorem madeOf_table {fields : Option (Table Shape)} {notes : Option (Table (Option String))}
    {indexer value : Option Shape} :
    (Shape.table fields notes indexer value).MadeOf literal predicate ↔
      (∀ t ∈ fields, (∀ e ∈ t.entries, MadeOf literal predicate e.2) ∧
        t.keys.Pairwise fun k l => k.same l = false) ∧
      (∀ s ∈ indexer, MadeOf literal predicate s) ∧ ∀ s ∈ value, MadeOf literal predicate s :=
  ⟨fun | .table declared distinct hi hv => ⟨fun t ht => ⟨declared t ht, distinct t ht⟩, hi, hv⟩,
    fun ⟨hfields, hi, hv⟩ =>
      .table (fun t ht => (hfields t ht).1) (fun t ht => (hfields t ht).2) hi hv⟩

theorem madeOf_strange {name : String} {test exactTest : Option ShapeTest}
    {offers : Option Offers} :
    (Shape.strange name test exactTest offers).MadeOf literal predicate ↔
      (∀ s, .shape s ∈ test ∨ .shape s ∈ exactTest → MadeOf literal predicate s) ∧
      ∀ holds, .predicate holds ∈ test ∨ .predicate holds ∈ exactTest → predicate holds :=
  ⟨fun | .strange shapes predicates => ⟨shapes, predicates⟩, fun ⟨hs, hp⟩ => .strange hs hp⟩

/-- That no two keys are the same is said of them in any order. -/
theorem distinct_iff_of_perm {α : Type} {es fs : List (Value × α)} (hperm : es.Perm fs) :
    (Table.mk es).keys.Pairwise (fun k l => k.same l = false) ↔
      (Table.mk fs).keys.Pairwise fun k l => k.same l = false :=
  (hperm.map _).pairwise_iff fun {k l} hkl => by rw [Value.same_comm l k]; exact hkl

/-- Reordered shapes are made of the same. -/
theorem Reordered.madeOf_iff (hst : s.Reordered t) :
    s.MadeOf literal predicate ↔ t.MadeOf literal predicate := by
  induction hst with
  | refl => exact Iff.rfl
  | symm _ ih => exact ih.symm
  | trans _ _ ih ih' => exact ih.trans ih'
  | union hperm => simp only [madeOf_union, hperm.mem_iff]
  | intersection hperm => simp only [madeOf_intersection, hperm.mem_iff]
  | fields hperm =>
    simp only [madeOf_table, Option.mem_some_iff, forall_eq', hperm.mem_iff,
      distinct_iff_of_perm hperm]
  | flatUnion => simp only [madeOf_union, List.forall_mem_append, List.forall_mem_cons]
  | flatIntersection =>
    simp only [madeOf_intersection, List.forall_mem_append, List.forall_mem_cons]
  | inUnion _ _ _ ih =>
    simp only [madeOf_union, List.forall_mem_append, List.forall_mem_cons, ih]
  | inIntersection _ _ _ ih =>
    simp only [madeOf_intersection, List.forall_mem_append, List.forall_mem_cons, ih]
  | inField _ _ _ _ ih =>
    simp only [madeOf_table, Option.mem_some_iff, forall_eq', List.forall_mem_append,
      List.forall_mem_cons, ih, Table.keys, List.map_append, List.map_cons]
  | inIndexer _ ih | inValue _ ih =>
    simp only [madeOf_table, Option.mem_some_iff, forall_eq', ih]
  | inTest _ ih | inExactTest _ ih =>
    simp only [madeOf_strange, Option.mem_some_iff, ShapeTest.shape.injEq, or_imp, forall_and,
      forall_eq', ih, reduceCtorEq, false_or, or_false]

/-! ## What reordered shapes ask for -/

/-- What stands under a key, where no two keys are the same, does not depend on their order. -/
theorem get?_eq_of_perm {α : Type} {es fs : List (Value × α)} (hperm : es.Perm fs)
    (hes : (Table.mk es).keys.Pairwise fun k l => k.same l = false) (k : Value) :
    (Table.mk es).get? k = (Table.mk fs).get? k := by
  refine Option.ext fun x => ?_
  rw [Table.get?_eq_some_iff hes, Table.get?_eq_some_iff ((distinct_iff_of_perm hperm).1 hes)]
  simp only [hperm.mem_iff]

/-- What is declared for a key is the field itself, or it is declared for the key also without
that field. -/
theorem get?_field_cases (before after : List (Value × Shape)) (key k : Value) :
    (∀ s, (Table.mk (before ++ (key, s) :: after)).get? k = some s) ∨
      ∀ s, (Table.mk (before ++ (key, s) :: after)).get? k =
        (Table.mk (before ++ after)).get? k := by
  simp only [Table.get?, List.find?_append, List.find?_cons]
  cases before.find? fun e => e.1.same k with
  | some e => exact .inr fun s => rfl
  | none =>
    cases key.same k with
    | true => exact .inl fun s => rfl
    | false => exact .inr fun s => rfl

/-- A union that is made of shapes asks that some member takes the value. -/
theorem MadeOf.takes_union {members : List Shape}
    (hs : (Shape.union members).MadeOf h.Comparable predicate) (exact : Bool) (v : Value) :
    Takes h exact (.union members) v ↔ ∃ s ∈ members, Takes h exact s v :=
  Shape.takes_union fun s hmem => (madeOf_union.1 hs s hmem).answers exact

theorem takes_strange {name : String} {test exactTest : Option ShapeTest}
    {offers : Option Offers} :
    Takes h exact (.strange name test exactTest offers) v ↔
      matchOptionalTest h exact (decisive exact test exactTest) v = .ok true := by
  rw [Takes, succeeds_strange]

theorem matchOptionalTest_shape (hs : s.isShape = true) :
    matchOptionalTest h exact (some (.shape s)) v = .ok true ↔ Takes h exact s v := by
  rw [matchOptionalTest, matchTest, if_pos hs, Takes]

/-- A strange shape that passes its test on asks the same of a reordered shape. -/
theorem asks_shape_iff (hst : s.Reordered t) (hs : s.MadeOf literal predicate)
    (hagree : ∀ exact v, Takes h exact s v ↔ Takes h exact t v) (exact : Bool) (v : Value) :
    matchOptionalTest h exact (some (.shape s)) v = .ok true ↔
      matchOptionalTest h exact (some (.shape t)) v = .ok true := by
  rw [matchOptionalTest_shape hs.isShape, matchOptionalTest_shape (hst.madeOf_iff.1 hs).isShape]
  exact hagree exact v

/-- **Reordered shapes are matched by the same values**, exactly as well as loosely. -/
theorem Reordered.takes_iff (hst : s.Reordered t) (hs : s.MadeOf h.Comparable predicate) :
    ∀ exact v, Takes h exact s v ↔ Takes h exact t v := by
  induction hst with
  | refl => exact fun _ _ => Iff.rfl
  | symm hst ih => exact fun exact v => (ih (hst.madeOf_iff.2 hs) exact v).symm
  | trans hst _ ih ih' =>
    exact fun exact v => (ih hs exact v).trans (ih' (hst.madeOf_iff.1 hs) exact v)
  | @union members others hperm =>
    intro exact v
    have ht := (Reordered.union hperm).madeOf_iff.1 hs
    simp only [hs.takes_union, ht.takes_union, hperm.mem_iff]
  | intersection hperm =>
    intro exact v
    simp only [takes_intersection, hperm.mem_iff]
  | fields hperm =>
    intro exact v
    obtain ⟨hfields, -, -⟩ := madeOf_table.1 hs
    have hget := get?_eq_of_perm hperm (hfields _ rfl).2
    simp only [takes_table, FitsEntry, Option.bind_some, Option.mem_some_iff, forall_eq', hget,
      hperm.mem_iff]
  | flatUnion before inner after =>
    intro exact v
    have ht := (Reordered.flatUnion before inner after).madeOf_iff.1 hs
    have hinner := madeOf_union.1 hs _ List.mem_append_cons_self
    simp only [hs.takes_union, ht.takes_union, List.mem_append, List.mem_cons, or_and_right,
      exists_or, exists_eq_left, hinner.takes_union]
  | flatIntersection =>
    intro exact v
    simp only [takes_intersection, List.forall_mem_append, List.forall_mem_cons]
  | inUnion before after hst ih =>
    intro exact v
    have ht := (Reordered.inUnion before after hst).madeOf_iff.1 hs
    have hmade := madeOf_union.1 hs _ List.mem_append_cons_self
    simp only [hs.takes_union, ht.takes_union, List.mem_append, List.mem_cons, or_and_right,
      exists_or, exists_eq_left, ih hmade]
  | inIntersection before after _ ih =>
    intro exact v
    have hmade := madeOf_intersection.1 hs _ List.mem_append_cons_self
    simp only [takes_intersection, List.forall_mem_append, List.forall_mem_cons, ih hmade]
  | @inField before after key s t notes indexer value _ ih =>
    intro exact v
    obtain ⟨hfields, -, -⟩ := madeOf_table.1 hs
    have hagree := ih ((hfields _ rfl).1 (key, s) List.mem_append_cons_self)
    have hfits (e : Value × Value) :
        FitsEntry h exact (some ⟨before ++ (key, s) :: after⟩) indexer value e ↔
          FitsEntry h exact (some ⟨before ++ (key, t) :: after⟩) indexer value e := by
      unfold FitsEntry
      simp only [Option.bind_some]
      -- a key finds this field in both tables, or it finds the same other one
      obtain hfield | hother := get?_field_cases before after key e.1
      · rw [hfield, hfield]
        exact hagree exact e.2
      · rw [hother, hother]
    simp only [takes_table, hfits, Option.mem_some_iff, forall_eq',
      List.forall_mem_append, List.forall_mem_cons, hagree]
  | inIndexer _ ih =>
    intro exact v
    have hmade := (madeOf_table.1 hs).2.1 _ rfl
    simp only [takes_table, FitsEntry, Option.mem_some_iff, forall_eq', ih hmade]
  | inValue _ ih =>
    intro exact v
    have hmade := (madeOf_table.1 hs).2.2 _ rfl
    simp only [takes_table, FitsEntry, Option.mem_some_iff, forall_eq', ih hmade]
  | @inTest name s t exactTest offers hst ih =>
    intro exact v
    have hmade := (madeOf_strange.1 hs).1 s (.inl rfl)
    have hasked := asks_shape_iff hst hmade (ih hmade)
    simp only [takes_strange, decisive]
    split
    · exact Iff.rfl
    · exact hasked exact v
  | @inExactTest name test s t offers hst ih =>
    intro exact v
    have hmade := (madeOf_strange.1 hs).1 s (.inr rfl)
    have hasked := asks_shape_iff hst hmade (ih hmade)
    simp only [takes_strange, decisive, Option.isSome_some]
    split
    · exact hasked exact v
    · exact Iff.rfl

/-! ## Values that are seen alike -/

/-- The tables have the same keys, and under them stands what is related. -/
structure SameEntries (R : Value → Value → Prop) (t t' : Table Value) : Prop where
  forth : ∀ e ∈ t.entries, ∃ e' ∈ t'.entries, e.1 = e'.1 ∧ R e.1 e'.1 ∧ R e.2 e'.2
  back : ∀ e' ∈ t'.entries, ∃ e ∈ t.entries, e.1 = e'.1 ∧ R e.1 e'.1 ∧ R e.2 e'.2
  has : ∀ k, t.has k = t'.has k

/-- Related values of two heaps look the same to shapes: to literals that are no containers, and
wherever a shape looks into a value. -/
structure SeenAlike (R : Value → Value → Prop) (h h' : Heap) : Prop where
  nil : R .nil .nil
  isCallable : ∀ {v v'}, R v v' → v.isCallable = v'.isCallable
  literal : ∀ {v v'}, R v v' → ∀ exact {l}, l.isContainer = false →
    literalMatches h exact v l = literalMatches h' exact v' l
  entries : ∀ {v v'}, R v v' → entriesOf h v = none ∧ entriesOf h' v' = none ∨
    ∃ t t', entriesOf h v = some t ∧ entriesOf h' v' = some t' ∧ SameEntries R t t'

/-- Literals that are no containers can be compared in every heap. -/
theorem MadeOf.comparable (hs : s.MadeOf (·.isContainer = false) predicate) (h : Heap) :
    s.MadeOf h.Comparable predicate :=
  hs.imp (fun _ hl => h.comparable_of_not_isContainer hl) fun _ hp => hp

/-- **What looks the same is taken or not taken alike**, as long as no predicate of the host sees
a difference. -/
theorem MadeOf.takes_iff_of_seenAlike {R : Value → Value → Prop} (hR : SeenAlike R h h')
    (hs : s.MadeOf (·.isContainer = false) fun holds => ∀ v v', R v v' → holds h v = holds h' v') :
    ∀ exact v v', R v v' → (Takes h exact s v ↔ Takes h' exact s v') := by
  induction hs with
  | literal hl =>
    intro exact v v' hv
    rw [takes_literal, takes_literal, hR.literal hv exact hl]
  | @table fields notes indexer value _ _ _ _ hdeclared hindexer hvalue =>
    intro exact v v' hv
    have hfits {e e' : Value × Value} (hkey : e.1 = e'.1) (hk : R e.1 e'.1) (hitem : R e.2 e'.2) :
        FitsEntry h exact fields indexer value e ↔ FitsEntry h' exact fields indexer value e' := by
      unfold FitsEntry
      rw [← hkey] at hk ⊢
      cases hget : fields.bind (·.get? e.1) with
      | some s =>
        obtain ⟨t, ht, hs⟩ := Option.bind_eq_some_iff.1 hget
        obtain ⟨f, hf, rfl⟩ := Option.map_eq_some_iff.1 hs
        exact hdeclared t ht f (List.mem_of_find?_eq_some hf) exact e.2 e'.2 hitem
      | none =>
        exact and_congr (forall₂_congr fun s hs => hindexer s hs exact e.1 e.1 hk)
          (forall₂_congr fun s hs => hvalue s hs exact e.2 e'.2 hitem)
    rw [takes_table, takes_table]
    obtain ⟨hnone, hnone'⟩ | ⟨t, t', ht, ht', hentries⟩ := hR.entries hv
    · simp only [hnone, hnone', reduceCtorEq, false_and, exists_false]
    · -- every entry is asked, and the same fields are missing
      simp only [ht, ht', Option.some.injEq, exists_eq_left', hentries.has]
      refine and_congr ⟨fun hall e' he' => ?_, fun hall e he => ?_⟩
        (imp_congr Iff.rfl (forall₂_congr fun t ht => forall₂_congr
          fun f hf => imp_congr Iff.rfl (hdeclared t ht f hf true .nil .nil hR.nil)))
      · obtain ⟨e, he, hkey, hk, hitem⟩ := hentries.back e' he'
        exact (hfits hkey hk hitem).1 (hall e he)
      · obtain ⟨e', he', hkey, hk, hitem⟩ := hentries.forth e he
        exact (hfits hkey hk hitem).2 (hall e' he')
  | function | command =>
    intro exact v v' hv
    simp only [Takes, matchWith, hR.isCallable hv]
  | union made ih =>
    intro exact v v' hv
    have hs := MadeOf.union made
    rw [(hs.comparable h).takes_union, (hs.comparable h').takes_union]
    exact exists_congr fun s => and_congr_right fun hs => ih s hs exact v v' hv
  | intersection _ ih =>
    intro exact v v' hv
    rw [takes_intersection, takes_intersection]
    exact forall₂_congr fun s hs => ih s hs exact v v' hv
  | @strange name test exactTest offers made predicates ih =>
    intro exact v v' hv
    rw [takes_strange, takes_strange]
    cases hdecisive : decisive exact test exactTest with
    | none => exact Iff.rfl
    | some t =>
      have hmem := decisive_mem hdecisive
      cases t with
      | shape s =>
        rw [matchOptionalTest_shape (made s hmem).isShape,
          matchOptionalTest_shape (made s hmem).isShape]
        exact ih s hmem exact v v' hv
      | predicate holds =>
        rw [matchOptionalTest, matchOptionalTest, matchTest, matchTest,
          predicates holds hmem v v' hv]

/-! ## Reordered tables -/

/-- In two heaps that differ in the order of entries, each value looks like itself. -/
theorem seenAlike_of_reordered (hh : h.Reordered h') : SeenAlike Eq h h' where
  nil := rfl
  isCallable hv := congrArg _ hv
  literal := by
    rintro v _ rfl exact l hl
    unfold literalMatches
    split
    · rfl
    · rw [h.equal_of_not_isContainer hl, h'.equal_of_not_isContainer hl]
  entries := by
    have hsame {t t' : Table Value} (hperm : t.entries.Perm t'.entries) : SameEntries Eq t t' :=
      ⟨fun e he => ⟨e, hperm.mem_iff.1 he, rfl, rfl, rfl⟩,
        fun e he => ⟨e, hperm.mem_iff.2 he, rfl, rfl, rfl⟩, fun _ => hperm.any_eq⟩
    rintro v _ rfl
    cases v with
    | vector a =>
      have hitems : h.vector a = h'.vector a := by rw [Heap.vector, Heap.vector, hh.vectors]
      exact .inr ⟨_, _, rfl, rfl, hsame (by rw [hitems])⟩
    | table a => exact .inr ⟨_, _, rfl, rfl, hsame (hh.table a)⟩
    | _ => exact .inl ⟨rfl, rfl⟩

/-- **The order of entries does not matter to a shape**, whatever is nested in the value. -/
theorem MadeOf.takes_iff (hh : h.Reordered h') (hs : s.MadeOf (·.isContainer = false) OrderBlind)
    (exact : Bool) (v : Value) : Takes h exact s v ↔ Takes h' exact s v := by
  refine MadeOf.takes_iff_of_seenAlike (seenAlike_of_reordered hh) ?_ exact v v rfl
  refine hs.imp (fun _ hl => hl) fun holds hblind v v' hv => ?_
  rw [← hv]
  exact hblind h h' hh v

/-- **Whether a value matches does not depend on any order.** Let a shape be made of shapes, with
literals that are no containers and with predicates of the host that do not see the order of
entries. There is an answer to whether a value matches it, and there is the same answer when,
anywhere in the shape, members of unions and intersections and declared fields change places and
unions in unions or intersections in intersections are made flat, and when, anywhere in the value,
entries of tables change places. -/
theorem match_reordered (hs : s.MadeOf (·.isContainer = false) OrderBlind) (hst : s.Reordered t)
    (hh : h.Reordered h') (exact : Bool) (v : Value) :
    ∃ b, (matchWith h exact s v).succeeds = .ok b ∧ (matchWith h' exact t v).succeeds = .ok b := by
  have ht := hst.madeOf_iff.1 hs
  obtain ⟨b, hb⟩ := (hs.comparable h).answers exact v
  obtain ⟨c, hc⟩ := (ht.comparable h').answers exact v
  have hagree : Takes h exact s v ↔ Takes h' exact t v :=
    (hst.takes_iff (hs.comparable h) exact v).trans (ht.takes_iff hh exact v)
  unfold Takes at hagree
  rw [hb, hc, Except.ok.injEq, Except.ok.injEq, ← Bool.eq_iff_iff] at hagree
  exact ⟨b, hb, hagree ▸ hc⟩

/-- A union in a union and two fields of a table, all in another order, and two entries that have
changed places: the members before the one that matches are others, and it matches still. -/
theorem match_reordered_fields :
    let h : Heap := { tables := #[⟨[(.string "name", .string "ab"), (.string "size", .int 3)]⟩] }
    let h' : Heap := { tables := #[⟨[(.string "size", .int 3), (.string "name", .string "ab")]⟩] }
    let name : Shape := .union [.literal (.string "abc"), .literal (.string "ab")]
    let size : Shape := .strange "small" (some (.predicate fun _ v => v.same (.int 3))) none none
    let fields := [(.string "name", name), (.string "size", size)]
    let s : Shape := .union [.function [], .union [.literal .nil,
      .table (some ⟨fields⟩) none none none]]
    let t : Shape := .union [.table (some ⟨fields.reverse⟩) none none none, .literal .nil,
      .function []]
    s.MadeOf (·.isContainer = false) OrderBlind ∧ s.Reordered t ∧ h.Reordered h' ∧
      matchWith h true s (.table 0) = .ok (some [1, 1]) ∧
      (matchWith h' true t (.table 0)).succeeds = .ok true := by
  intro h h' name size fields s t
  have hname : name.MadeOf (·.isContainer = false) OrderBlind :=
    .union (List.forall_mem_cons.2 ⟨.literal rfl, List.forall_mem_singleton.2 (.literal rfl)⟩)
  have hsize : size.MadeOf (·.isContainer = false) OrderBlind := by
    refine .strange (by simp) fun holds hmem => ?_
    obtain rfl : (fun _ v => v.same (.int 3)) = holds := by simpa using hmem
    exact fun _ _ _ _ => rfl
  have hs : s.MadeOf (·.isContainer = false) OrderBlind := by
    refine .union (List.forall_mem_cons.2 ⟨.function [], List.forall_mem_singleton.2
      (.union (List.forall_mem_cons.2 ⟨.literal rfl, List.forall_mem_singleton.2
        (.table ?_ (by rintro t ⟨⟩; decide) (by simp) (by simp))⟩))⟩)
    rintro t ⟨⟩
    exact List.forall_mem_cons.2 ⟨hname, List.forall_mem_singleton.2 hsize⟩
  have hst : s.Reordered t :=
    .trans (.inUnion [.function []] [] (.inUnion [.literal .nil] []
        (.fields (List.reverse_perm fields).symm)))
      (.trans (.flatUnion [.function []] _ []) (.union (List.reverse_perm _).symm))
  have hh : h.Reordered h' := by
    refine ⟨rfl, rfl, rfl, rfl, fun a => ?_⟩
    cases a with
    | zero => exact .swap _ _ _
    | succ a => exact .refl _
  have hmatch : matchWith h true s (.table 0) = .ok (some [1, 1]) := by rfl
  obtain ⟨b, hb, hb'⟩ := match_reordered hs hst hh true (.table 0)
  rw [hmatch] at hb
  obtain rfl : true = b := Except.ok.inj hb
  exact ⟨hs, hst, hh, hmatch, hb'⟩

end Shape

end CommandScript
