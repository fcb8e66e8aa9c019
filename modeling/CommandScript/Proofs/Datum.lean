import Mathlib.Data.List.Forall2
import Mathlib.Data.List.Perm.Subperm
import CommandScript.Proofs.Known
import CommandScript.Proofs.Spelled
/-!
# CommandScript — data

A value is data where it is made of nil, booleans, whole numbers and strings in vectors
and tables. A vector or table is an address, so what value it is depends on the heap. A
`Datum` is what it is without the heap: `Datum.Is` says that a value is that datum in a
heap, and two values are the same data if they are the same datum, each in its heap.

A datum is a finite tree, so the containers on the way into it all differ, and it nests
no deeper than there are containers in the heap (`Datum.Is.levels_le`).
-/

namespace CommandScript

/-- Elements of two lists that are related pairwise are so in another way, where that
follows for the elements of the first list. -/
theorem forall₂_imp_of_mem {α β : Type} {R S : α → β → Prop} {xs : List α} {ys : List β}
    (h : List.Forall₂ R xs ys) (himp : ∀ x ∈ xs, ∀ {y}, R x y → S x y) : List.Forall₂ S xs ys :=
  ((List.forall₂_and_left _ _).2 ⟨himp, h⟩).imp fun _ _ hxy => hxy.1 hxy.2

/-- A key of a table that is data. -/
inductive Key where
  | bool (b : Bool)
  | int (n : Int)
  | string (s : String)

/-- What a value is, if it is data. -/
inductive Datum where
  | nil
  | bool (b : Bool)
  | int (n : Int)
  | string (s : String)
  | vector (items : List Datum)
  | table (entries : List (Key × Datum))

namespace Key

/-- The key as a value. -/
def value : Key → Value
  | bool b => .bool b
  | int n => .int n
  | string s => .string s

/-- The key as data. -/
def datum : Key → Datum
  | bool b => .bool b
  | int n => .int n
  | string s => .string s

theorem value_injective : Function.Injective value := by
  intro k l h
  cases k <;> cases l <;> simp_all [value, Value.int]

theorem isKey_value (k : Key) : k.value.isKey = true := by cases k <;> rfl

/-- The word that a key is written as; none if it is written in brackets. -/
def name? : Key → Option String
  | string s => if Text.isWord s.toList then some s else none
  | _ => none

end Key

namespace Datum

/-- A property of data holds if it holds of a container whenever it holds of all that is
in it. -/
@[elab_as_elim]
theorem induction {motive : Datum → Prop} (nil : motive .nil) (bool : ∀ b, motive (.bool b))
    (int : ∀ n, motive (.int n)) (string : ∀ s, motive (.string s))
    (vector : ∀ ds, (∀ d ∈ ds, motive d) → motive (.vector ds))
    (table : ∀ es, (∀ e ∈ es, motive e.2) → motive (.table es)) : ∀ d, motive d
  | .nil => nil
  | .bool b => bool b
  | .int n => int n
  | .string s => string s
  | .vector ds => vector ds fun d _ => induction nil bool int string vector table d
  | .table es => table es fun e _ => induction nil bool int string vector table e.2
termination_by d => sizeOf d
decreasing_by
  · rename_i hd
    have hlt := List.sizeOf_lt_of_mem hd
    simp only [Datum.vector.sizeOf_spec]
    omega
  · rename_i he
    have hlt := List.sizeOf_lt_of_mem he
    obtain ⟨k, d⟩ := e
    simp only [Datum.table.sizeOf_spec, Prod.mk.sizeOf_spec] at *
    omega

mutual

/-- How many containers are nested in one another. -/
def levels : Datum → Nat
  | .nil | .bool _ | .int _ | .string _ => 0
  | .vector ds => levelsAll ds + 1
  | .table es => levelsEntries es + 1

def levelsAll : List Datum → Nat
  | [] => 0
  | d :: rest => max (levels d) (levelsAll rest)

def levelsEntry : Key × Datum → Nat
  | (_, d) => levels d

def levelsEntries : List (Key × Datum) → Nat
  | [] => 0
  | e :: rest => max (levelsEntry e) (levelsEntries rest)

end

theorem levels_le_levelsAll {d : Datum} {ds : List Datum} (hd : d ∈ ds) :
    d.levels ≤ levelsAll ds := by
  induction ds with
  | nil => exact absurd hd List.not_mem_nil
  | cons e rest ih =>
    obtain rfl | hd := List.mem_cons.1 hd
    · exact Nat.le_max_left _ _
    · exact Nat.le_trans (ih hd) (Nat.le_max_right _ _)

theorem levelsAll_map (es : List (Key × Datum)) :
    levelsAll (es.map (·.2)) = levelsEntries es := by
  induction es with
  | nil => rfl
  | cons e rest ih =>
    obtain ⟨k, d⟩ := e
    exact congrArg (max d.levels) ih

theorem levels_le_levelsEntries {e : Key × Datum} {es : List (Key × Datum)} (he : e ∈ es) :
    e.2.levels ≤ levelsEntries es := by
  rw [← levelsAll_map]
  exact levels_le_levelsAll (List.mem_map_of_mem he)

/-- The value is this datum in a heap. -/
inductive Is (h : Heap) : Datum → Value → Prop
  | nil : Is h .nil .nil
  | bool (b : Bool) : Is h (.bool b) (.bool b)
  | int (n : Int) : Is h (.int n) (.int n)
  | string (s : String) : Is h (.string s) (.string s)
  | vector {ds : List Datum} {a : Address} {vs : List Value} (stored : h.vectors[a]? = some vs)
    (items : List.Forall₂ (Is h) ds vs) : Is h (.vector ds) (.vector a)
  | table {es : List (Key × Datum)} {a : Address} {t : Table Value}
    (stored : h.tables[a]? = some t) (keys : t.entries.map (·.1) = (es.map (·.1)).map Key.value)
    (values : List.Forall₂ (Is h) (es.map (·.2)) (t.entries.map (·.2))) :
    Is h (.table es) (.table a)

variable {h h' : Heap} {d e : Datum} {v : Value}

theorem Is.datum {k : Key} (hk : k.datum.Is h v) : v = k.value := by
  cases k <;> cases hk <;> rfl

theorem is_datum (h : Heap) (k : Key) : k.datum.Is h k.value := by
  cases k <;> constructor

/-- The entries of a table, one by one. -/
theorem is_entries {es : List (Key × Datum)} {entries : List (Value × Value)}
    (keys : entries.map (·.1) = (es.map (·.1)).map Key.value)
    (values : List.Forall₂ (Is h) (es.map (·.2)) (entries.map (·.2))) :
    List.Forall₂ (fun e p => p.1 = e.1.value ∧ Is h e.2 p.2) es entries := by
  induction es generalizing entries with
  | nil =>
    obtain rfl : entries = [] := by simpa using keys
    exact .nil
  | cons e es ih =>
    cases entries with
    | nil => cases values
    | cons p entries =>
      obtain ⟨hkey, hkeys⟩ := List.cons_eq_cons.1 keys
      cases values with
      | cons hvalue hvalues => exact .cons ⟨hkey, hvalue⟩ (ih hkeys hvalues)

/-- A value that is more than nil, a boolean, a number or a string is a container. -/
theorem Is.mem_containers (hd : d.Is h v) (hlevels : 0 < d.levels) :
    v ∈ (List.range h.vectors.size).map Value.vector ++
      (List.range h.tables.size).map Value.table := by
  have hsize : ∀ {α : Type} {xs : Array α} {a : Address} {x : α}, xs[a]? = some x →
      a ∈ List.range xs.size := fun ha => by
    obtain ⟨hlt, -⟩ := Array.getElem?_eq_some_iff.1 ha
    exact List.mem_range.2 hlt
  cases hd with
  | vector stored => exact List.mem_append_left _ (List.mem_map_of_mem (hsize stored))
  | table stored => exact List.mem_append_right _ (List.mem_map_of_mem (hsize stored))
  | _ => exact absurd hlevels (Nat.lt_irrefl 0)

/-- **A value stays the datum that it is** in a heap that grows. -/
theorem Is.mono (hh : h.Extends h') (hd : d.Is h v) : d.Is h' v := by
  have hstored : ∀ {α : Type} {xs ys : Array α} {a : Address} {x : α},
      xs.toList <+: ys.toList → xs[a]? = some x → ys[a]? = some x := by
    rintro α xs ys a x ⟨more, hmore⟩ hx
    rw [← Array.getElem?_toList] at hx ⊢
    rw [← hmore, List.getElem?_append_left (List.getElem?_eq_some_iff.1 hx).1, hx]
  induction d using Datum.induction generalizing v with
  | nil | bool | int | string => cases hd; constructor
  | vector ds ih =>
    cases hd with
    | vector stored items =>
      exact .vector (hstored hh.vectors stored) (forall₂_imp_of_mem items ih)
  | table es ih =>
    cases hd with
    | table stored keys values =>
      have hvalues := forall₂_imp_of_mem values (List.forall_mem_map.2 ih)
      exact .table (hstored hh.tables stored) keys hvalues

/-- A new vector of values that are data. -/
theorem is_newVector {ds : List Datum} {vs : List Value} (hvs : List.Forall₂ (Is h) ds vs) :
    (Datum.vector ds).Is (h.newVector vs).2 (h.newVector vs).1 := by
  have hstored : (h.newVector vs).2.vectors[h.vectors.size]? = some vs := Array.getElem?_push_size
  exact .vector hstored (hvs.imp fun d v hd => hd.mono (.newVector h vs))

/-- A new table of entries that are data. -/
theorem is_newTable {es : List (Key × Datum)} {entries : List (Value × Value)}
    (keys : entries.map (·.1) = (es.map (·.1)).map Key.value)
    (values : List.Forall₂ (Is h) (es.map (·.2)) (entries.map (·.2))) :
    (Datum.table es).Is (h.newTable ⟨entries⟩).2 (h.newTable ⟨entries⟩).1 := by
  have hstored : (h.newTable ⟨entries⟩).2.tables[h.tables.size]? = some ⟨entries⟩ :=
    Array.getElem?_push_size
  exact .table hstored keys (values.imp fun d v hd => hd.mono (.newTable h ⟨entries⟩))

/-- **A value is one datum.** -/
theorem Is.unique (hd : d.Is h v) (he : e.Is h v) : d = e := by
  have hlists : ∀ {ds es : List Datum} {vs : List Value},
      (∀ d ∈ ds, ∀ {e v}, d.Is h v → e.Is h v → d = e) →
      List.Forall₂ (Is h) ds vs → List.Forall₂ (Is h) es vs → ds = es := by
    intro ds es vs hunique hds hes
    induction hds generalizing es with
    | nil => exact (List.forall₂_nil_right_iff.1 hes).symm
    | cons hd _ ih =>
      cases hes with
      | cons he hes =>
        rw [hunique _ List.mem_cons_self hd he,
          ih (fun d hd => hunique d (List.mem_cons_of_mem _ hd)) hes]
  induction d using Datum.induction generalizing e v with
  | nil | bool | int | string => cases hd; cases he; rfl
  | vector ds ih =>
    cases hd with
    | vector stored items =>
      cases he with
      | vector stored' items' =>
        obtain rfl := Option.some.inj (stored.symm.trans stored')
        rw [hlists ih items items']
  | table es ih =>
    cases hd with
    | table stored keys values =>
      cases he with
      | @table fs _ _ stored' keys' values' =>
        obtain rfl := Option.some.inj (stored.symm.trans stored')
        have hkeys : es.map (·.1) = fs.map (·.1) :=
          List.map_injective_iff.2 Key.value_injective (keys.symm.trans keys')
        have hvalues := hlists (List.forall_mem_map.2 ih) values values'
        have hentries : es = fs := calc
          es = (es.map (·.1)).zip (es.map (·.2)) := List.zip_of_prod rfl rfl
          _ = (fs.map (·.1)).zip (fs.map (·.2)) := by rw [hkeys, hvalues]
          _ = fs := (List.zip_of_prod rfl rfl).symm
        rw [hentries]

/-- There is a value of every level on the way into a datum. -/
theorem Is.exists_levels_eq (hd : d.Is h v) {n : Nat} (hn : 0 < n) (hle : n ≤ d.levels) :
    ∃ (e : Datum) (w : Value), e.Is h w ∧ e.levels = n := by
  have hinner : ∀ {ds : List Datum} {vs : List Value},
      (∀ d ∈ ds, ∀ {v}, d.Is h v → n ≤ d.levels →
        ∃ (e : Datum) (w : Value), e.Is h w ∧ e.levels = n) →
      List.Forall₂ (Is h) ds vs → n ≤ levelsAll ds →
      ∃ (e : Datum) (w : Value), e.Is h w ∧ e.levels = n := by
    intro ds vs hds hvs hle
    induction hvs with
    | nil => exact absurd hle (Nat.not_le_of_lt hn)
    | @cons d v ds vs hd hvs ih =>
      change n ≤ max d.levels (levelsAll ds) at hle
      obtain hle | hle : n ≤ d.levels ∨ n ≤ levelsAll ds := by omega
      · exact hds d List.mem_cons_self hd hle
      · exact ih (fun d hd => hds d (List.mem_cons_of_mem _ hd)) hle
  induction d using Datum.induction generalizing v with
  | nil | bool | int | string => exact absurd hle (Nat.not_le_of_lt hn)
  | vector ds ih =>
    obtain hlt | heq := Nat.lt_or_eq_of_le hle
    · cases hd with
      | vector stored items => exact hinner ih items (Nat.le_of_lt_succ hlt)
    · exact ⟨_, v, hd, heq.symm⟩
  | table es ih =>
    obtain hlt | heq := Nat.lt_or_eq_of_le hle
    · cases hd with
      | table stored keys values =>
        rw [Datum.levels, ← levelsAll_map] at hlt
        exact hinner (List.forall_mem_map.2 ih) values (Nat.le_of_lt_succ hlt)
    · exact ⟨_, v, hd, heq.symm⟩

/-- **A value nests no deeper than there are containers**: one of them is no value of two
levels. -/
theorem Is.levels_le (hd : d.Is h v) : d.levels ≤ h.containers := by
  -- one value of each level, and values of different levels differ
  have hmany : ∀ n ≤ d.levels, ∃ vs : List Value, vs.Nodup ∧ vs.length = n ∧
      ∀ w ∈ vs, ∃ e : Datum, e.Is h w ∧ 0 < e.levels ∧ e.levels ≤ n := by
    intro n
    induction n with
    | zero => exact fun _ => ⟨[], List.nodup_nil, rfl, fun w hw => absurd hw List.not_mem_nil⟩
    | succ n ih =>
      intro hn
      obtain ⟨vs, hnodup, hlength, hvs⟩ := ih (Nat.le_of_succ_le hn)
      obtain ⟨e, w, he, hlevels⟩ := hd.exists_levels_eq (Nat.succ_pos n) hn
      have hlength' : (w :: vs).length = n + 1 := by rw [List.length_cons, hlength]
      refine ⟨w :: vs, List.nodup_cons.2 ⟨fun hw => ?_, hnodup⟩, hlength', ?_⟩
      · obtain ⟨f, hf, -, hle⟩ := hvs w hw
        rw [hf.unique he] at hle
        omega
      · refine List.forall_mem_cons.2 ⟨⟨e, he, by omega, by omega⟩, fun w hw => ?_⟩
        obtain ⟨f, hf, hpos, hle⟩ := hvs w hw
        exact ⟨f, hf, hpos, by omega⟩
  obtain ⟨vs, hnodup, hlength, hvs⟩ := hmany _ (Nat.le_refl _)
  have hsub : vs ⊆ (List.range h.vectors.size).map Value.vector ++
      (List.range h.tables.size).map Value.table := fun w hw => by
    obtain ⟨e, he, hpos, -⟩ := hvs w hw
    exact he.mem_containers hpos
  have hle := (List.subperm_of_subset hnodup hsub).length_le
  simp only [List.length_append, List.length_map, List.length_range] at hle
  unfold Heap.containers
  omega

/-! ## Data with a text -/

/-- A whole number of not too many digits, and a string on one line. -/
inductive Scalar : Datum → Prop
  | nil : Scalar .nil
  | bool (b : Bool) : Scalar (.bool b)
  | int {n : Int} (digits : n.natAbs < Decimal.tenTo Decimal.digitLimit) : Scalar (.int n)
  | string {s : String} (oneLine : ∀ c ∈ s.toList, isLineBreak c = false) : Scalar (.string s)

/-- Data whose text shows all of it: its numbers and strings have a text, a word that is a key
can be told from a keyword, and as in every table, no two keys are the same key and there is no
key without a value. -/
inductive Writable : Datum → Prop
  | scalar {d : Datum} (h : Scalar d) : Writable d
  | vector {ds : List Datum} (items : ∀ d ∈ ds, Writable d) : Writable (.vector ds)
  | table {es : List (Key × Datum)} (keys : ∀ e ∈ es, Scalar e.1.datum)
    (names : ∀ e ∈ es, ∀ name ∈ e.1.name?, isIdentifier name.toList = true)
    (distinct : es.Pairwise fun e f => e.1.value.same f.1.value = false)
    (present : ∀ e ∈ es, e.2 ≠ .nil) (values : ∀ e ∈ es, Writable e.2) : Writable (.table es)

end Datum

end CommandScript
