import CommandScript.Proofs.Step
import CommandScript.Proofs.Static
import CommandScript.Assist.Assistance
import CommandScript.Host.Recorder
/-!
# CommandScript — what is known beforehand is what comes out

Where the value of an expression is known before a run (`Static.value`), the run
gives that value, and all it changes is the heap, where it builds the new vectors
and tables that the value is made of.

The two are compared step by step. Both build containers in the order of the text,
so they build them at the same addresses, and a known value is not only like the
value of the run but the same one.
-/

namespace CommandScript

variable {σ α β : Type}

/-! ## A heap that grew -/

/-- Vectors and tables were added, and nothing that was there has changed. -/
structure Heap.Extends (h h' : Heap) : Prop where
  vectors : h.vectors.toList <+: h'.vectors.toList
  tables : h.tables.toList <+: h'.tables.toList
  tuples : h'.tuples = h.tuples
  lambdas : h'.lambdas = h.lambdas

namespace Heap.Extends

variable {h h' h'' : Heap}

theorem refl (h : Heap) : h.Extends h := ⟨List.prefix_rfl, List.prefix_rfl, rfl, rfl⟩

theorem trans (a : h.Extends h') (b : h'.Extends h'') : h.Extends h'' :=
  ⟨a.vectors.trans b.vectors, a.tables.trans b.tables, b.tuples.trans a.tuples,
    b.lambdas.trans a.lambdas⟩

theorem newVector (h : Heap) (items : List Value) : h.Extends (h.newVector items).2 :=
  ⟨by simp [Heap.newVector], List.prefix_rfl, rfl, rfl⟩

theorem newTable (h : Heap) (t : Table Value) : h.Extends (h.newTable t).2 :=
  ⟨List.prefix_rfl, by simp [Heap.newTable], rfl, rfl⟩

end Heap.Extends

/-! ## Steps that only build -/

namespace Exec

/-- A step ends well with a result, and changes nothing but the heap, which grows. -/
def Gives (step : Exec σ α) (s : State σ) (a : α) (h : Heap) : Prop :=
  step s = (.ok a, { s with heap := h }) ∧ s.heap.Extends h

variable {s : State σ} {h h' : Heap} {a : α} {b : β}

theorem gives_pure (s : State σ) (a : α) : (pure a : Exec σ α).Gives s a s.heap := ⟨rfl, .refl _⟩

theorem Gives.bind {x : Exec σ α} {f : α → Exec σ β} (hx : x.Gives s a h)
    (hf : (f a).Gives { s with heap := h } b h') : (x >>= f).Gives s b h' := by
  refine ⟨?_, hx.2.trans hf.2⟩
  rw [bind_apply, hx.1]
  exact hf.1

/-- Looking at the state changes nothing. -/
theorem gives_get {f : State σ → Exec σ β} (hf : (f s).Gives s b h) :
    ((get : Exec σ (State σ)) >>= f).Gives s b h :=
  Gives.bind (gives_pure s s) hf

theorem gives_newVector (s : State σ) (items : List Value) :
    (make (·.newVector items) : Exec σ Value).Gives s (s.heap.newVector items).1
      (s.heap.newVector items).2 :=
  ⟨rfl, .newVector _ _⟩

theorem gives_newTable (s : State σ) (t : Table Value) :
    (make (·.newTable t) : Exec σ Value).Gives s (s.heap.newTable t).1 (s.heap.newTable t).2 :=
  ⟨rfl, .newTable _ _⟩

end Exec

/-! ## Known values -/

/-- What is known is so in a state: the globals are those of the state, and a variable
of known value has this value. -/
structure Surround.Matches (sur : Surround) (s : State σ) : Prop where
  globals : sur.globals = s.globals
  vars : ∀ name v, sur.find? name = some (some v) → s.frames.get s.scope name = v

/-! ## One rule after the other -/

section Rules

open Exec

variable (host : Host σ) (sur : Surround) (self : String → (t : Task σ) → Exec σ t.Result)
variable (source : String) (n : Nat)

/-- Expressions up to a size are evaluated to what is known of them. -/
def GivesKnown : Prop :=
  ∀ e : Expression, sizeOf e < n → ∀ (s : State σ) v h, sur.Matches s →
    Static.value sur e s.heap = .ok (some v, h) → (self source (.value e)).Gives s v h

variable {host sur self source n} {s : State σ} {v : Value} {h : Heap}

theorem Surround.Matches.withHeap (hm : sur.Matches s) (h : Heap) :
    sur.Matches { s with heap := h } :=
  ⟨hm.globals, hm.vars⟩

theorem gives_required (hself : GivesKnown sur self source n) (hm : sur.Matches s)
    {o : Option Expression} (hn : sizeOf o ≤ n) (span : Span)
    (ho : Static.valueOptional sur o s.heap = .ok (some v, h)) :
    (Eval.required self source o span).Gives s v h := by
  cases o with
  | none => cases ho
  | some e =>
    have he : sizeOf e < n := by
      simp only [Option.some.sizeOf_spec] at hn
      omega
    exact hself e he s v h hm ho

theorem gives_operated {r : Except OperatorFault Value} (hr : r = .ok v) (span : Span) :
    (Eval.operated span r : Exec σ Value).Gives s v s.heap := by
  subst hr
  exact gives_pure s v

theorem gives_tableKey (s : State σ) {k : Value} (hk : k.isKey) (span : Span) :
    (Eval.tableKey k span : Exec σ Value).Gives s k s.heap := by
  unfold Eval.tableKey
  split
  · cases hk
  · rw [if_pos hk]
    exact gives_pure s k

/-- All items of a known vector are known. -/
theorem gives_itemValues (hself : GivesKnown sur self source n) (is : Separated Expression)
    (hn : sizeOf is ≤ n) (hm : sur.Matches s) {items : List Known} {vs : List Value}
    (hi : Static.valueItems sur is s.heap = .ok (items, h)) (hvs : items.mapM id = some vs) :
    (Eval.itemValues self source is).Gives s vs h := by
  induction is generalizing s items vs with
  | nil =>
    obtain ⟨rfl, rfl⟩ := Static.of_pure_eq_ok hi
    obtain rfl : [] = vs := by simpa using hvs
    exact gives_pure s []
  | cons i rest ih =>
    obtain ⟨item, separator, span⟩ := i
    simp only [List.cons.sizeOf_spec, SeparatedItem.mk.sizeOf_spec] at hn
    rw [Static.valueItems, Static.valueItem] at hi
    obtain ⟨k, h₁, hk, hi⟩ := Static.of_bind_eq_ok hi
    obtain ⟨ks, h₂, hks, hi⟩ := Static.of_bind_eq_ok hi
    obtain ⟨rfl, rfl⟩ := Static.of_pure_eq_ok hi
    cases k with
    | none => simp at hvs
    | some v =>
      obtain ⟨ws, hws, rfl⟩ : ∃ ws, ks.mapM id = some ws ∧ v :: ws = vs := by
        simpa [List.mapM_cons, Option.bind_eq_some_iff] using hvs
      have hfirst := gives_required hself hm (by omega) span hk
      have hrest := ih (by omega) (hm.withHeap h₁) hks hws
      exact hfirst.bind (hrest.bind (gives_pure _ _))

/-- A known field has a known key that a table accepts, and a known value. -/
theorem gives_field (hself : GivesKnown sur self source n) (hm : sur.Matches s) {f : TableField}
    (hn : sizeOf f ≤ n) {position : Int} {k : Value} (hk : k.isKey)
    (hf : Static.valueField sur position f s.heap = .ok (some (some k, some v), h)) :
    ∃ h₁, (Eval.fieldKey self source position f).Gives s k h₁ ∧
      (Eval.required self source f.value f.span).Gives { s with heap := h₁ } v h := by
  cases f with
  | named name equal value span =>
    cases value with
    | none => cases hf
    | some e =>
      obtain ⟨w, h₁, hw, hf⟩ := Static.of_bind_eq_ok hf
      obtain ⟨hkv, rfl⟩ := Static.of_pure_eq_ok hf
      obtain ⟨rfl, rfl⟩ : Value.string name.text = k ∧ w = some v := by simpa using hkv
      simp only [TableField.named.sizeOf_spec, Option.some.sizeOf_spec] at hn
      exact ⟨_, gives_pure s _, hself e (by omega) s v h₁ hm hw⟩
  | keyed opening key equal value span =>
    cases value with
    | none => cases hf
    | some e =>
      obtain ⟨kk, h₁, hkk, hf⟩ := Static.of_bind_eq_ok hf
      obtain ⟨w, h₂, hw, hf⟩ := Static.of_bind_eq_ok hf
      obtain ⟨hkv, rfl⟩ := Static.of_pure_eq_ok hf
      obtain ⟨rfl, rfl⟩ : kk = some k ∧ w = some v := by simpa using hkv
      simp only [TableField.keyed.sizeOf_spec, Option.some.sizeOf_spec] at hn
      have hkey := gives_required hself hm (by omega) span hkk
      refine ⟨h₁, hkey.bind (gives_tableKey _ hk span), ?_⟩
      exact hself e (by omega) _ v h₂ (hm.withHeap h₁) hw
  | positional e span =>
    obtain ⟨w, h₁, hw, hf⟩ := Static.of_bind_eq_ok hf
    obtain ⟨hkv, rfl⟩ := Static.of_pure_eq_ok hf
    obtain ⟨rfl, rfl⟩ : Value.int position = k ∧ w = some v := by simpa using hkv
    simp only [TableField.positional.sizeOf_spec] at hn
    exact ⟨_, gives_pure s _, hself e (by omega) s v h₁ hm hw⟩

/-- The entries of a known table, which is made once all of them are there. -/
theorem gives_fieldEntries (hself : GivesKnown sur self source n) (fs : Separated TableField)
    (hn : sizeOf fs ≤ n) (hm : sur.Matches s) {position : Int} {t : Table Value}
    (hf : Static.valueFields sur position t fs s.heap = .ok (some v, h)) :
    ∃ t' h₁, (Eval.fieldEntries self source position t fs).Gives s t' h₁ ∧
      h₁.newTable t' = (v, h) := by
  induction fs generalizing s position t with
  | nil =>
    refine ⟨t, s.heap, gives_pure s t, ?_⟩
    cases hf
    rfl
  | cons i rest ih =>
    obtain ⟨field, separator, span⟩ := i
    simp only [List.cons.sizeOf_spec, SeparatedItem.mk.sizeOf_spec] at hn
    rw [Static.valueFields] at hf
    obtain ⟨entry, h₁, hentry, hf⟩ := Static.of_bind_eq_ok hf
    cases field with
    | none =>
      cases hentry
      cases hf
    | some f =>
      simp only [Option.some.sizeOf_spec] at hn
      split at hf
      · rename_i k w
        split at hf
        · cases hf
        · rename_i hkey
          obtain ⟨h₀, hk, hw⟩ :=
            gives_field hself hm (by omega) (by simpa using hkey) hentry
          -- A field whose value is nil makes no entry, in the run as beforehand.
          split at hf
          · obtain ⟨t', h₂, hrest, hmade⟩ := ih (by omega) (hm.withHeap h₁) hf
            exact ⟨t', h₂, hk.bind (hw.bind (by cases f <;> exact hrest)), hmade⟩
          · rename_i hnil
            obtain ⟨t', h₂, hrest, hmade⟩ := ih (by omega) (hm.withHeap h₁) hf
            refine ⟨t', h₂, hk.bind (hw.bind ?_), hmade⟩
            split
            · exact absurd rfl hnil
            · cases f <;> exact hrest
      · cases hf

/-! ### Variable chains -/

/-- What is known to stand under a key is what the run finds there. -/
theorem gives_index (host : Host σ) (s : State σ) {container key : Known} (span : Span)
    (hi : Static.index s.heap container key = some v) :
    ∃ c k, container = some c ∧ key = some k ∧
      (Eval.index host c k span).Gives s v s.heap := by
  unfold Static.index at hi
  split at hi
  · rename_i a k
    split at hi
    · rename_i hk
      have hread : (pure (((s.heap.table a).get? k).getD .nil) : Exec σ Value).Gives s v
          s.heap := by
        rw [hi]
        exact gives_pure s v
      refine ⟨_, k, rfl, rfl, ?_⟩
      unfold Eval.index
      dsimp only
      split
      · cases hk
      · exact (gives_tableKey s hk span).bind (gives_get hread)
    · cases hi
  · rename_i a i
    split at hi
    · rename_i hpos
      have hread : (pure ((s.heap.vector a)[(i - 1).toNat]?.getD .nil) : Exec σ Value).Gives s v
          s.heap := by
        rw [hi]
        exact gives_pure s v
      have hwhole : (Eval.vectorIndex (.number (.int i)) span : Exec σ Int).Gives s i s.heap :=
        gives_pure s i
      refine ⟨_, _, rfl, rfl, hwhole.bind ?_⟩
      rw [if_pos hpos]
      exact gives_get hread
    · cases hi
  · cases hi

theorem gives_suffixKey (hself : GivesKnown sur self source n) (hm : sur.Matches s)
    {suffix : VarSuffix} (hn : sizeOf suffix ≤ n)
    (hk : Static.suffixKey sur suffix s.heap = .ok (some v, h)) :
    (Eval.suffixKey self source suffix).Gives s v h := by
  cases suffix with
  | field period name span =>
    obtain ⟨hkey, rfl⟩ := Static.of_pure_eq_ok hk
    cases name with
    | none => cases hkey
    | some t =>
      cases hkey
      exact gives_pure s _
  | index period brackets inner span =>
    simp only [VarSuffix.index.sizeOf_spec] at hn
    exact gives_required hself hm (by omega) span hk

/-- A chain of known value is known at every step, from its beginning. -/
theorem gives_followSuffixes (host : Host σ) (hself : GivesKnown sur self source n)
    (ss : List VarSuffix) (hn : sizeOf ss ≤ n) (hm : sur.Matches s) {k : Known}
    {shape shape' : Option Shape}
    (hss : Static.suffixes sur ss ss.length (k, shape) s.heap = .ok ((some v, shape'), h)) :
    ∃ w, k = some w ∧ (Eval.followSuffixes host self source ss w).Gives s v h := by
  induction ss generalizing s k shape with
  | nil =>
    obtain ⟨hk, rfl⟩ := Static.of_pure_eq_ok hss
    cases hk
    exact ⟨v, rfl, gives_pure s v⟩
  | cons x rest ih =>
    simp only [List.cons.sizeOf_spec] at hn
    rw [List.length_cons, Static.suffixes] at hss
    obtain ⟨key, h₁, hkey, hss⟩ := Static.of_bind_eq_ok hss
    obtain ⟨w, hw, hrest⟩ := ih (by omega) (hm.withHeap h₁) hss
    obtain ⟨c, k', rfl, rfl, hindex⟩ := gives_index host { s with heap := h₁ } x.span hw
    exact ⟨c, rfl, (gives_suffixKey hself hm (by omega) hkey).bind (hindex.bind hrest)⟩

/-- A bare name is looked up among the globals first, in the run as beforehand. -/
theorem gives_rootValue (hm : sur.Matches s) {r : VarRoot} {shape : Option Shape}
    (hr : Static.root sur r = (some v, shape)) :
    (Eval.rootValue self source r).Gives s v s.heap := by
  have hfind : ∀ name, sur.lookup name = some v → s.frames.get s.scope name = v := by
    intro name hname
    unfold Surround.lookup at hname
    cases hf : sur.find? name with
    | none => simp [hf] at hname
    | some k => exact hm.vars name v (by simpa [hf] using hname)
  have hvar : ∀ name, s.frames.get s.scope name = v →
      (do return (← get).frames.get (← get).scope name : Exec σ Value).Gives s v s.heap := by
    rintro name rfl
    exact gives_pure s _
  cases r with
  | bare t =>
    have hvalue := congrArg Prod.fst hr
    simp only [Static.root, hm.globals] at hvalue
    refine gives_get ((gives_pure s (s.globals.get? t.text)).bind ?_)
    cases hg : s.globals.get? t.text with
    | some w =>
      obtain rfl : w = v := by simpa [hg] using hvalue
      exact gives_pure s w
    | none => exact (gives_pure s t.text).bind (hvar _ (hfind _ (by simpa [hg] using hvalue)))
  | named dollar name span =>
    cases name with
    | none => cases hr
    | some t =>
      have hname : sur.lookup t.text = some v := congrArg Prod.fst hr
      exact (gives_pure s (none : Known)).bind ((gives_pure s t.text).bind (hvar _ (hfind _ hname)))
  | computed dollar brackets inner span => cases hr

theorem gives_varValue (host : Host σ) (hself : GivesKnown sur self source n) (hm : sur.Matches s)
    {x : Var} (hn : sizeOf x ≤ n) {shape : Option Shape}
    (hx : Static.chain sur x s.heap = .ok ((some v, shape), h)) :
    (Eval.varValue host self source x).Gives s v h := by
  obtain ⟨r, ss, span⟩ := x
  simp only [Var.mk.sizeOf_spec] at hn
  rw [Static.chain] at hx
  obtain ⟨w, hw, hrest⟩ := gives_followSuffixes host hself ss (by omega) hm hx
  exact (gives_rootValue hm (Prod.ext hw rfl)).bind hrest

/-! ### Expressions -/

/-- Both operands of a known result are known, and the operator is no `and` and no
`or`, so both are evaluated. -/
theorem gives_binary (hself : GivesKnown sur self source n) (hm : sur.Matches s)
    {l : Expression} {o : Token} {r : Option Expression} (span : Span) (hl : sizeOf l < n)
    (hr : sizeOf r ≤ n) (hv : Static.value sur (.binary l o r span) s.heap = .ok (some v, h)) :
    (Eval.binary self source l o r span).Gives s v h := by
  rw [Static.value] at hv
  split at hv
  · rename_i hfolds
    obtain ⟨a, h₁, ha, hv⟩ := Static.of_bind_eq_ok hv
    obtain ⟨b, h₂, hb, hv⟩ := Static.of_bind_eq_ok hv
    obtain ⟨a, rfl⟩ : ∃ w, a = some w := by
      cases a with
      | none => cases hv
      | some w => exact ⟨w, rfl⟩
    obtain ⟨b, rfl⟩ : ∃ w, b = some w := by
      cases b with
      | none => cases hv
      | some w => exact ⟨w, rfl⟩
    obtain ⟨heap, h₃, hheap, hv⟩ := Static.of_bind_eq_ok hv
    obtain ⟨rfl, rfl⟩ : h₂ = heap ∧ h₂ = h₃ := by
      cases hheap
      exact ⟨rfl, rfl⟩
    obtain ⟨hop, rfl⟩ := Static.of_operated_eq_ok hv
    have hleft := hself l hl s a h₁ hm ha
    have hright := gives_required hself (hm.withHeap h₁) hr span hb
    have hresult : (Eval.operated span (Operator.binary h₂ o.kind a b) : Exec σ Value).Gives
        { s with heap := h₂ } v h₂ := gives_operated hop span
    refine hleft.bind ?_
    split
    · simp [Static.folds, *] at hfolds
    · simp [Static.folds, *] at hfolds
    · exact hright.bind (gives_get hresult)
  · cases hv

theorem gives_value (host : Host σ) (hself : GivesKnown sur self source n) (hm : sur.Matches s)
    (e : Expression) (hn : sizeOf e < n + 1)
    (hv : Static.value sur e s.heap = .ok (some v, h)) :
    (Eval.value host self source e).Gives s v h := by
  cases e with
  | nil t | boolean t | string t =>
    cases hv
    exact gives_pure s _
  | number t =>
    rw [Static.value] at hv
    obtain ⟨hnumber, rfl⟩ := Static.of_pure_eq_ok hv
    cases ht : t.numberValue? with
    | none => simp [ht] at hnumber
    | some k =>
      obtain rfl : Value.number k = v := by simpa [ht] using hnumber
      simp only [Eval.value, ht]
      exact gives_pure s _
  | unary o e span =>
    simp only [Expression.unary.sizeOf_spec] at hn
    rw [Static.value] at hv
    obtain ⟨k, h₁, hk, hv⟩ := Static.of_bind_eq_ok hv
    cases k with
    | none => cases hv
    | some w =>
      obtain ⟨hop, rfl⟩ := Static.of_operated_eq_ok hv
      exact (gives_required hself hm (by omega) span hk).bind (gives_operated hop span)
  | binary l o r span =>
    simp only [Expression.binary.sizeOf_spec] at hn
    exact gives_binary hself hm span (by omega) (by omega) hv
  | vector brackets is span =>
    simp only [Expression.vector.sizeOf_spec] at hn
    rw [Static.value] at hv
    obtain ⟨ks, h₁, hks, hv⟩ := Static.of_bind_eq_ok hv
    unfold Static.vectorOf at hv
    cases hvs : ks.mapM id with
    | none =>
      simp only [hvs] at hv
      cases hv
    | some vs =>
      simp only [hvs] at hv
      cases hv
      exact (gives_itemValues hself is (by omega) hm hks hvs).bind (gives_newVector _ vs)
  | table brackets fs span =>
    simp only [Expression.table.sizeOf_spec] at hn
    rw [Static.value] at hv
    obtain ⟨t, h₁, hentries, hmade⟩ := gives_fieldEntries hself fs (by omega) hm hv
    have hmake := gives_newTable { s with heap := h₁ } t
    rw [hmade] at hmake
    exact hentries.bind hmake
  | group brackets inner span =>
    simp only [Expression.group.sizeOf_spec] at hn
    cases inner with
    | none =>
      cases hv
      exact gives_pure s _
    | some e =>
      simp only [Option.some.sizeOf_spec] at hn
      exact hself e (by omega) s v h hm hv
  | var x =>
    simp only [Expression.var.sizeOf_spec] at hn
    rw [Static.value] at hv
    obtain ⟨⟨k, shape⟩, h₁, hx, hv⟩ := Static.of_bind_eq_ok hv
    obtain ⟨rfl, rfl⟩ := Static.of_pure_eq_ok hv
    exact gives_varValue host hself hm (by omega) hx
  | lambda | call | skipped => cases hv

/-- A budget that is larger than an expression is enough for it. -/
theorem givesKnown_run (host : Host σ) (sur : Surround) (source : String) (budget : Nat) :
    GivesKnown sur (Eval.run host budget) source budget := by
  induction budget with
  | zero => exact fun e he => absurd he (Nat.not_lt_zero _)
  | succ n ih => exact fun e he s v h hm hv => gives_value host ih hm e he hv

end Rules

/-! ## What is known of a machine -/

namespace Names

/-- What a second collection has under a name goes before what the first one has. -/
theorem get?_update (t u : Names α) (hu : u.names.Nodup) (name : String) :
    (t.update u).get? name = (u.get? name).or (t.get? name) := by
  obtain ⟨es⟩ := u
  unfold update
  dsimp only
  induction es generalizing t with
  | nil => rfl
  | cons e rest ih =>
    obtain ⟨he, hrest⟩ := List.nodup_cons.1 hu
    rw [List.foldl_cons, ih _ hrest, get?_insert]
    by_cases hname : name = e.1
    · subst hname
      have hnone : (Names.mk rest).get? e.1 = none := by
        refine Option.map_eq_none_iff.2 (List.find?_eq_none.2 fun e' he' heq => he ?_)
        exact List.mem_map.2 ⟨e', he', beq_iff_eq.1 heq⟩
      rw [hnone]
      simp [get?]
    · simp [get?, hname, Ne.symm hname]

theorem get?_mapValues (f : α → β) (t : Names α) (name : String) :
    (t.mapValues f).get? name = (t.get? name).map f := by
  simp [mapValues, get?, List.find?_map, Function.comp_def]

end Names

namespace Frames

/-- No frame has two variables of one name. -/
def Distinct (fs : Frames) : Prop := ∀ f, (fs.vars f).names.Nodup

/-- **What is listed as visible is what is looked up.** -/
theorem get?_visible {fs : Frames} (hfs : fs.Distinct) (id : FrameId) (name : String) :
    (fs.visible id).get? name = (fs.owner? id name).bind fun f => (fs.vars f).get? name := by
  unfold visible owner?
  induction fs.chain id with
  | nil => rfl
  | cons f rest ih =>
    rw [List.reverse_cons, List.foldl_append, List.foldl_cons, List.foldl_nil,
      Names.get?_update _ _ (hfs f), ih, List.find?_cons]
    cases hf : (fs.vars f).get? name with
    | none => simp [Names.has, hf]
    | some v => simp [Names.has, hf]

end Frames

/-- What is known of a machine before anything of a text is walked over: its globals,
and every variable that is visible. -/
def Surround.start (vm : Vm σ) : Surround :=
  ⟨vm.state.globals, vm.globalShapes, vm.varShapes, [Assist.varsInSight vm]⟩

theorem Surround.matches_start {vm : Vm σ} (h : vm.state.frames.Distinct) :
    (Surround.start vm).Matches vm.state := by
  refine ⟨rfl, fun name v hv => ?_⟩
  have hfind : (Surround.start vm).find? name =
      ((vm.state.frames.visible vm.state.scope).get? name).map some := by
    rw [← Names.get?_mapValues]
    exact List.findSome?_singleton
  rw [hfind, Frames.get?_visible h] at hv
  obtain ⟨w, hw, hwv⟩ := Option.map_eq_some_iff.1 hv
  obtain rfl := Option.some.inj hwv
  unfold Frames.get
  rw [hw]
  rfl

/-- **A value that is known beforehand comes out.** Where what is known is so in a
state, an expression of known value is evaluated to this very value, with any host and
any budget beyond the size of the expression. The new vectors and tables are added to
the heap, and nothing else changes. And what is known of a machine at first is so in
its state. -/
theorem run_eq_of_known (host : Host σ) (source : String) :
    (∀ (sur : Surround) (s : State σ) (e : Expression) (v : Value) (h : Heap) (budget : Nat),
      sur.Matches s → Static.value sur e s.heap = .ok (some v, h) → sizeOf e < budget →
      Eval.run host budget source (.value e) s = (.ok v, { s with heap := h }) ∧
        s.heap.Extends h) ∧
    ∀ vm : Vm σ, vm.state.frames.Distinct → (Surround.start vm).Matches vm.state :=
  ⟨fun sur s e v h budget hm hv he => givesKnown_run host sur source budget e he s v h hm hv,
    fun _ => Surround.matches_start⟩

/-- A table with the second item of a vector that is a variable. -/
theorem run_eq_of_known_table :
    let name := fun text => (⟨.identifier, text, .point 0, {}⟩ : Token)
    let two : Expression := .number (name "2")
    let item : Expression := .var (.mk (.named (name "$") (some (name "v")) (.point 0))
      [.index (name ".") ⟨name "[", none⟩ (some two) (.point 0)] (.point 0))
    let e : Expression :=
      .table ⟨name "table", none⟩ [⟨some (.positional item (.point 0)), none, .point 0⟩] (.point 0)
    let start := Recorder.start Limit.calls
    let vm : Vm Recorder := { state := { start with frames := Frames.first.set 0 "v" (.vector 0) } }
    let made := start.heap.newTable ⟨[(.int 1, .string "b")]⟩
    vm.state.frames.Distinct ∧
      Static.value (Surround.start vm) e vm.state.heap = .ok (some made.1, made.2) ∧
      Eval.run (Recorder.host 8) (sizeOf e + 1) "" (.value e) vm.state =
        (.ok made.1, { vm.state with heap := made.2 }) := by
  intro name two item e start vm made
  have hframes : vm.state.frames.Distinct := by
    intro f
    cases f with
    | zero => exact List.nodup_cons.2 ⟨List.not_mem_nil, List.nodup_nil⟩
    | succ f => exact List.nodup_nil
  have hknown : Static.value (Surround.start vm) e vm.state.heap = .ok (some made.1, made.2) := by
    dsimp only [e, item, two, name, vm, made, start]
    rfl
  have hrun := run_eq_of_known (Recorder.host 8) ""
  exact ⟨hframes, hknown,
    (hrun.1 _ vm.state e _ _ (sizeOf e + 1) (hrun.2 vm hframes) hknown (Nat.lt_succ_self _)).1⟩

end CommandScript
