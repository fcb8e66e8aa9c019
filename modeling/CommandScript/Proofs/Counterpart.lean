import CommandScript.Proofs.Twins
/-!
# CommandScript — what is known in twin heaps

A value that is known is known in a twin heap as well, and is a twin there
(`Twins.gives_value`). The computation goes the same way in both: where a variable is known in
the first one, a twin is known in the second one, and all that is made of twins are twins.

It is only what comes out as known that is found again. Where the first computation does not
know, the second one may know, and may run into a comparison without end.
-/

namespace CommandScript

variable {α β : Type}

/-! ## What a computation builds -/

namespace Static

/-- A computation leaves all vectors and tables as they are, and adds new ones. -/
def Builds (x : Static α) : Prop := ∀ h a g, x h = .ok (a, g) → h.Extends g

theorem builds_operated (r : Except OperatorFault Value) : Builds (operated r) := by
  intro h k g hr
  unfold operated at hr
  split at hr <;> cases hr
  · exact .refl h
  · exact .refl h

theorem composes_builds : Composes fun _ x => Builds x where
  pure a h b g hx := by
    obtain ⟨-, rfl⟩ := of_pure_eq_ok hx
    exact .refl h
  bind hx hf h b g hxf := by
    obtain ⟨a, h₁, ha, hb⟩ := of_bind_eq_ok hxf
    exact (hx h a h₁ ha).trans (hf a h₁ b g hb)
  get h a g hx := by
    cases hx
    exact .refl h
  unary k v := builds_operated _
  binary _ a b h k g hx := builds_operated _ h k g hx
  newVector items h k g hx := by
    cases hx
    exact .newVector h items
  newTable t h k g hx := by
    cases hx
    exact .newTable h t

/-- What stands under a key is known only where the container and the key are. -/
theorem known_of_index {h : Heap} {container key : Known} {v : Value}
    (hi : index h container key = some v) :
    ∃ c k, container = some c ∧ key = some k ∧ index h (some c) (some k) = some v := by
  unfold index at hi
  split at hi
  · exact ⟨_, _, rfl, rfl, hi⟩
  · exact ⟨_, _, rfl, rfl, hi⟩
  · cases hi

/-- A chain of known value is known from its beginning on. -/
theorem known_of_suffixes {s : Surround} {ss : List VarSuffix} {n : Nat}
    {r : Known × Option Shape} {h g : Heap} {v : Value} {shape : Option Shape}
    (hr : suffixes s ss n r h = .ok ((some v, shape), g)) : ∃ w, r.1 = some w := by
  induction ss generalizing n r h with
  | nil =>
    rw [suffixes] at hr
    cases hr
    exact ⟨v, rfl⟩
  | cons x rest ih =>
    cases n with
    | zero =>
      rw [suffixes] at hr
      · cases hr
        exact ⟨v, rfl⟩
      · exact List.cons_ne_nil x rest
    | succ n =>
      rw [suffixes] at hr
      obtain ⟨key, h₁, -, hr⟩ := of_bind_eq_ok hr
      obtain ⟨w, hw⟩ := ih hr
      obtain ⟨c, -, hc, -⟩ := known_of_index hw
      exact ⟨c, hc⟩

theorem bind_of_ok {x : Static α} {f : α → Static β} {h h₁ : Heap} {a : α}
    (hx : x h = .ok (a, h₁)) : (x >>= f) h = f a h₁ := by
  simp only [bind, StateT.bind, Except.bind, hx]

end Static

/-! ## Surrounds -/

/-- The globals are the same and are their own twins, and where the first surround knows a
variable, the second one knows a twin. -/
structure Surround.Pairs (T : Twins) (s s' : Surround) : Prop where
  globals : s'.globals = s.globals
  global : ∀ name v, s.globals.get? name = some v → T.Pairs v v
  var : ∀ name v, s.lookup name = some v → ∃ v', s'.lookup name = some v' ∧ T.Pairs v v'

theorem Surround.Pairs.mono {T U : Twins} {s s' : Surround} (hs : s.Pairs T s') (hTU : T.Sub U) :
    s.Pairs U s' where
  globals := hs.globals
  global name v hv := (hs.global name v hv).mono hTU
  var name v hv :=
    let ⟨v', hv', hpair⟩ := hs.var name v hv
    ⟨v', hv', hpair.mono hTU⟩

namespace Twins

variable {T U : Twins} {s s' : Surround} {h h' g g₁ : Heap} {v v' w w' : Value}
variable {vs : List Value} {t u : Table Value}

/-- In the second of two heaps, a computation ends well with a result in `P`, when one in the
first heap has come to an end. Behind it there are still all twins that were before. -/
def Gives (T : Twins) (x : Static α) (h' g : Heap) (P : Twins → α → Prop) : Prop :=
  ∃ a g' U, x h' = .ok (a, g') ∧ T.Sub U ∧ U.Between g g' ∧ P U a

variable {P : Twins → α → Prop} {Q : Twins → β → Prop}

theorem gives_pure {a : α} (hT : T.Between g h') (ha : P T a) : T.Gives (pure a) h' g P :=
  ⟨a, h', T, rfl, .refl T, hT, ha⟩

theorem Gives.bind {x : Static α} {f : α → Static β} (hx : T.Gives x h' g₁ P)
    (hf : ∀ {U a g'}, T.Sub U → U.Between g₁ g' → P U a → U.Gives (f a) g' g Q) :
    T.Gives (x >>= f) h' g Q := by
  obtain ⟨a, g', U, hx, hTU, hU, ha⟩ := hx
  obtain ⟨b, g'', V, hb, hUV, hV, hQ⟩ := hf hTU hU ha
  exact ⟨b, g'', V, (Static.bind_of_ok hx).trans hb, hTU.trans hUV, hV, hQ⟩

theorem gives_get {f : Heap → Static α} (hf : T.Gives (f h') h' g P) :
    T.Gives (get >>= f) h' g P :=
  hf

/-- A twin of a value is known. -/
def Knows (T : Twins) (v : Value) (k : Known) : Prop := ∃ v', k = some v' ∧ T.Pairs v v'

/-! ## Vectors and tables -/

theorem gives_newVector (hT : T.Between h h') {ws : List Value}
    (hvs : List.Forall₂ T.Pairs vs ws) :
    T.Gives (modifyGet fun h => let (v, h) := h.newVector ws; (some v, h)) h' (h.newVector vs).2
      fun U k => U.Knows (h.newVector vs).1 k :=
  let ⟨U, hTU, hU, hpair⟩ := hT.newVector hvs
  ⟨_, _, U, rfl, hTU, hU, _, rfl, hpair⟩

theorem gives_newTable (hT : T.Between h h')
    (ht : List.Forall₂ T.PairsEntry t.entries u.entries) :
    T.Gives (modifyGet fun h => let (v, h) := h.newTable u; (some v, h)) h' (h.newTable t).2
      fun U k => U.Knows (h.newTable t).1 k :=
  let ⟨U, hTU, hU, hpair⟩ := hT.newTable ht
  ⟨_, _, U, rfl, hTU, hU, _, rfl, hpair⟩

/-- Under a key that is known, twins hold twins. -/
theorem knows_index (hT : T.Between h h') {c c' k k' : Value} (hc : T.Pairs c c')
    (hk : T.Pairs k k') (hi : Static.index h (some c) (some k) = some v) :
    T.Knows v (Static.index h' (some c') (some k')) := by
  unfold Static.index at hi
  split at hi
  · next a k heq hk' =>
    cases heq
    cases hk'
    split at hi
    · next hkey =>
      obtain rfl := hk.eq_of_isKey hkey
      cases hc with
      | @table _ b hab =>
        have hget := pairs_get? hT ((Pairs.table hab).table_entries hT) hk
        rw [show Table.mk (h.table a).entries = h.table a from rfl, hi] at hget
        obtain ⟨v', hv'⟩ : ∃ v', (h'.table b).get? k = some v' ∧ T.Pairs v v' := by
          generalize hx : (h'.table b).get? k = x
          rw [show Table.mk (h'.table b).entries = h'.table b from rfl, hx] at hget
          cases hget with
          | some hvv' => exact ⟨_, rfl, hvv'⟩
        refine ⟨v', ?_, hv'.2⟩
        unfold Static.index
        dsimp only
        rw [if_pos hkey, hv'.1]
      | plain hplain => cases hplain
    · cases hi
  · next a i heq hk' =>
    cases heq
    cases hk'
    obtain rfl := hk.eq_of_not_isContainer rfl
    split at hi
    · next hpos =>
      cases hc with
      | @vector _ b hab =>
        have hitems := (Pairs.vector hab).vector_items hT
        obtain ⟨hlt, rfl⟩ := List.getElem?_eq_some_iff.1 hi
        have hlt' : (i - 1).toNat < (h'.vector b).length := hitems.length_eq ▸ hlt
        refine ⟨(h'.vector b)[(i - 1).toNat], ?_, hitems.get hlt hlt'⟩
        unfold Static.index
        dsimp only
        rw [if_pos hpos, List.getElem?_eq_getElem hlt']
      | plain hplain => cases hplain
    · cases hi
  · cases hi

theorem knows_root (hs : s.Pairs T s') {r : VarRoot} (hr : (Static.root s r).1 = some v) :
    T.Knows v (Static.root s' r).1 := by
  cases r with
  | bare t =>
    simp only [Static.root] at hr ⊢
    rw [hs.globals]
    cases hglobal : s.globals.get? t.text with
    | some w =>
      rw [hglobal] at hr
      cases hr
      exact ⟨v, rfl, hs.global _ v hglobal⟩
    | none =>
      rw [hglobal] at hr
      exact hs.var _ v hr
  | named dollar name span =>
    cases name with
    | none => cases hr
    | some t => exact hs.var _ v hr
  | computed => cases hr

/-! ## The computation of a value -/

/-- Twins of known items are known. -/
def KnowsAll (T : Twins) (vs : List Value) (ks : List Known) : Prop :=
  ∃ vs', ks.mapM id = some vs' ∧ List.Forall₂ T.Pairs vs vs'

theorem gives_operated {r : Except OperatorFault Value} (hT : T.Between g h')
    (hr : r = .ok v' ∧ T.Pairs v v') :
    T.Gives (Static.operated r) h' g fun U k => U.Knows v k := by
  obtain ⟨rfl, hpair⟩ := hr
  exact gives_pure hT ⟨v', rfl, hpair⟩

mutual

/-- **What is known in one heap is known in a twin heap**, as a twin. -/
theorem gives_value : ∀ (e : Expression) {T : Twins} {h h' g : Heap} {v : Value},
    T.Between h h' → s.Pairs T s' → Static.value s e h = .ok (some v, g) →
    T.Gives (Static.value s' e) h' g fun U k => U.Knows v k
  | .nil _, T, h, h', g, v, hT, hs, hv => by
    cases hv
    exact gives_pure hT ⟨_, rfl, .plain rfl⟩
  | .boolean _, T, h, h', g, v, hT, hs, hv => by
    cases hv
    exact gives_pure hT ⟨_, rfl, .plain rfl⟩
  | .string _, T, h, h', g, v, hT, hs, hv => by
    cases hv
    exact gives_pure hT ⟨_, rfl, .plain rfl⟩
  | .number t, T, h, h', g, v, hT, hs, hv => by
    obtain ⟨hnumber, rfl⟩ := Static.of_pure_eq_ok hv
    obtain ⟨n, -, rfl⟩ := Option.map_eq_some_iff.1 hnumber
    exact gives_pure hT ⟨_, hnumber, .plain rfl⟩
  | .unary o e _, T, h, h', g, v, hT, hs, hv => by
    rw [Static.value] at hv ⊢
    obtain ⟨k, h₁, hk, hv⟩ := Static.of_bind_eq_ok hv
    cases k with
    | none => cases hv
    | some w =>
      obtain ⟨hop, rfl⟩ := Static.of_operated_eq_ok hv
      refine (gives_valueOptional e hT hs hk).bind fun hTU hU hw => ?_
      obtain ⟨w', rfl, hpair⟩ := hw
      exact gives_operated hU (unary_of_unary hpair hop)
  | .binary l o r _, T, h, h', g, v, hT, hs, hv => by
    rw [Static.value] at hv ⊢
    split at hv
    · next hfolds =>
      rw [if_pos hfolds]
      obtain ⟨a, h₁, ha, hv⟩ := Static.of_bind_eq_ok hv
      obtain ⟨b, h₂, hb, hv⟩ := Static.of_bind_eq_ok hv
      split at hv
      · obtain ⟨h₃, h₄, hget, hv⟩ := Static.of_bind_eq_ok hv
        cases hget
        obtain ⟨hop, rfl⟩ := Static.of_operated_eq_ok hv
        refine (gives_value l hT hs ha).bind fun hTU hU hw => ?_
        refine (gives_valueOptional r hU (hs.mono hTU) hb).bind fun hUV hV hw' => ?_
        obtain ⟨a', rfl, hpair⟩ := hw
        obtain ⟨b', rfl, hpair'⟩ := hw'
        exact gives_get (gives_operated hV (binary_of_binary hV (hpair.mono hUV) hpair' hop))
      · cases hv
    · cases hv
  | .vector _ is _, T, h, h', g, v, hT, hs, hv => by
    rw [Static.value] at hv ⊢
    obtain ⟨ks, h₁, hks, hv⟩ := Static.of_bind_eq_ok hv
    unfold Static.vectorOf at hv
    cases hvs : ks.mapM id with
    | none =>
      simp only [hvs] at hv
      cases hv
    | some vs =>
      simp only [hvs] at hv
      cases hv
      refine (gives_valueItems is hT hs hks hvs).bind fun _ hU hknown => ?_
      obtain ⟨vs', hvs', hpairs⟩ := hknown
      unfold Static.vectorOf
      rw [hvs']
      exact gives_newVector hU hpairs
  | .table _ fs _, T, h, h', g, v, hT, hs, hv => by
    rw [Static.value] at hv ⊢
    exact gives_valueFields fs 1 hT hs .nil hv
  | .group _ none _, T, h, h', g, v, hT, hs, hv => by
    cases hv
    exact gives_pure hT ⟨_, rfl, .plain rfl⟩
  | .group _ (some e) _, T, h, h', g, v, hT, hs, hv => by
    rw [Static.value] at hv ⊢
    exact gives_value e hT hs hv
  | .var (.mk r ss _), T, h, h', g, v, hT, hs, hv => by
    rw [Static.value, Static.chain] at hv ⊢
    obtain ⟨⟨k, shape⟩, h₁, hchain, hv⟩ := Static.of_bind_eq_ok hv
    obtain ⟨rfl, rfl⟩ := Static.of_pure_eq_ok hv
    obtain ⟨w, hw⟩ := Static.known_of_suffixes hchain
    obtain ⟨w', hw', hpair⟩ := knows_root hs hw
    rw [show Static.root s r = (some w, (Static.root s r).2) from Prod.ext hw rfl] at hchain
    rw [show Static.root s' r = (some w', (Static.root s' r).2) from Prod.ext hw' rfl]
    exact (gives_suffixes ss ss.length hT hs hchain hpair _).bind fun _ hU hknown =>
      gives_pure hU hknown
  | .lambda _, T, h, h', g, v, hT, hs, hv => by cases hv
  | .call _, T, h, h', g, v, hT, hs, hv => by cases hv
  | .skipped _, T, h, h', g, v, hT, hs, hv => by cases hv

theorem gives_valueOptional : ∀ (e : Option Expression) {T : Twins} {h h' g : Heap} {v : Value},
    T.Between h h' → s.Pairs T s' → Static.valueOptional s e h = .ok (some v, g) →
    T.Gives (Static.valueOptional s' e) h' g fun U k => U.Knows v k
  | none, T, h, h', g, v, hT, hs, hv => by cases hv
  | some e, T, h, h', g, v, hT, hs, hv => by
    rw [Static.valueOptional] at hv ⊢
    exact gives_value e hT hs hv

theorem gives_valueItems : ∀ (is : List (SeparatedItem Expression)) {T : Twins} {h h' g : Heap}
    {ks : List Known} {vs : List Value}, T.Between h h' → s.Pairs T s' →
    Static.valueItems s is h = .ok (ks, g) → ks.mapM id = some vs →
    T.Gives (Static.valueItems s' is) h' g fun U ks => U.KnowsAll vs ks
  | [], T, h, h', g, ks, vs, hT, hs, hi, hvs => by
    rw [Static.valueItems] at hi ⊢
    obtain ⟨rfl, rfl⟩ := Static.of_pure_eq_ok hi
    obtain rfl : [] = vs := by simpa using hvs
    exact gives_pure hT ⟨[], rfl, .nil⟩
  | ⟨e, _, _⟩ :: rest, T, h, h', g, ks, vs, hT, hs, hi, hvs => by
    rw [Static.valueItems, Static.valueItem] at hi ⊢
    obtain ⟨k, h₁, hk, hi⟩ := Static.of_bind_eq_ok hi
    obtain ⟨ks', h₂, hks, hi⟩ := Static.of_bind_eq_ok hi
    obtain ⟨rfl, rfl⟩ := Static.of_pure_eq_ok hi
    cases k with
    | none => simp at hvs
    | some v =>
      obtain ⟨ws, hws, rfl⟩ : ∃ ws, ks'.mapM id = some ws ∧ v :: ws = vs := by
        simpa [List.mapM_cons, Option.bind_eq_some_iff] using hvs
      refine (gives_valueOptional e hT hs hk).bind fun hTU hU hw => ?_
      refine (gives_valueItems rest hU (hs.mono hTU) hks hws).bind fun hUV hV hknown => ?_
      obtain ⟨v', rfl, hpair⟩ := hw
      obtain ⟨ws', hws', hpairs⟩ := hknown
      refine gives_pure hV ⟨v' :: ws', ?_, .cons (hpair.mono hUV) hpairs⟩
      simp [List.mapM_cons, hws']

theorem gives_valueField : ∀ (f : TableField) (position : Int) {T : Twins} {h h' g : Heap}
    {k v : Value}, T.Between h h' → s.Pairs T s' → k.isKey = true →
    Static.valueField s position f h = .ok (some (some k, some v), g) →
    T.Gives (Static.valueField s' position f) h' g fun U entry =>
      ∃ v', entry = some (some k, some v') ∧ U.Pairs v v'
  | .named _ _ none _, _, T, h, h', g, k, v, hT, hs, hk, hf => by cases hf
  | .keyed _ _ _ none _, _, T, h, h', g, k, v, hT, hs, hk, hf => by cases hf
  | .named n _ (some e) _, _, T, h, h', g, k, v, hT, hs, hk, hf => by
    rw [Static.valueField] at hf ⊢
    obtain ⟨w, h₁, hw, hf⟩ := Static.of_bind_eq_ok hf
    obtain ⟨hkv, rfl⟩ := Static.of_pure_eq_ok hf
    obtain ⟨rfl, rfl⟩ : Value.string n.text = k ∧ w = some v := by simpa using hkv
    refine (gives_value e hT hs hw).bind fun _ hU hknown => ?_
    obtain ⟨v', rfl, hpair⟩ := hknown
    exact gives_pure hU ⟨v', rfl, hpair⟩
  | .keyed _ key _ (some e) _, _, T, h, h', g, k, v, hT, hs, hk, hf => by
    rw [Static.valueField] at hf ⊢
    obtain ⟨kk, h₁, hkk, hf⟩ := Static.of_bind_eq_ok hf
    obtain ⟨w, h₂, hw, hf⟩ := Static.of_bind_eq_ok hf
    obtain ⟨hkv, rfl⟩ := Static.of_pure_eq_ok hf
    obtain ⟨rfl, rfl⟩ : kk = some k ∧ w = some v := by simpa using hkv
    refine (gives_valueOptional key hT hs hkk).bind fun hTU hU hknown => ?_
    refine (gives_value e hU (hs.mono hTU) hw).bind fun _ hV hknown' => ?_
    obtain ⟨k', rfl, hpair⟩ := hknown
    obtain ⟨v', rfl, hpair'⟩ := hknown'
    obtain rfl := hpair.eq_of_isKey hk
    exact gives_pure hV ⟨v', rfl, hpair'⟩
  | .positional e _, position, T, h, h', g, k, v, hT, hs, hk, hf => by
    rw [Static.valueField] at hf ⊢
    obtain ⟨w, h₁, hw, hf⟩ := Static.of_bind_eq_ok hf
    obtain ⟨hkv, rfl⟩ := Static.of_pure_eq_ok hf
    obtain ⟨rfl, rfl⟩ : Value.int position = k ∧ w = some v := by simpa using hkv
    refine (gives_value e hT hs hw).bind fun _ hU hknown => ?_
    obtain ⟨v', rfl, hpair⟩ := hknown
    exact gives_pure hU ⟨v', rfl, hpair⟩

theorem gives_valueFields : ∀ (fs : List (SeparatedItem TableField)) (position : Int) {T : Twins}
    {h h' g : Heap} {t u : Table Value} {v : Value}, T.Between h h' → s.Pairs T s' →
    List.Forall₂ T.PairsEntry t.entries u.entries →
    Static.valueFields s position t fs h = .ok (some v, g) →
    T.Gives (Static.valueFields s' position u fs) h' g fun U k => U.Knows v k
  | [], _, T, h, h', g, t, u, v, hT, hs, ht, hf => by
    rw [Static.valueFields] at hf ⊢
    cases hf
    exact gives_newTable hT ht
  | ⟨none, _, _⟩ :: rest, _, T, h, h', g, t, u, v, hT, hs, ht, hf => by
    rw [Static.valueFields] at hf
    obtain ⟨entry, h₁, hentry, hf⟩ := Static.of_bind_eq_ok hf
    cases hentry
    cases hf
  | ⟨some f, _, _⟩ :: rest, position, T, h, h', g, t, u, v, hT, hs, ht, hf => by
    rw [Static.valueFields, Static.valueFieldItem] at hf ⊢
    obtain ⟨entry, h₁, hentry, hf⟩ := Static.of_bind_eq_ok hf
    split at hf
    · next k w =>
      split at hf
      · cases hf
      · next hkey =>
        have hkey : k.isKey = true := by simpa using hkey
        refine (gives_valueField f position hT hs hkey hentry).bind fun hTU hU hknown => ?_
        obtain ⟨w', rfl, hpair⟩ := hknown
        have ht' := ht.imp fun _ _ => pairsEntry_mono hTU
        dsimp only
        rw [hkey]
        -- twins are nil together, and then the field makes no entry
        split at hf
        · obtain rfl := hpair.eq_of_not_isContainer rfl
          exact gives_valueFields rest _ hU (hs.mono hTU) ht' hf
        · next hnil =>
          have hinsert := pairs_insertInto ht' hkey hpair
          have hrest := gives_valueFields (u := u.insert k w') rest _ hU (hs.mono hTU) hinsert hf
          cases hpair with
          | plain =>
            cases w with
            | nil => exact (hnil rfl).elim
            | _ => exact hrest
          | vector | table => exact hrest
    · cases hf

theorem gives_suffixKey : ∀ (x : VarSuffix) {T : Twins} {h h' g : Heap} {k : Value},
    T.Between h h' → s.Pairs T s' → Static.suffixKey s x h = .ok (some k, g) →
    T.Gives (Static.suffixKey s' x) h' g fun U k' => U.Knows k k'
  | .field _ name _, T, h, h', g, k, hT, hs, hk => by
    rw [Static.suffixKey] at hk ⊢
    obtain ⟨hkey, rfl⟩ := Static.of_pure_eq_ok hk
    obtain ⟨t, -, rfl⟩ := Option.map_eq_some_iff.1 hkey
    exact gives_pure hT ⟨_, hkey, .plain rfl⟩
  | .index _ _ i _, T, h, h', g, k, hT, hs, hk => by
    rw [Static.suffixKey] at hk ⊢
    exact gives_valueOptional i hT hs hk

theorem gives_suffixes : ∀ (ss : List VarSuffix) (n : Nat) {T : Twins} {h h' g : Heap}
    {v w w' : Value} {shape shape' : Option Shape}, T.Between h h' → s.Pairs T s' →
    Static.suffixes s ss n (some w, shape) h = .ok ((some v, shape'), g) → T.Pairs w w' →
    ∀ shape, T.Gives (Static.suffixes s' ss n (some w', shape)) h' g fun U r => U.Knows v r.1
  | [], n, T, h, h', g, v, w, w', shape, shape', hT, hs, hr, hw, _ => by
    rw [Static.suffixes] at hr ⊢
    cases hr
    exact gives_pure hT ⟨w', rfl, hw⟩
  | _ :: _, 0, T, h, h', g, v, w, w', shape, shape', hT, hs, hr, hw, _ => by
    rw [Static.suffixes] at hr ⊢
    · cases hr
      exact gives_pure hT ⟨w', rfl, hw⟩
    all_goals exact nofun
  | x :: rest, n + 1, T, h, h', g, v, w, w', shape, shape', hT, hs, hr, hw, _ => by
    rw [Static.suffixes] at hr ⊢
    obtain ⟨key, h₁, hkey, hr⟩ := Static.of_bind_eq_ok hr
    obtain ⟨h₂, h₃, hget, hr⟩ := Static.of_bind_eq_ok hr
    cases hget
    obtain ⟨u, hindex⟩ := Static.known_of_suffixes hr
    dsimp only at hindex hr
    rw [hindex] at hr
    obtain ⟨c, k, hc, rfl, hindex⟩ := Static.known_of_index hindex
    cases hc
    refine (gives_suffixKey x hT hs hkey).bind fun hTU hU hknown => ?_
    obtain ⟨k', rfl, hpair⟩ := hknown
    obtain ⟨u', hu', hpair'⟩ := knows_index hU (hw.mono hTU) hpair hindex
    have hrest := gives_suffixes rest n hU (hs.mono hTU) hr hpair'
    refine gives_get ?_
    dsimp only
    rw [hu']
    exact hrest _

end

end Twins

end CommandScript
