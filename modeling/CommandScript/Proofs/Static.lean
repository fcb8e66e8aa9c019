import CommandScript.Proofs.Crash
import CommandScript.Assist.Static
/-!
# CommandScript — computing what is known

What can be said of the computations of `CommandScript.Assist.Static` whatever the
expression is: how two of them in a row go well, that they crash in one way only, and
that a shape is found only where one was attached.
-/

namespace CommandScript

variable {α β : Type}

namespace Static

variable {x : Static α} {f : α → Static β} {h h' : Heap} {a : α} {b : β}

/-- Two steps in a row go well where both do. -/
theorem of_bind_eq_ok (hx : (x >>= f) h = .ok (b, h')) :
    ∃ a h₁, x h = .ok (a, h₁) ∧ f a h₁ = .ok (b, h') := by
  simp only [bind, StateT.bind, Except.bind] at hx
  cases hr : x h with
  | error c => simp [hr] at hx
  | ok r => exact ⟨r.1, r.2, rfl, by simpa [hr] using hx⟩

theorem of_pure_eq_ok {a' : α} (hx : (pure a : Static α) h = .ok (a', h')) : a = a' ∧ h = h' := by
  cases hx
  exact ⟨rfl, rfl⟩

/-- A known result of an operator is what the operator gives. -/
theorem of_operated_eq_ok {r : Except OperatorFault Value} {v : Value}
    (hr : operated r h = .ok (some v, h')) : r = .ok v ∧ h = h' := by
  unfold operated at hr
  split at hr
  · cases hr
    exact ⟨rfl, rfl⟩
  · cases hr
  · cases hr

/-! ## What every computation is made of -/

/-- A property of all computations that are made of a few steps in a row: looking at the heap,
operators that are computed beforehand, and new vectors and tables. -/
structure Composes (P : ∀ α : Type, Static α → Prop) : Prop where
  pure : ∀ {α : Type} (a : α), P α (pure a)
  bind : ∀ {α β : Type} {x : Static α} {f : α → Static β}, P α x → (∀ a, P β (f a)) →
    P β (x >>= f)
  get : P Heap get
  unary : ∀ k v, P Known (operated (Operator.unary k v))
  binary : ∀ {k}, folds k = true → ∀ a b,
    P Known (do operated (Operator.binary (← MonadStateOf.get) k a b))
  newVector : ∀ items, P Known (modifyGet fun h => let (v, h) := h.newVector items; (some v, h))
  newTable : ∀ t, P Known (modifyGet fun h => let (v, h) := h.newTable t; (some v, h))

namespace Composes

variable {P : ∀ α : Type, Static α → Prop} (hP : Composes P) (s : Surround)

include hP

theorem vectorOf (items : List Known) : P Known (vectorOf items) := by
  unfold Static.vectorOf
  split
  · exact hP.newVector _
  · exact hP.pure _

mutual

/-- **What holds of the steps holds of the computation of a value.** -/
theorem value : ∀ e, P Known (Static.value s e)
  | .nil _ | .boolean _ | .number _ | .string _ => by
    rw [Static.value]
    exact hP.pure _
  | .unary o v _ => by
    rw [Static.value]
    refine hP.bind (valueOptional v) fun k => ?_
    cases k with
    | none => exact hP.pure _
    | some v => exact hP.unary _ v
  | .binary l o r _ => by
    rw [Static.value]
    split
    · next hk =>
      refine hP.bind (value l) fun a => hP.bind (valueOptional r) fun b => ?_
      split
      · exact hP.binary (Bool.and_eq_true_iff.1 hk).1 _ _
      · exact hP.pure _
    · exact hP.pure _
  | .vector _ is _ => by
    rw [Static.value]
    exact hP.bind (valueItems is) (vectorOf hP)
  | .table _ fs _ => by
    rw [Static.value]
    exact valueFields 1 {} fs
  | .group _ none _ => by
    rw [Static.value]
    exact hP.pure _
  | .group _ (some e) _ => by
    rw [Static.value]
    exact value e
  | .var (.mk r ss _) => by
    rw [Static.value, Static.chain]
    exact hP.bind (suffixes ss ss.length (root s r)) fun _ => hP.pure _
  | .lambda _ | .call _ | .skipped _ => by
    rw [Static.value]
    exact hP.pure _

theorem valueOptional : ∀ e, P Known (Static.valueOptional s e)
  | none => by
    rw [Static.valueOptional]
    exact hP.pure _
  | some e => by
    rw [Static.valueOptional]
    exact value e

theorem valueItems : ∀ is, P (List Known) (Static.valueItems s is)
  | [] => by
    rw [Static.valueItems]
    exact hP.pure _
  | ⟨v, _, _⟩ :: rest => by
    rw [Static.valueItems, Static.valueItem]
    exact hP.bind (valueOptional v) fun _ => hP.bind (valueItems rest) fun _ => hP.pure _

theorem valueField (position : Int) :
    ∀ f, P (Option (Known × Known)) (Static.valueField s position f)
  | .named _ _ none _ | .keyed _ _ _ none _ => by
    rw [Static.valueField]
    exact hP.pure _
  | .named _ _ (some e) _ => by
    rw [Static.valueField]
    exact hP.bind (value e) fun _ => hP.pure _
  | .keyed _ k _ (some e) _ => by
    rw [Static.valueField]
    exact hP.bind (valueOptional k) fun _ => hP.bind (value e) fun _ => hP.pure _
  | .positional e _ => by
    rw [Static.valueField]
    exact hP.bind (value e) fun _ => hP.pure _

theorem valueFieldItem (position : Int) :
    ∀ i, P (Option (Known × Known)) (Static.valueFieldItem s position i)
  | ⟨none, _, _⟩ => by
    rw [Static.valueFieldItem]
    exact hP.pure _
  | ⟨some f, _, _⟩ => by
    rw [Static.valueFieldItem]
    exact valueField position f

theorem valueFields (position : Int) (t : Table Value) :
    ∀ fs, P Known (Static.valueFields s position t fs)
  | [] => by
    rw [Static.valueFields]
    exact hP.newTable t
  | i :: rest => by
    rw [Static.valueFields]
    refine hP.bind (valueFieldItem position i) fun entry => ?_
    split
    · split
      · exact hP.pure _
      · split
        · exact valueFields _ _ rest
        · exact valueFields _ _ rest
    · exact hP.pure _

theorem suffixKey : ∀ x, P Known (Static.suffixKey s x)
  | .field _ _ _ => by
    rw [Static.suffixKey]
    exact hP.pure _
  | .index _ _ i _ => by
    rw [Static.suffixKey]
    exact valueOptional i

theorem suffixes : ∀ ss n r, P (Known × Option Shape) (Static.suffixes s ss n r)
  | [], _, r => by
    rw [Static.suffixes]
    exact hP.pure _
  | _ :: _, 0, r => by
    rw [Static.suffixes]
    · exact hP.pure _
    · exact nofun
  | x :: rest, n + 1, r => by
    rw [Static.suffixes]
    exact hP.bind (suffixKey x) fun key => hP.bind hP.get fun h =>
      suffixes rest n (index h r.1 key, fieldShape r.2 key)

end

end Composes

/-! ## Crashes -/

/-- A computation does not crash, unless by going on without end. -/
def EndlessOnly (x : Static α) : Prop := ∀ h c, x h = .error c → c = .endless

theorem EndlessOnly.bind {x : Static α} {f : α → Static β} (hx : EndlessOnly x)
    (hf : ∀ a, EndlessOnly (f a)) : EndlessOnly (x >>= f) := by
  intro h c hc
  simp only [Bind.bind, StateT.bind, Except.bind] at hc
  cases hr : x h with
  | error d =>
    simp only [hr] at hc
    cases hc
    exact hx h c hr
  | ok r =>
    simp only [hr] at hc
    exact hf r.1 r.2 c hc

theorem endlessOnly_operated {r : Except OperatorFault Value}
    (hr : ∀ c, r = .error (.crashed c) → c = .endless) : EndlessOnly (operated r) := by
  intro h c hc
  rcases r with (refusal | d) | v
  · cases hc
  · cases hc
    exact hr c rfl
  · cases hc

/-- Powers are not computed beforehand, and no other operator crashes in another way. -/
theorem composes_endlessOnly : Composes fun _ x => EndlessOnly x where
  pure _ := nofun
  bind := EndlessOnly.bind
  get := nofun
  unary _ _ := endlessOnly_operated fun _ hc => absurd hc Operator.unary_ne_crashed
  binary {k} hk a b h c hc := by
    refine endlessOnly_operated (fun d hd => ?_) h c hc
    obtain rfl | ⟨-, rfl, -⟩ := Operator.binary_crashed hd
    · rfl
    · cases hk
  newVector _ := nofun
  newTable _ := nofun

variable (s : Surround)

theorem endlessOnly_value (e : Expression) : EndlessOnly (value s e) :=
  composes_endlessOnly.value s e

theorem endlessOnly_valueOptional (e : Option Expression) : EndlessOnly (valueOptional s e) :=
  composes_endlessOnly.valueOptional s e

theorem endlessOnly_suffixes (ss : List VarSuffix) (n : Nat) (r : Known × Option Shape) :
    EndlessOnly (suffixes s ss n r) :=
  composes_endlessOnly.suffixes s ss n r

/-! ## Shapes -/

variable {s}

/-- What stands under a key has a shape only where the container has one. -/
theorem shape_of_suffixes {ss : List VarSuffix} {n : Nat} {r r' : Known × Option Shape}
    {h h' : Heap} (hr : suffixes s ss n r h = .ok (r', h')) (hshape : r'.2.isSome) :
    r.2.isSome := by
  induction ss generalizing n r h with
  | nil =>
    rw [suffixes] at hr
    cases hr
    exact hshape
  | cons x rest ih =>
    cases n with
    | zero =>
      rw [suffixes] at hr
      · cases hr
        exact hshape
      · exact nofun
    | succ n =>
      rw [suffixes] at hr
      obtain ⟨key, h₁, -, hr⟩ := of_bind_eq_ok hr
      have hfield := ih hr
      unfold fieldShape at hfield
      split at hfield
      · next hr' => simp [hr']
      · cases hfield

end Static

end CommandScript
