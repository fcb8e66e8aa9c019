import CommandScript.Proofs.Crash
import CommandScript.Proofs.Step
/-!
# CommandScript — operations that crash

Something can be wrong with an operator on two values, with a key, and with what a
loop goes over. Nearly all of it is refused in a failure. `Operation.Crashes` lists what
is not, and each operation of the evaluator crashes exactly where it is in this list,
unless it goes on without end.
-/

namespace CommandScript

open Exec

variable {σ : Type} {host : Host σ} {s : State σ} {c : Crash}

/-- The operations of the language that something can be wrong with, on values. -/
inductive Operation where
  | binary (operator : TokenKind) (left right : Value)
  /-- Reading what a container holds under a key. -/
  | read (container key : Value)
  /-- Putting a value into a container. -/
  | write (container key value : Value)
  /-- A loop over a subject. -/
  | loop (subject : Value)

namespace Operation

/-- A container that does not accept a key says so in a message that shows the key. -/
def ShowsKey (container key : Value) : Prop :=
  container = .nil ∨ ∃ a, container = .vector a ∧ ∀ n, key = .number n → n.toInt? = none

/-- A number is that of a place outside a vector, and cannot be written out. -/
def NoPlace (h : Heap) (a : Address) (n : Number) : Prop :=
  ∃ i, n.toInt? = some i ∧ ¬ (1 ≤ i ∧ i ≤ (h.vector a).length + 1) ∧ Decimal.ofInt? i = none

/-- **Exactly these operations crash a run.** -/
inductive Crashes (h : Heap) : Operation → Crash → Prop where
  /-- Zero is raised to a negative power. -/
  | power {a b : Number} : a.pow b = .error .zeroToNegativePower →
    Crashes h (.binary .caret (.number a) (.number b)) .zeroToNegativePower
  /-- A key that cannot be shown is read under. -/
  | read {container key : Value} : ShowsKey container key → h.format key = .error .tooManyDigits →
    Crashes h (.read container key) .tooManyDigits
  /-- A key that cannot be shown is written under. -/
  | write {container key value : Value} : ShowsKey container key →
    h.format key = .error .tooManyDigits → Crashes h (.write container key value) .tooManyDigits
  /-- A place outside a vector has a number of too many digits. -/
  | place {a : Address} {n : Number} {value : Value} : NoPlace h a n →
    Crashes h (.write (.vector a) (.number n) value) .tooManyDigits
  /-- A whole number beyond the largest `Float` is counted up to. -/
  | loop {n : Number} : n.toFloat? = none → Crashes h (.loop (.number n)) .beyondFloat

end Operation

theorem shown_crashes {v : Value} : (Eval.shown v).Crashes s c ↔ s.heap.format v = .error c :=
  crashes_get.trans crashes_orCrash

theorem operated_crashes {span : Span} {r : Except OperatorFault Value} :
    (Eval.operated span r : Exec σ Value).Crashes s c ↔ r = .error (.crashed c) := by
  obtain ⟨_ | d⟩ | v := r
  · exact iff_of_false not_crashes_fail nofun
  · exact crashes_crash.trans (by simp)
  · exact iff_of_false not_crashes_pure nofun

theorem not_tableKey_crashes {key : Value} {span : Span} :
    ¬ (Eval.tableKey key span : Exec σ Value).Crashes s c := by
  unfold Eval.tableKey
  split
  · exact not_crashes_fail
  · split
    · exact not_crashes_pure
    · exact not_crashes_fail

/-- A text that is missing, and not for going on without end. -/
theorem tooManyDigits_of_format {h : Heap} {v : Value} (hf : h.format v = .error c)
    (hc : c ≠ .endless) : c = .tooManyDigits :=
  (h.format_crashesOnly v c hf).resolve_left hc

theorem shownFail_crashes {α : Type} {v : Value} {cause : String → Cause} {span : Span} :
    (do fail (cause (← Eval.shown v)) span : Exec σ α).Crashes s c ↔ s.heap.format v = .error c :=
  (crashes_bind fun _ _ => not_crashes_fail).trans shown_crashes

/-- A whole number is an index. -/
theorem vectorIndex_of_whole {n : Number} {i : Int} {span : Span} (h : n.toInt? = some i) :
    (Eval.vectorIndex (.number n) span : Exec σ Int) = pure i := by
  simp [Eval.vectorIndex, h]

/-- Anything else is refused in a message that shows it. -/
theorem vectorIndex_of_not_whole {key : Value} {span : Span}
    (h : ∀ n, key = .number n → n.toInt? = none) :
    (Eval.vectorIndex key span : Exec σ Int) =
      (do fail (.vectorKey (← Eval.shown key)) span) := by
  unfold Eval.vectorIndex
  split
  · simp [h _ rfl]
  · rfl

/-- What is done with an index is not done where the key is refused. -/
theorem vectorIndex_bind_crashes {α : Type} {key : Value} {span : Span} {f : Int → Exec σ α}
    (h : ∀ n, key = .number n → n.toInt? = none) :
    (Eval.vectorIndex key span >>= f).Crashes s c ↔ s.heap.format key = .error c := by
  rw [vectorIndex_of_not_whole h, bind_assoc]
  exact (crashes_bind fun _ _ hc => nomatch ends_fail.1 (ends_bind.1 hc)).trans shown_crashes

theorem exists_whole {key : Value} (h : ¬ ∀ n, key = .number n → n.toInt? = none) :
    ∃ n i, key = .number n ∧ n.toInt? = some i := by
  cases key with
  | number n =>
    cases hi : n.toInt? with
    | none => exact absurd (fun m hm => by cases hm; exact hi) h
    | some i => exact ⟨n, i, rfl, hi⟩
  | _ => exact absurd nofun h

/-! ## Operations of the evaluator -/

/-- An operator crashes where it raises zero to a negative power. -/
theorem operated_binary_crashes {k : TokenKind} {l r : Value} {span : Span} (hc : c ≠ .endless) :
    (Eval.operated span (Operator.binary s.heap k l r) : Exec σ Value).Crashes s c ↔
      (Operation.binary k l r).Crashes s.heap c := by
  refine operated_crashes.trans ⟨fun h => ?_, fun h => ?_⟩
  · obtain h | ⟨rfl, rfl, a, b, rfl, rfl, hp⟩ := Operator.binary_crashed h
    · exact absurd h hc
    · exact .power hp
  · cases h with
    | power hp => exact Operator.binary_caret_crashed hp

theorem index_crashes {container key : Value} {span : Span} :
    (Eval.index host container key span).Crashes s c ↔
      Operation.ShowsKey container key ∧ s.heap.format key = .error c := by
  have hother : ∀ {step : Exec σ Value}, container ≠ .nil → (∀ a, container ≠ .vector a) →
      ¬ step.Crashes s c →
      (step.Crashes s c ↔ Operation.ShowsKey container key ∧ s.heap.format key = .error c) := by
    intro step hnil hvector hstep
    refine iff_of_false hstep fun ⟨hshows, _⟩ => ?_
    obtain h | ⟨a, h, -⟩ := hshows
    · exact hnil h
    · exact hvector a h
  cases container with
  | nil => exact shownFail_crashes.trans (and_iff_right (.inl rfl)).symm
  | vector a =>
    by_cases hwhole : ∀ n, key = .number n → n.toInt? = none
    · refine (vectorIndex_bind_crashes hwhole).trans (and_iff_right ?_).symm
      exact .inr ⟨a, rfl, hwhole⟩
    · obtain ⟨n, i, rfl, hi⟩ := exists_whole hwhole
      refine iff_of_false ?_ fun ⟨hshows, _⟩ => ?_
      · unfold Eval.index
        dsimp only
        rw [vectorIndex_of_whole hi, pure_bind]
        split
        · exact not_crashes_get not_crashes_pure
        · exact not_crashes_pure
      · obtain h | ⟨_, _, h⟩ := hshows
        · cases h
        · exact hwhole h
  | table a =>
    refine hother nofun nofun ?_
    have hread : ¬ (do
        let key ← Eval.tableKey key span
        return (((← get).heap.table a).get? key).getD .nil : Exec σ Value).Crashes s c :=
      fun h => not_tableKey_crashes
        ((crashes_bind fun _ _ => not_crashes_get not_crashes_pure).1 h)
    cases key with
    | nil => exact not_crashes_pure
    | _ => exact hread
  | string _ | bool _ | number _ => exact hother nofun nofun not_crashes_fail
  | tuple _ | lambda _ | command _ | object _ | method _ _ =>
    refine hother nofun nofun ?_
    unfold Eval.index
    dsimp only
    split
    · split
      · exact not_crashes_fail
      · first | exact not_crashes_pure | exact not_crashes_get not_crashes_pure
    · exact not_crashes_fail

theorem setIndex_crashes {container key value : Value} {span : Span} :
    (Eval.setIndex container key value span : Exec σ Unit).Crashes s c ↔
      Operation.ShowsKey container key ∧ s.heap.format key = .error c ∨
        c = .tooManyDigits ∧
          ∃ a n, container = .vector a ∧ key = .number n ∧ Operation.NoPlace s.heap a n := by
  cases container with
  | nil =>
    refine shownFail_crashes.trans ⟨fun h => .inl ⟨.inl rfl, h⟩, fun h => ?_⟩
    obtain h | ⟨-, _, _, h, -⟩ := h
    · exact h.2
    · cases h
  | vector a =>
    by_cases hwhole : ∀ n, key = .number n → n.toInt? = none
    · refine (vectorIndex_bind_crashes hwhole).trans
        ⟨fun h => .inl ⟨.inr ⟨a, rfl, hwhole⟩, h⟩, fun h => ?_⟩
      obtain h | ⟨-, _, n, -, hn, i, hi, -⟩ := h
      · exact h.2
      · exact absurd ((hwhole n hn).symm.trans hi) nofun
    · obtain ⟨n, i, rfl, hi⟩ := exists_whole hwhole
      have hright : (Operation.ShowsKey (.vector a) (.number n) ∧
            s.heap.format (.number n) = .error c ∨
          c = .tooManyDigits ∧ ∃ b m, Value.vector a = .vector b ∧ Value.number n = .number m ∧
            Operation.NoPlace s.heap b m) ↔
          c = .tooManyDigits ∧ ¬ (1 ≤ i ∧ i ≤ (s.heap.vector a).length + 1) ∧
            Decimal.ofInt? i = none := by
        refine ⟨fun h => ?_, fun h => .inr ⟨h.1, a, n, rfl, rfl, i, hi, h.2⟩⟩
        obtain ⟨h | ⟨_, _, h⟩, -⟩ | ⟨hc, _, _, hb, hm, j, hj, hplace⟩ := h
        · cases h
        · exact absurd h hwhole
        · cases hb
          cases hm
          rw [hi] at hj
          cases hj
          exact ⟨hc, hplace⟩
      rw [hright]
      unfold Eval.setIndex
      dsimp only
      rw [vectorIndex_of_whole hi, pure_bind]
      refine crashes_get.trans ?_
      split
      · exact iff_of_false not_crashes_modify (by omega)
      · split
        · exact iff_of_false not_crashes_modify (by omega)
        · split
          · next ht => exact iff_of_false not_crashes_fail (by simp [ht])
          · next ht =>
            refine crashes_crash.trans ⟨fun h => ⟨h.symm, by omega, ht⟩, fun h => h.1.symm⟩
  | table a =>
    refine iff_of_false (fun h => ?_) ?_
    · exact not_tableKey_crashes ((crashes_bind fun _ _ => not_crashes_modify).1 h)
    · rintro (⟨h | ⟨_, h, -⟩, -⟩ | ⟨-, _, _, h, -⟩) <;> cases h
  | _ =>
    refine iff_of_false not_crashes_fail ?_
    rintro (⟨h | ⟨_, h, -⟩, -⟩ | ⟨-, _, _, h, -⟩) <;> cases h

/-- **Reading crashes where a key cannot be shown that is not accepted.** -/
theorem read_crashes {container key : Value} {span : Span} (hc : c ≠ .endless) :
    (Eval.index host container key span).Crashes s c ↔
      (Operation.read container key).Crashes s.heap c := by
  refine index_crashes.trans ⟨fun ⟨hshows, hf⟩ => ?_, fun h => ?_⟩
  · obtain rfl := tooManyDigits_of_format hf hc
    exact .read hshows hf
  · cases h with
    | read hshows hf => exact ⟨hshows, hf⟩

/-- **Writing crashes there too, and where a place has a number that is too long.** -/
theorem write_crashes {container key value : Value} {span : Span} (hc : c ≠ .endless) :
    (Eval.setIndex container key value span : Exec σ Unit).Crashes s c ↔
      (Operation.write container key value).Crashes s.heap c := by
  refine setIndex_crashes.trans ⟨fun h => ?_, fun h => ?_⟩
  · obtain ⟨hshows, hf⟩ | ⟨rfl, a, m, rfl, rfl, hplace⟩ := h
    · obtain rfl := tooManyDigits_of_format hf hc
      exact .write hshows hf
    · exact .place hplace
  · cases h with
    | write hshows hf => exact .inl ⟨hshows, hf⟩
    | place hplace => exact .inr ⟨rfl, _, _, rfl, rfl, hplace⟩

end CommandScript
