import CommandScript.Run.Basic
/-!
# CommandScript — how steps end

A step of a run either ends well, with a result and a state, or stops, with a
reason and a state. `Exec.Ends` asks something of both, and the lemmas here say
what that comes to for each way of putting steps together. Everything that is
proved of runs is read off them, rule by rule of the evaluator.
-/

namespace CommandScript

variable {σ α β : Type}

namespace Exec

/-- From a state, a step ends well with `Q` of its result and its state, or stops
with `E` of the reason and the state. -/
def Ends (step : Exec σ α) (s : State σ) (Q : α → State σ → Prop)
    (E : Stop → State σ → Prop) : Prop :=
  match step s with
  | (.ok a, s') => Q a s'
  | (.error e, s') => E e s'

variable {s : State σ} {Q Q' : α → State σ → Prop} {R : β → State σ → Prop}
variable {E E' : Stop → State σ → Prop}

theorem Ends.mono {step : Exec σ α} (h : step.Ends s Q E) (hQ : ∀ a s', Q a s' → Q' a s')
    (hE : ∀ e s', E e s' → E' e s') : step.Ends s Q' E' := by
  unfold Ends at h ⊢
  generalize step s = r at h ⊢
  obtain ⟨⟨⟩ | ⟨⟩, s'⟩ := r
  · exact hE _ _ h
  · exact hQ _ _ h

/-- What is asked of the result can be weakened on the way. -/
theorem Ends.imp {step : Exec σ α} (h : step.Ends s Q E) (hQ : ∀ a s', Q a s' → Q' a s') :
    step.Ends s Q' E :=
  h.mono hQ fun _ _ => id

/-- Where it is known how a step ends well, nothing else is left to ask. -/
theorem ends_of_ok {step : Exec σ α} {a : α} {t : State σ} (h : step s = (.ok a, t)) :
    step.Ends s Q E ↔ Q a t := by
  unfold Ends
  rw [h]

/-- A step that does not end well stops. -/
theorem Ends.eq_error {step : Exec σ α} {e : Stop} {t : State σ}
    (h : step.Ends s (fun _ _ => False) (fun e' t' => e' = e ∧ t' = t)) :
    step s = (.error e, t) := by
  unfold Ends at h
  generalize step s = r at h ⊢
  obtain ⟨_ | _, _⟩ := r
  · obtain ⟨rfl, rfl⟩ := h
    rfl
  · cases h

/-! ## Steps put together -/

/-- Two steps in a row: the second one starts where the first one ends. -/
theorem bind_apply (x : Exec σ α) (f : α → Exec σ β) (s : State σ) :
    (x >>= f) s = match x s with
      | (.ok a, s') => f a s'
      | (.error e, s') => (.error e, s') := by
  simp only [bind, ExceptT.bind, ExceptT.mk, StateT.bind]
  rcases x s with ⟨⟨⟩ | ⟨⟩, s'⟩ <;> rfl

/-- Two steps that end well together end well one behind the other. -/
theorem bind_eq_ok {x : Exec σ α} {f : α → Exec σ β} {b : β} {t : State σ}
    (h : (x >>= f) s = (.ok b, t)) : ∃ a u, x s = (.ok a, u) ∧ f a u = (.ok b, t) := by
  rw [bind_apply] at h
  generalize x s = r at h ⊢
  obtain ⟨_ | a, u⟩ := r
  · cases h
  · exact ⟨a, u, rfl, h⟩

@[simp] theorem ends_bind {x : Exec σ α} {f : α → Exec σ β} :
    (x >>= f).Ends s R E ↔ x.Ends s (fun a s' => (f a).Ends s' R E) E := by
  unfold Ends
  rw [bind_apply]
  rcases x s with ⟨⟨⟩ | ⟨⟩, s'⟩ <;> rfl

@[simp] theorem ends_map {x : Exec σ α} {f : α → β} :
    (f <$> x).Ends s R E ↔ x.Ends s (fun a => R (f a)) E := by
  rw [map_eq_pure_bind, ends_bind]
  rfl

@[simp] theorem ends_pure {a : α} : (pure a : Exec σ α).Ends s Q E ↔ Q a s := Iff.rfl

@[simp] theorem ends_get {Q : State σ → State σ → Prop} :
    (get : Exec σ (State σ)).Ends s Q E ↔ Q s s := Iff.rfl

@[simp] theorem ends_set {t : State σ} {Q : PUnit → State σ → Prop} :
    (set t : Exec σ PUnit).Ends s Q E ↔ Q ⟨⟩ t := Iff.rfl

@[simp] theorem ends_modify {f : State σ → State σ} {Q : PUnit → State σ → Prop} :
    (modify f : Exec σ PUnit).Ends s Q E ↔ Q ⟨⟩ (f s) := Iff.rfl

@[simp] theorem ends_throw {e : Stop} : (throw e : Exec σ α).Ends s Q E ↔ E e s := Iff.rfl

@[simp] theorem ends_fail {cause : Cause} {span : Span} :
    (fail cause span : Exec σ α).Ends s Q E ↔
      E (.failed ⟨cause, some span, s.calls.reverse⟩) s := Iff.rfl

@[simp] theorem ends_crash {c : Crash} :
    (crash c : Exec σ α).Ends s Q E ↔ E (.crashed c) s := Iff.rfl

@[simp] theorem ends_orCrash_ok {a : α} : (orCrash (.ok a) : Exec σ α).Ends s Q E ↔ Q a s :=
  Iff.rfl

@[simp] theorem ends_orCrash_error {c : Crash} :
    (orCrash (.error c) : Exec σ α).Ends s Q E ↔ E (.crashed c) s := Iff.rfl

@[simp] theorem ends_make {new : Heap → α × Heap} :
    (make new : Exec σ α).Ends s Q E ↔ Q (new s.heap).1 { s with heap := (new s.heap).2 } :=
  Iff.rfl

@[simp] theorem ends_finishing {step : Exec σ α} {cleanUp : State σ → State σ} :
    (finishing step cleanUp).Ends s Q E ↔
      step.Ends s (fun a s' => Q a (cleanUp s')) (fun e s' => E e (cleanUp s')) := by
  unfold Ends finishing
  rcases step s with ⟨⟨⟩ | ⟨⟩, s'⟩ <;> rfl

@[simp] theorem ends_within {scope : FrameId} {step : Exec σ α} :
    (within scope step).Ends s Q E ↔
      step.Ends { s with scope }
        (fun a s' => Q a { s' with scope := s.scope })
        (fun e s' => E e { s' with scope := s.scope }) := by
  simp only [within, ends_bind, ends_get, ends_modify, ends_finishing]

/-- A step, and what is done where it stops. -/
theorem tryCatch_apply (step : Exec σ α) (handle : Stop → Exec σ α) (s : State σ) :
    tryCatch step handle s = match step s with
      | (.ok a, s') => (.ok a, s')
      | (.error e, s') => handle e s' := by
  simp only [tryCatch, tryCatchThe, MonadExceptOf.tryCatch, ExceptT.tryCatch, ExceptT.mk,
    bind, StateT.bind]
  rcases step s with ⟨⟨⟩ | ⟨⟩, s'⟩ <;> rfl

@[simp] theorem ends_tryCatch {step : Exec σ α} {handle : Stop → Exec σ α} :
    (tryCatch step handle).Ends s Q E ↔
      step.Ends s Q (fun e s' => (handle e).Ends s' Q E) := by
  unfold Ends
  rw [tryCatch_apply]
  rcases step s with ⟨⟨⟩ | ⟨⟩, s'⟩ <;> rfl

/-- A function that the host wants called runs from the state of the reply. -/
theorem ends_follow_call {call : Value → List Value → Exec σ Value} {f : Value}
    {arguments : List Value} {t : State σ} {resume : Value → State σ → Reply σ}
    {Q : Value → State σ → Prop} :
    (Reply.follow call (.call f arguments t resume)).Ends s Q E ↔
      (call f arguments).Ends t (fun v u => (Reply.follow call (resume v u)).Ends u Q E) E := by
  unfold Ends
  rw [Reply.follow]
  rcases call f arguments t with ⟨⟨⟩ | ⟨⟩, u⟩ <;> rfl

/-! ## Loops

A loop keeps `I` from round to round, and leaves `J` behind when it is left. -/

section Loops

variable {I J : State σ → Prop}

/-- What a round of a loop has to do: go on with `I`, or leave with `J`. -/
def Round (I J : State σ → Prop) (more : Bool) (s : State σ) : Prop := if more then I s else J s

@[simp] theorem round_true : Round I J true s ↔ I s := by simp [Round]

@[simp] theorem round_false : Round I J false s ↔ J s := by simp [Round]

/-- One round of a loop, and the rounds behind it. -/
theorem ends_round {step : Exec σ Bool} {rest : Exec σ Unit} {Q : Unit → State σ → Prop} :
    Ends (fun s => match step s with
      | (.ok true, s') => rest s'
      | (.ok false, s') => (.ok (), s')
      | (.error e, s') => (.error e, s')) s Q E ↔
      step.Ends s (Round (fun s' => rest.Ends s' Q E) (Q ())) E := by
  simp only [Ends, Round]
  rcases step s with ⟨⟨⟩ | ⟨⟨⟩ | ⟨⟩⟩, s'⟩ <;> simp

theorem Round.imp {I' J' : State σ → Prop} (hI : ∀ s, I s → I' s) (hJ : ∀ s, J s → J' s)
    {more : Bool} (h : Round I J more s) : Round I' J' more s := by
  cases more with
  | false => exact round_false.2 (hJ s (round_false.1 h))
  | true => exact round_true.2 (hI s (round_true.1 h))

theorem ends_forEach {step : α → Exec σ Bool} {l : List α} (hIJ : ∀ s, I s → J s)
    (hstep : ∀ a ∈ l, ∀ s, I s → (step a).Ends s (Round I J) E) (hs : I s) :
    (forEach step l).Ends s (fun _ => J) E := by
  induction l generalizing s with
  | nil => exact hIJ s hs
  | cons a rest ih =>
    have hrest := fun s' => ih (s := s') fun b hb => hstep b (List.mem_cons_of_mem a hb)
    refine ends_round.2 ?_
    exact (hstep a List.mem_cons_self s hs).imp fun _ _ => Round.imp hrest fun _ => id

theorem ends_forCount {step : Int → Exec σ Bool} {rounds : Nat} {next : Int}
    (hIJ : ∀ s, I s → J s) (hstep : ∀ i s, I s → (step i).Ends s (Round I J) E) (hs : I s) :
    (forCount step next rounds).Ends s (fun _ => J) E := by
  induction rounds generalizing s next with
  | zero => exact hIJ s hs
  | succ n ih =>
    refine ends_round.2 ?_
    exact (hstep next s hs).imp fun _ _ => Round.imp (fun _ => ih) fun _ => id

theorem ends_repeated {step : Exec σ Bool} {rounds : Nat}
    (hstep : ∀ s, I s → step.Ends s (Round I J) E) (hout : ∀ s, I s → E .exhausted s)
    (hs : I s) : (repeated step rounds).Ends s (fun _ => J) E := by
  induction rounds generalizing s with
  | zero => exact hout s hs
  | succ n ih =>
    refine ends_round.2 ?_
    exact (hstep s hs).imp fun _ _ => Round.imp (fun _ => ih) fun _ => id

end Loops

/-! ## How steps crash -/

/-- A step crashes. -/
def Crashes (step : Exec σ α) (s : State σ) (c : Crash) : Prop :=
  step.Ends s (fun _ _ => False) (fun e _ => e = .crashed c)

section Crashes

variable {c : Crash}

/-- Of two steps in a row, the first one crashes, or it ends well and the second one
does. -/
theorem crashes_bind_iff {x : Exec σ α} {f : α → Exec σ β} :
    (x >>= f).Crashes s c ↔
      x.Crashes s c ∨ ∃ a t, x s = (.ok a, t) ∧ (f a).Crashes t c := by
  unfold Crashes
  rw [ends_bind]
  unfold Ends
  rcases x s with ⟨_ | a, t⟩
  · exact ⟨.inl, fun h => h.resolve_right fun ⟨_, _, hx, _⟩ => nomatch hx⟩
  · refine ⟨fun h => .inr ⟨a, t, rfl, h⟩, fun h => ?_⟩
    obtain h | ⟨_, _, hx, h⟩ := h
    · exact h.elim
    · cases hx
      exact h

theorem Crashes.bind {x : Exec σ α} (h : x.Crashes s c) (f : α → Exec σ β) :
    (x >>= f).Crashes s c :=
  crashes_bind_iff.2 (.inl h)

/-- What follows a step does not crash, so the step does. -/
theorem crashes_bind {x : Exec σ α} {f : α → Exec σ β} (hf : ∀ a t, ¬ (f a).Crashes t c) :
    (x >>= f).Crashes s c ↔ x.Crashes s c := by
  unfold Crashes
  rw [ends_bind]
  exact ⟨fun h => h.imp hf, fun h => h.imp fun _ _ => False.elim⟩

/-- A step ends well, so what follows it crashes. -/
theorem crashes_bind_of_ok {x : Exec σ α} {f : α → Exec σ β} {a : α} {t : State σ}
    (hx : x s = (.ok a, t)) : (x >>= f).Crashes s c ↔ (f a).Crashes t c := by
  unfold Crashes
  rw [ends_bind]
  unfold Ends
  rw [hx]

theorem crashes_finishing {step : Exec σ α} {cleanUp : State σ → State σ} :
    (finishing step cleanUp).Crashes s c ↔ step.Crashes s c := ends_finishing

theorem crashes_within {scope : FrameId} {step : Exec σ α} :
    (within scope step).Crashes s c ↔ step.Crashes { s with scope } c := ends_within

/-- A round of a loop crashes, or the loop goes on behind it and crashes. -/
theorem crashes_round {step : Exec σ Bool} {rest : Exec σ Unit} :
    Crashes (fun s => match step s with
      | (.ok true, s') => rest s'
      | (.ok false, s') => (.ok (), s')
      | (.error e, s') => (.error e, s')) s c ↔
      step.Crashes s c ∨ ∃ t, step s = (.ok true, t) ∧ rest.Crashes t c := by
  refine ends_round.trans ?_
  unfold Crashes Ends Round
  rcases step s with ⟨_ | _ | _, t⟩
  · exact ⟨.inl, fun h => h.resolve_right fun ⟨_, hstep, _⟩ => nomatch hstep⟩
  · simp only [Bool.false_eq_true, if_false, false_or]
    exact ⟨False.elim, fun ⟨_, hstep, _⟩ => nomatch hstep⟩
  · simp only [if_true, false_or]
    refine ⟨fun h => ⟨t, rfl, h⟩, fun ⟨u, hstep, h⟩ => ?_⟩
    cases hstep
    exact h

theorem crashes_get {f : State σ → Exec σ α} : (get >>= f).Crashes s c ↔ (f s).Crashes s c :=
  crashes_bind_of_ok rfl

theorem not_crashes_get {f : State σ → Exec σ α} (h : ¬ (f s).Crashes s c) :
    ¬ (get >>= f).Crashes s c :=
  fun hc => h (crashes_get.1 hc)

theorem not_crashes_pure {a : α} : ¬ (pure a : Exec σ α).Crashes s c := ends_pure.1

theorem not_crashes_modify {f : State σ → State σ} :
    ¬ (modify f : Exec σ PUnit).Crashes s c := ends_modify.1

theorem not_crashes_make {new : Heap → α × Heap} :
    ¬ (make new : Exec σ α).Crashes s c := ends_make.1

theorem not_crashes_fail {cause : Cause} {span : Span} :
    ¬ (fail cause span : Exec σ α).Crashes s c := fun h => nomatch ends_fail.1 h

theorem crashes_crash {d : Crash} : (crash d : Exec σ α).Crashes s c ↔ d = c :=
  ends_crash.trans (by simp)

theorem crashes_orCrash {r : Except Crash α} :
    (orCrash r : Exec σ α).Crashes s c ↔ r = .error c := by
  cases r with
  | ok a => exact iff_of_false not_crashes_pure nofun
  | error d => exact crashes_crash.trans (by simp)

end Crashes

end Exec

end CommandScript
