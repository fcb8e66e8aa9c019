import CommandScript.Proofs.Step
/-!
# CommandScript — steps that settle

A step that is given a budget may come to the end of it, and then nothing is known of
how it would have gone on. It settles if from some budget on it ends in one and the
same way, and not because the budget is used up: that is how an evaluation comes to an
end that has no budget. Steps that settle are put together like steps that end; of the
two budgets that are enough for the parts, the larger one is enough for the whole.
-/

namespace CommandScript

namespace Exec

variable {σ α β : Type}

/-- From a state, a step settles: under every budget that is large enough it ends in the
same way, either well, with `Q` of its result and its state, or for another reason than
its budget. -/
def Settles (x : Nat → Exec σ α) (s : State σ) (Q : α → State σ → Prop) : Prop :=
  ∃ n, (∀ m, n ≤ m → x m s = x n s) ∧ (x n).Ends s Q fun e _ => e ≠ .exhausted

/-- A loop over items is its first round, and the loop over the rest if it goes on. -/
theorem forEach_cons (step : α → Exec σ Bool) (a : α) (rest : List α) :
    forEach step (a :: rest) =
      (do if ← step a then forEach step rest else pure ()) := by
  funext s
  rw [bind_apply, forEach]
  dsimp only
  rcases step a s with ⟨_ | _ | _, _⟩ <;> rfl

theorem forCount_succ (step : Int → Exec σ Bool) (next : Int) (rounds : Nat) :
    forCount step next (rounds + 1) =
      (do if ← step next then forCount step (next + 1) rounds else pure ()) := by
  funext s
  rw [bind_apply, forCount]
  dsimp only
  rcases step next s with ⟨_ | _ | _, _⟩ <;> rfl

theorem repeated_succ (step : Exec σ Bool) (rounds : Nat) :
    repeated step (rounds + 1) = (do if ← step then repeated step rounds else pure ()) := by
  funext s
  rw [bind_apply, repeated]
  dsimp only
  rcases step s with ⟨_ | _ | _, _⟩ <;> rfl

namespace Settles

variable {s : State σ} {Q Q' : α → State σ → Prop} {R : β → State σ → Prop}
variable {x : Nat → Exec σ α}

/-- A step without a budget settles as it ends. -/
theorem const {step : Exec σ α} (h : step.Ends s Q fun e _ => e ≠ .exhausted) :
    Settles (fun _ => step) s Q :=
  ⟨0, fun _ _ => rfl, h⟩

theorem imp (h : Settles x s Q) (hQ : ∀ a t, Q a t → Q' a t) : Settles x s Q' := by
  obtain ⟨n, hsame, hends⟩ := h
  exact ⟨n, hsame, hends.imp hQ⟩

/-- A step that from some budget on is one without a budget settles as that one ends. -/
theorem of_const {step : Exec σ α} (n : Nat) (hsame : ∀ m, n ≤ m → x m s = step s)
    (h : step.Ends s Q fun e _ => e ≠ .exhausted) : Settles x s Q := by
  refine ⟨n, fun m hm => (hsame m hm).trans (hsame n (Nat.le_refl n)).symm, ?_⟩
  unfold Ends
  rw [hsame n (Nat.le_refl n)]
  exact h

/-- What settles under a larger budget settles. -/
theorem of_succ (h : Settles (fun m => x (m + 1)) s Q) : Settles x s Q := by
  obtain ⟨n, hsame, hends⟩ := h
  refine ⟨n + 1, fun m hm => ?_, hends⟩
  obtain ⟨m, rfl⟩ := Nat.exists_eq_add_of_le' hm
  exact hsame (m + n) (Nat.le_add_left n m)

/-- Two steps in a row settle, if the second one does wherever the first one ends. -/
theorem bind {f : Nat → α → Exec σ β} (hx : Settles x s Q)
    (hf : ∀ a t, Q a t → Settles (fun m => f m a) t R) :
    Settles (fun m => x m >>= f m) s R := by
  obtain ⟨n, hsame, hends⟩ := hx
  rcases hrun : x n s with ⟨e | a, t⟩
  · have hgo : ∀ m, n ≤ m → (x m >>= f m) s = (x n >>= f n) s := fun m hm => by
      rw [bind_apply, bind_apply, hsame m hm, hrun]
    refine of_const n hgo (ends_bind.2 ?_)
    unfold Ends at hends ⊢
    rw [hrun] at hends ⊢
    exact hends
  · obtain ⟨k, hsame', hends'⟩ := hf a t ((ends_of_ok hrun).1 hends)
    have hgo : ∀ m, max n k ≤ m → (x m >>= f m) s = (x n >>= fun a => f k a) s := fun m hm => by
      rw [bind_apply, bind_apply, hsame m (by omega), hrun]
      exact hsame' m (by omega)
    exact of_const (max n k) hgo (ends_bind.2 ((ends_of_ok hrun).2 hends'))

/-- A step that looks at the state first. -/
theorem get {f : Nat → State σ → Exec σ α} (h : Settles (fun m => f m s) s Q) :
    Settles (fun m => get >>= f m) s Q :=
  h

theorem set {t : State σ} {f : Nat → PUnit → Exec σ α} (h : Settles (fun m => f m ⟨⟩) t Q) :
    Settles (fun m => set t >>= f m) s Q :=
  h

theorem modify {f : State σ → State σ} {g : Nat → PUnit → Exec σ α}
    (h : Settles (fun m => g m ⟨⟩) (f s) Q) : Settles (fun m => modify f >>= g m) s Q :=
  h

theorem finishing {cleanUp : State σ → State σ} (h : Settles x s fun a t => Q a (cleanUp t)) :
    Settles (fun m => finishing (x m) cleanUp) s Q := by
  obtain ⟨n, hsame, hends⟩ := h
  refine of_const n (fun m hm => ?_) (ends_finishing.2 hends)
  simp only [Exec.finishing, hsame m hm]

theorem within {scope : FrameId}
    (h : Settles x { s with scope } fun a t => Q a { t with scope := s.scope }) :
    Settles (fun m => within scope (x m)) s Q :=
  finishing h

/-- Where a step stops for another reason than its budget, something is done that settles
at once. -/
theorem tryCatch {handle : Stop → Exec σ α} (h : Settles x s Q)
    (hhandle : ∀ e t, e ≠ .exhausted → (handle e).Ends t Q fun e _ => e ≠ .exhausted) :
    Settles (fun m => tryCatch (x m) handle) s Q := by
  obtain ⟨n, hsame, hends⟩ := h
  refine of_const n (fun m hm => ?_)
    (ends_tryCatch.2 (hends.mono (fun _ _ => id) fun e t => hhandle e t))
  rw [tryCatch_apply, tryCatch_apply, hsame m hm]

/-- A loop over items settles, if each of its rounds does. -/
theorem forEach {γ : Type} {I : State σ → Prop} {step : Nat → γ → Exec σ Bool} {l : List γ}
    (hstep : ∀ a ∈ l, ∀ s, I s → Settles (fun m => step m a) s fun _ => I) (hs : I s) :
    Settles (fun m => forEach (step m) l) s fun _ => I := by
  induction l generalizing s with
  | nil => exact const hs
  | cons a rest ih =>
    have hround := hstep a List.mem_cons_self s hs
    simp only [forEach_cons]
    refine hround.bind fun more t ht => ?_
    cases more with
    | false => exact const ht
    | true => exact ih (fun b hb => hstep b (List.mem_cons_of_mem a hb)) ht

theorem forCount {I : State σ → Prop} {step : Nat → Int → Exec σ Bool} {rounds : Nat} {next : Int}
    (hstep : ∀ i s, I s → Settles (fun m => step m i) s fun _ => I) (hs : I s) :
    Settles (fun m => forCount (step m) next rounds) s fun _ => I := by
  induction rounds generalizing s next with
  | zero => exact const hs
  | succ k ih =>
    simp only [forCount_succ]
    refine (hstep next s hs).bind fun more t ht => ?_
    cases more with
    | false => exact const ht
    | true => exact ih ht

end Settles

end Exec

end CommandScript
