import CommandScript.Proofs.Idle
import CommandScript.Proofs.Settle
import CommandScript.Vm
/-!
# CommandScript — a larger limit on calls

The limit is looked at in one place, where a lambda is called. Two runs that differ in the
limit alone have called as many lambdas there, so the one with more room calls this one too
wherever the other does; and where the other does not, it fails for good, since no one but the
host gets hold of a failure, and the host lets it pass.

`Exec.Agrees` compares a step in a state with a step in the same state under the larger limit.
Almost all steps are the same on both sides, and say nothing of the limit (`Exec.Scales`).
-/

namespace CommandScript

variable {σ α β : Type}

/-- The same state with room for so many calls of lambdas inside one another. -/
def State.allowing (s : State σ) (m : Nat) : State σ := { s with maxDepth := m }

/-- A change of the state that the limit has no part in leaves the limit alone. -/
theorem State.maxDepth_of_allowing {f : State σ → State σ}
    (hf : ∀ s m, f (s.allowing m) = (f s).allowing m) (s : State σ) :
    (f s).maxDepth = s.maxDepth := by
  have h := congrArg State.maxDepth (hf s s.maxDepth)
  exact h

/-- There was no room for one more call of a lambda. -/
def Stop.IsCallDepth : Stop → Prop
  | .failed f => f.cause = .callDepth
  | _ => False

namespace Exec

/-- A step from a state, and a step from the same state with room for `m` calls, end alike,
unless the first one stops because it has no room for a call. -/
def Agrees (m : Nat) (s : State σ) (x y : Exec σ α) : Prop :=
  (∃ e t, x s = (.error e, t) ∧ e.IsCallDepth) ∨
    y (s.allowing m) = ((x s).1, (x s).2.allowing m) ∧ (x s).2.maxDepth ≤ m

/-- With more room a step does what it does with less. -/
class Scales (x : Exec σ α) : Prop where
  agrees : ∀ (s : State σ) (m : Nat), s.maxDepth ≤ m → Agrees m s x x

variable {s t : State σ} {m : Nat} {x y : Exec σ α}

namespace Agrees

/-- Where a step ends well, so does the other one, with the same result. -/
theorem of_ok {a : α} (hx : x s = (.ok a, t)) (hy : y (s.allowing m) = (.ok a, t.allowing m))
    (ht : t.maxDepth ≤ m) : Agrees m s x y := by
  refine .inr ?_
  rw [hx]
  exact ⟨hy, ht⟩

theorem of_error {e : Stop} (hx : x s = (.error e, t))
    (hy : y (s.allowing m) = (.error e, t.allowing m)) (ht : t.maxDepth ≤ m) :
    Agrees m s x y := by
  refine .inr ?_
  rw [hx]
  exact ⟨hy, ht⟩

/-- The three ways in which two steps agree. -/
theorem cases (h : Agrees m s x y) :
    (∃ e t, x s = (.error e, t) ∧ e.IsCallDepth) ∨
      (∃ a t, x s = (.ok a, t) ∧ y (s.allowing m) = (.ok a, t.allowing m) ∧ t.maxDepth ≤ m) ∨
      ∃ e t, x s = (.error e, t) ∧ y (s.allowing m) = (.error e, t.allowing m) ∧
        t.maxDepth ≤ m := by
  obtain h | ⟨hy, ht⟩ := h
  · exact .inl h
  · rcases hx : x s with ⟨e | a, t⟩ <;> rw [hx] at hy ht
    · exact .inr (.inr ⟨e, t, rfl, hy, ht⟩)
    · exact .inr (.inl ⟨a, t, rfl, hy, ht⟩)

theorem bind {f g : α → Exec σ β} (h : Agrees m s x y)
    (hf : ∀ a t, t.maxDepth ≤ m → Agrees m t (f a) (g a)) :
    Agrees m s (x >>= f) (y >>= g) := by
  obtain ⟨e, t, hx, he⟩ | ⟨a, t, hx, hy, ht⟩ | ⟨e, t, hx, hy, ht⟩ := h.cases
  · refine .inl ⟨e, t, ?_, he⟩
    rw [bind_apply, hx]
  · unfold Agrees
    rw [bind_apply, bind_apply, hx, hy]
    exact hf a t ht
  · exact of_error (by rw [bind_apply, hx]) (by rw [bind_apply, hy]) ht

/-- Two steps that look at the state first. -/
theorem get {f g : State σ → Exec σ α} (h : Agrees m s (f s) (g (s.allowing m))) :
    Agrees m s (get >>= f) (get >>= g) := h

/-- Two steps that put another state in place first. -/
theorem set {f g : PUnit → Exec σ α} (h : Agrees m t (f ⟨⟩) (g ⟨⟩)) :
    Agrees m s (set t >>= f) (set (t.allowing m) >>= g) := h

/-- Whatever is tidied up behind a step, if the limit has no part in it. -/
theorem finishing {cleanUp : State σ → State σ} (h : Agrees m s x y)
    (hclean : ∀ s m, cleanUp (s.allowing m) = (cleanUp s).allowing m) :
    Agrees m s (finishing x cleanUp) (finishing y cleanUp) := by
  have hlimit {t : State σ} (ht : t.maxDepth ≤ m) : (cleanUp t).maxDepth ≤ m := by
    rw [State.maxDepth_of_allowing hclean]
    exact ht
  obtain ⟨e, t, hx, he⟩ | ⟨a, t, hx, hy, ht⟩ | ⟨e, t, hx, hy, ht⟩ := h.cases
  · exact .inl ⟨e, cleanUp t, by rw [Exec.finishing, hx], he⟩
  · refine of_ok (t := cleanUp t) (by rw [Exec.finishing, hx]) ?_ (hlimit ht)
    rw [Exec.finishing, hy]
    exact congrArg (Prod.mk _) (hclean t m)
  · refine of_error (t := cleanUp t) (by rw [Exec.finishing, hx]) ?_ (hlimit ht)
    rw [Exec.finishing, hy]
    exact congrArg (Prod.mk _) (hclean t m)

/-- Where a step stops something is done, and a missing call is let pass. -/
theorem tryCatch {handle : Stop → Exec σ α} (h : Agrees m s x y)
    (hpass : ∀ e, e.IsCallDepth → handle e = throw e)
    (hhandle : ∀ e t, t.maxDepth ≤ m → Agrees m t (handle e) (handle e)) :
    Agrees m s (tryCatch x handle) (tryCatch y handle) := by
  obtain ⟨e, t, hx, he⟩ | ⟨a, t, hx, hy, ht⟩ | ⟨e, t, hx, hy, ht⟩ := h.cases
  · refine .inl ⟨e, t, ?_, he⟩
    rw [tryCatch_apply, hx]
    exact congrFun (hpass e he) t
  · exact of_ok (by rw [tryCatch_apply, hx]) (by rw [tryCatch_apply, hy]) ht
  · unfold Agrees
    rw [tryCatch_apply, tryCatch_apply, hx, hy]
    exact hhandle e t ht

end Agrees

/-! ## Steps put together -/

namespace Scales

instance pure (a : α) : Scales (pure a : Exec σ α) := ⟨fun _ _ hm => .inr ⟨rfl, hm⟩⟩

instance fail (cause : Cause) (span : Span) : Scales (fail cause span : Exec σ α) :=
  ⟨fun _ _ hm => .inr ⟨rfl, hm⟩⟩

instance (e : Stop) : Scales (throw e : Exec σ α) := ⟨fun _ _ hm => .inr ⟨rfl, hm⟩⟩

instance crash (c : Crash) : Scales (crash c : Exec σ α) := ⟨fun _ _ hm => .inr ⟨rfl, hm⟩⟩

instance orCrash (r : Except Crash α) : Scales (orCrash r : Exec σ α) := by
  cases r with
  | ok a => exact pure a
  | error c => exact crash c

instance make (new : Heap → α × Heap) : Scales (make new : Exec σ α) :=
  ⟨fun _ _ hm => .inr ⟨rfl, hm⟩⟩

instance bind (x : Exec σ α) (f : α → Exec σ β) [hx : Scales x] [hf : ∀ a, Scales (f a)] :
    Scales (x >>= f) :=
  ⟨fun s m hm => (hx.agrees s m hm).bind fun a t ht => (hf a).agrees t m ht⟩

instance map (f : α → β) (x : Exec σ α) [Scales x] : Scales (f <$> x) := by
  rw [map_eq_pure_bind]
  infer_instance

instance ite (P : Prop) [Decidable P] (x y : Exec σ α) [hx : Scales x] [hy : Scales y] :
    Scales (if P then x else y) := by
  split
  · exact hx
  · exact hy

/-- A step, and what follows on its result. -/
theorem andThen {x : Exec σ α} {f : α → Exec σ β} (hx : Scales x) (hf : ∀ a, Scales (f a)) :
    Scales (x >>= f) :=
  bind x f

/-- A step that looks at the state, but not at the limit. -/
theorem read {f : State σ → Exec σ α} (h : ∀ s, Scales (f s))
    (hf : ∀ s m, f (s.allowing m) = f s) : Scales (get >>= f) := by
  refine ⟨fun s m hm => .get ?_⟩
  rw [hf s m]
  exact (h s).agrees s m hm

/-- A change of the state that the limit has no part in. -/
theorem modify {f : State σ → State σ} (hf : ∀ s m, f (s.allowing m) = (f s).allowing m) :
    Scales (modify f : Exec σ PUnit) := by
  refine ⟨fun s m hm => .inr ⟨congrArg (Prod.mk _) (hf s m), ?_⟩⟩
  exact Nat.le_trans (Nat.le_of_eq (State.maxDepth_of_allowing hf s)) hm

theorem finishing {x : Exec σ α} {cleanUp : State σ → State σ} (hx : Scales x)
    (hclean : ∀ s m, cleanUp (s.allowing m) = (cleanUp s).allowing m) :
    Scales (finishing x cleanUp) :=
  ⟨fun s m hm => (hx.agrees s m hm).finishing hclean⟩

instance within (scope : FrameId) (x : Exec σ α) [hx : Scales x] : Scales (within scope x) := by
  refine ⟨fun s m hm => ?_⟩
  let back (t : State σ) : State σ := { t with scope := s.scope }
  have hclean (t : State σ) (m : Nat) : back (t.allowing m) = (back t).allowing m := rfl
  exact (hx.agrees { s with scope } m hm).finishing hclean

theorem tryCatch {x : Exec σ α} {handle : Stop → Exec σ α} [hx : Scales x]
    (hpass : ∀ e, e.IsCallDepth → handle e = throw e) (hhandle : ∀ e, Scales (handle e)) :
    Scales (tryCatch x handle) :=
  ⟨fun s m hm => (hx.agrees s m hm).tryCatch hpass fun e t ht => (hhandle e).agrees t m ht⟩

/-! ## Loops -/

instance forEach (step : α → Exec σ Bool) (l : List α) [hstep : ∀ a, Scales (step a)] :
    Scales (forEach step l) := by
  induction l with
  | nil => exact pure ()
  | cons a rest ih =>
    rw [forEach_cons]
    infer_instance

instance forCount (step : Int → Exec σ Bool) (next : Int) (rounds : Nat)
    [hstep : ∀ i, Scales (step i)] : Scales (forCount step next rounds) := by
  induction rounds generalizing next with
  | zero => exact pure ()
  | succ k ih =>
    rw [forCount_succ]
    infer_instance

instance repeated (step : Exec σ Bool) (rounds : Nat) [hstep : Scales step] :
    Scales (repeated step rounds) := by
  induction rounds with
  | zero => exact inferInstanceAs (Scales (throw .exhausted : Exec σ Unit))
  | succ k ih =>
    rw [repeated_succ]
    infer_instance

end Scales
end Exec

/-! ## The host -/

/-- Two replies are the same, up to the limit of the states they hand back. -/
inductive Reply.Agrees (m : Nat) : Reply σ → Reply σ → Prop where
  | value (v : Value) {t : State σ} : t.maxDepth ≤ m →
      Agrees m (.value v t) (.value v (t.allowing m))
  | crash (c : Crash) {t : State σ} : t.maxDepth ≤ m →
      Agrees m (.crash c t) (.crash c (t.allowing m))
  | call (f : Value) (arguments : List Value) {t : State σ}
      {resume resume' : Value → State σ → Reply σ} : t.maxDepth ≤ m →
      (∀ v u, u.maxDepth ≤ m → Agrees m (resume v u) (resume' v (u.allowing m))) →
      Agrees m (.call f arguments t resume) (.call f arguments (t.allowing m) resume')

/-- The limit on calls is no matter of the host: it does not raise it, and what it answers does
not depend on it. -/
class Host.IgnoresLimit (host : Host σ) : Prop where
  command : ∀ name arguments (s : State σ) m, s.maxDepth ≤ m →
    (host.command name arguments s).Agrees m (host.command name arguments (s.allowing m))
  field : ∀ object name (s : State σ) m,
    host.field object name (s.allowing m) = host.field object name s

theorem Reply.Agrees.follow {m : Nat} {r r' : Reply σ} {call : Value → List Value → Exec σ Value}
    (h : r.Agrees m r') (hcall : ∀ f arguments, (call f arguments).Scales) (s : State σ) :
    Exec.Agrees m s (r.follow call) (r'.follow call) := by
  induction h generalizing s with
  | value v ht => exact .inr ⟨rfl, ht⟩
  | crash c ht => exact .inr ⟨rfl, ht⟩
  | @call f arguments t resume resume' ht _ ih =>
    obtain ⟨e, u, hx, he⟩ | ⟨v, u, hx, hy, hu⟩ | ⟨e, u, hx, hy, hu⟩ :=
      ((hcall f arguments).agrees t m ht).cases
    · exact .inl ⟨e, u, by rw [Reply.follow, hx], he⟩
    · obtain ⟨e, w, hx', he⟩ | ⟨hy', hw⟩ := ih v u hu u
      · exact .inl ⟨e, w, by rw [Reply.follow, hx]; exact hx', he⟩
      · refine .inr ?_
        simp only [Reply.follow, hx, hy]
        exact ⟨hy', hw⟩
    · exact .of_error (by rw [Reply.follow, hx]) (by rw [Reply.follow, hy]) hu

/-! ## The rules of evaluation -/

namespace Eval

open Exec

/-- With more room an evaluation does what it does with less, whatever it is asked for. -/
class Scaling (eval : String → (t : Task σ) → Exec σ t.Result) : Prop where
  value : ∀ source e, Scales (eval source (.value e))
  body : ∀ source b, Scales (eval source (.body b))
  call : ∀ source a arguments loop, Scales (eval source (.call a arguments loop))
  reply : ∀ source (s : State σ) {m : Nat} {r r' : Reply σ}, s.maxDepth ≤ m → r.Agrees m r' →
    Agrees m s (eval source (.reply r)) (eval source (.reply r'))

attribute [instance] Scaling.value Scaling.body Scaling.call

variable {host : Host σ} [hhost : host.IgnoresLimit] {budget : Nat}
variable {self : String → (t : Task σ) → Exec σ t.Result} [hself : Scaling self] {source : String}

instance (v : Value) : Scales (shown v : Exec σ String) :=
  .read (fun _ => inferInstance) fun _ _ => rfl

instance (span : Span) (r : Except OperatorFault Value) :
    Scales (operated span r : Exec σ Value) := by
  obtain ⟨_ | _⟩ | _ := r <;> (unfold operated; infer_instance)

instance (key : Value) (span : Span) : Scales (tableKey key span : Exec σ Value) := by
  unfold tableKey
  split <;> infer_instance

instance (key : Value) (span : Span) : Scales (vectorIndex key span : Exec σ Int) := by
  unfold vectorIndex
  split
  · split <;> infer_instance
  · infer_instance

instance (container key value : Value) (span : Span) :
    Scales (setIndex container key value span : Exec σ Unit) := by
  unfold setIndex
  split
  · infer_instance
  · exact .andThen inferInstance fun _ => .modify fun _ _ => rfl
  · next a =>
    refine .andThen inferInstance fun i => .read (fun s => ?_) fun _ _ => rfl
    dsimp only
    split
    · exact .modify fun _ _ => rfl
    · split
      · exact .modify fun _ _ => rfl
      · split <;> infer_instance
  · infer_instance

/-- A field of something that only the host knows how to look into. -/
theorem scales_objectField (host : Host σ) [hhost : host.IgnoresLimit] (container key : Value)
    (span : Span) :
    Scales (match key with
      | .string name =>
        if name.startsWith "_" then fail (.privateField name) span
        else match container with
          | .object o => return host.field o name (← get)
          | .tuple a => return ((TupleMethod.ofName? name).map (.method a)).getD .nil
          | _ => return .nil
      | key => fail (.objectKey key.kind) span : Exec σ Value) := by
  cases key with
  | string name =>
    dsimp only
    split
    · infer_instance
    · cases container with
      | object o =>
        exact .read (fun _ => inferInstance) fun s m => congrArg pure (hhost.field o name s m)
      | _ => infer_instance
  | _ => infer_instance

instance (container key : Value) (span : Span) : Scales (index host container key span) := by
  have hobject := scales_objectField host container key span
  cases container with
  | nil => unfold index; infer_instance
  | table a =>
    have hget (key : Value) : Scales (do
        let key ← tableKey key span
        return (((← get).heap.table a).get? key).getD .nil : Exec σ Value) :=
      .andThen inferInstance fun _ => .read (fun _ => inferInstance) fun _ _ => rfl
    cases key with
    | nil => exact inferInstanceAs (Scales (pure .nil : Exec σ Value))
    | _ => exact hget _
  | vector a =>
    refine .andThen inferInstance fun i => ?_
    split
    · exact .read (fun _ => inferInstance) fun _ _ => rfl
    · infer_instance
  | string _ | bool _ | number _ => exact .fail _ span
  | tuple _ | lambda _ | command _ | object _ | method _ _ => exact hobject

/-! ## Variables -/

instance (e : Option Expression) (span : Span) : Scales (required self source e span) := by
  cases e <;> (unfold required; infer_instance)

instance (r : VarRoot) : Scales (rootName self source r) := by
  unfold rootName
  split
  · infer_instance
  · split <;> infer_instance
  · refine .andThen inferInstance fun v => ?_
    split <;> infer_instance

instance (r : VarRoot) : Scales (rootValue self source r) := by
  have hname : Scales (do
      let name ← rootName self source r
      return (← get).frames.get (← get).scope name) :=
    .andThen inferInstance fun _ => .read (fun _ => .read (fun _ => inferInstance) fun _ _ => rfl)
      fun _ _ => rfl
  have hglobal (global : Option Value) : Scales (match global with
      | some v => pure v
      | none => do
        let name ← rootName self source r
        return (← get).frames.get (← get).scope name) := by
    cases global
    · exact hname
    · infer_instance
  unfold rootValue
  cases r with
  | bare t => exact .read (fun _ => hglobal _) fun _ _ => rfl
  | _ => exact hglobal none

instance (s : VarSuffix) : Scales (suffixKey self source s) := by
  unfold suffixKey
  split
  · split <;> infer_instance
  · infer_instance

instance scales_followSuffixes (ss : List VarSuffix) (v : Value) :
    Scales (followSuffixes host self source ss v) := by
  induction ss generalizing v with
  | nil => unfold followSuffixes; infer_instance
  | cons s rest ih => unfold followSuffixes; infer_instance

instance (v : Var) : Scales (varValue host self source v) := by
  unfold varValue
  infer_instance

instance (target : Var) (value : Value) : Scales (assign host self source target value) := by
  unfold assign
  split
  · exact .andThen inferInstance fun _ => .modify fun _ _ => rfl
  · infer_instance

/-! ## Calls -/

instance (loop : Bool) : Scales (Discipline.valuesOfCall loop : Exec σ (List Value)) := by
  refine .read (fun s => ?_) fun _ _ => rfl
  cases s.pending with
  | none => infer_instance
  | some p =>
    dsimp only
    split
    · infer_instance
    · refine .andThen (.modify fun _ _ => rfl) fun _ => ?_
      split <;> infer_instance

/-- The body of a lambda, in a frame of its own and one call deeper. -/
theorem scales_lambdaBody (self : String → (t : Task σ) → Exec σ t.Result) [Scaling self]
    (source : String) (frame : FrameId) (body : FunctionBody) :
    Scales (finishing
      (tryCatch (within frame (match body.block with
        | some b => self source (.body b.block)
        | none => pure () : Exec σ Unit)) fun
        | .crashed .endless => fail .endless body.span
        | e => throw e)
      fun s => { s with depth := s.depth - 1 }) := by
  have hbody : Scales (match body.block with
      | some b => self source (.body b.block)
      | none => pure () : Exec σ Unit) := by
    cases body.block <;> infer_instance
  refine .finishing (.tryCatch (fun e he => ?_) fun e => ?_) fun _ _ => rfl
  · cases e with
    | failed f => rfl
    | _ => cases he
  · split <;> infer_instance

/-- **A call of a lambda, which the limit is there for.** Where there is no room for it with less,
there is nothing to say of it with more. -/
instance (lambda : Address) (arguments : List Value) (loop : Bool) :
    Scales (callLambda self source lambda arguments loop) := by
  refine ⟨fun s m hm => .get ?_⟩
  have hheap : (s.allowing m).heap = s.heap := rfl
  rw [hheap]
  cases s.heap.lambdas[lambda]? with
  | none => exact .inr ⟨rfl, hm⟩
  | some closure =>
    dsimp only
    by_cases hfull : s.maxDepth ≤ s.depth
    · rw [if_pos hfull]
      exact .inl ⟨_, s, rfl, rfl⟩
    · have hroom : ¬ (s.allowing m).maxDepth ≤ (s.allowing m).depth := by
        change ¬ m ≤ s.depth
        omega
      rw [if_neg hfull, if_neg hroom]
      have hbody := scales_lambdaBody self source (s.frames.child closure.frame true).1 closure.body
      have hvalues : Scales (Discipline.valuesOfCall loop : Exec σ (List Value)) := inferInstance
      refine .set (.bind (hbody.agrees _ m ?_) fun _ t ht => hvalues.agrees t m ht)
      exact hm

instance (f : Value) (arguments : List Value) :
    Scales (callForHost host self source f arguments) := by
  cases f with
  | lambda a =>
    exact .read (fun _ => inferInstance) fun _ _ => rfl
  | command name =>
    exact ⟨fun s m hm => .get (hself.reply source s hm (hhost.command name arguments s m hm))⟩
  | method a m => exact .read (fun _ => inferInstance) fun _ _ => rfl
  | _ => unfold callForHost; infer_instance

/-- What a command crashes with is told as a failure; a missing call is one already. -/
instance (callee : Value) (arguments : List Value) (name : String) (span : Span) :
    Scales (invoke host self source callee arguments name span) := by
  have hcaught : Scales (tryCatch (callForHost host self source callee arguments) fun
      | .crashed crash => fail (.commandFailed name crash.message) span
      | e => throw e) := by
    refine .tryCatch (fun e he => ?_) fun e => ?_
    · cases e with
      | failed f => rfl
      | _ => cases he
    · split <;> infer_instance
  have hpacked : Scales (do
      let result ← tryCatch (callForHost host self source callee arguments) fun
        | .crashed crash => fail (.commandFailed name crash.message) span
        | e => throw e
      return (← get).heap.packed result) :=
    .andThen inferInstance fun _ => .read (fun _ => inferInstance) fun _ _ => rfl
  unfold invoke
  refine .andThen (.modify fun _ _ => rfl) fun _ => ?_
  refine .finishing ?_ fun _ _ => rfl
  cases callee with
  | lambda a => infer_instance
  | _ => exact hpacked

instance scales_argumentValues (es : List Expression) :
    Scales (argumentValues self source es) := by
  induction es with
  | nil => unfold argumentValues; infer_instance
  | cons e rest ih => unfold argumentValues; infer_instance

instance (v : Var) : Scales (calleeValue host self source v) := by
  refine .read (fun s => ?_) fun _ _ => rfl
  split <;> infer_instance

instance (c : Command) : Scales (command host self source c) := by
  unfold command
  infer_instance

instance (c : Call) : Scales (call host self source c) := by
  unfold call
  split <;> infer_instance

/-! ## Expressions -/

instance scales_itemValues (is : Separated Expression) : Scales (itemValues self source is) := by
  induction is with
  | nil => unfold itemValues; infer_instance
  | cons i rest ih => unfold itemValues; infer_instance

instance (position : Int) (f : TableField) : Scales (fieldKey self source position f) := by
  cases f <;> (unfold fieldKey; infer_instance)

instance scales_fieldEntries (position : Int) (t : Table Value) (is : Separated TableField) :
    Scales (fieldEntries self source position t is) := by
  induction is generalizing position t with
  | nil => unfold fieldEntries; infer_instance
  | cons i rest ih =>
    unfold fieldEntries
    cases i.value with
    | none => exact ih position t
    | some f =>
      refine .andThen inferInstance fun key => .andThen inferInstance fun v => ?_
      split <;> exact ih _ _

instance (left : Expression) (operator : Token) (right : Option Expression) (span : Span) :
    Scales (binary self source left operator right span) := by
  unfold binary
  refine .andThen inferInstance fun l => ?_
  split
  · infer_instance
  · infer_instance
  · exact .andThen inferInstance fun r => .read (fun _ => inferInstance) fun _ _ => rfl

instance (k : Skipped) : Scales (refuseSkipped k : Exec σ α) := by
  unfold refuseSkipped
  infer_instance

instance (e : Expression) : Scales (value host self source e) := by
  cases e with
  | number t =>
    unfold value
    dsimp only
    split <;> infer_instance
  | lambda body => exact .read (fun _ => inferInstance) fun _ _ => rfl
  | group _ inner _ =>
    unfold value
    cases inner <;> infer_instance
  | _ => unfold value; infer_instance

/-! ## Statements and blocks -/

instance (b : Block) : Scales (block self source b) := by
  refine ⟨fun s m hm => .get (.set ?_)⟩
  have hbody : Scales (within (s.frames.child s.scope false).1 (self source (.body b))) :=
    inferInstance
  exact hbody.agrees { s with frames := (s.frames.child s.scope false).2 } m hm

instance scales_branches (otherwise : Exec σ Unit) [Scales otherwise] (bs : List Branch) :
    Scales (branches self source otherwise bs) := by
  induction bs with
  | nil => unfold branches; infer_instance
  | cons b rest ih =>
    unfold branches
    split
    · infer_instance
    · refine .andThen inferInstance fun v => ?_
      split
      · split <;> infer_instance
      · infer_instance

instance : Scales (goesOn : Exec σ Bool) := by
  refine .read (fun s => ?_) fun _ _ => rfl
  cases s.pending with
  | none => infer_instance
  | some p =>
    dsimp only
    split
    · exact .andThen (.modify fun _ _ => rfl) fun _ => inferInstance
    · exact .andThen (.modify fun _ _ => rfl) fun _ => inferInstance
    · infer_instance

instance (condition : Condition) (body : Block) :
    Scales (whileLoop budget self source condition body) := by
  unfold whileLoop
  infer_instance

instance (subject : Value) (span : Span) (lambda : Address) :
    Scales (forLoop self source subject span lambda) := by
  unfold forLoop
  dsimp only
  split
  · exact .read (fun _ => inferInstance) fun _ _ => rfl
  · exact .read (fun _ => inferInstance) fun _ _ => rfl
  · split
    · infer_instance
    · split <;> infer_instance
  · infer_instance

instance (s : Statement) : Scales (statement host budget self source s) := by
  cases s with
  | conditional _ first others otherwise _ =>
    have hotherwise : Scales (match otherwise with
        | none => pure ()
        | some o =>
          match o.block with
          | none => fail .missingElseBlock o.span
          | some b => block self source b.block) := by
      split
      · infer_instance
      · split <;> infer_instance
    unfold statement
    infer_instance
  | whileLoop _ condition body span =>
    unfold statement
    dsimp only
    split <;> infer_instance
  | forLoop _ subject body span =>
    unfold statement
    dsimp only
    split
    · refine .andThen inferInstance fun v => .andThen inferInstance fun f => ?_
      split <;> infer_instance
    · infer_instance
  | _ => unfold statement; infer_instance

instance (l : LastStatement) : Scales (leave self source l) := by
  have hpend (values : List Value) : Scales (do
      modify fun s => { s with pending := some ⟨s.scope, l, values⟩ } : Exec σ Unit) :=
    .modify fun _ _ => rfl
  unfold leave
  dsimp only
  split <;> exact .andThen inferInstance hpend

instance scales_statements (last : Option LastStatement) (result : Option (List Value))
    (ss : List Statement) :
    Scales (statements host budget self source last result ss) := by
  induction ss generalizing result with
  | nil =>
    unfold statements
    cases last <;> infer_instance
  | cons s rest ih =>
    unfold statements
    refine .andThen inferInstance fun values => .read (fun t => ?_) fun _ _ => rfl
    infer_instance

/-- Every task is done with more room as it is done with less, if what it asks for inside itself
is. -/
theorem scaling_rule : Scaling (rule host budget self) where
  value source e := inferInstanceAs (Scales (value host self source e))
  body source b := by
    unfold rule
    infer_instance
  call source a arguments loop := inferInstanceAs (Scales (callLambda self source a arguments loop))
  reply source s _ _ _ _ h := h.follow (fun _ _ => inferInstance) s

instance scaling_run (budget : Nat) : Scaling (run host budget) := by
  induction budget with
  | zero =>
    exact ⟨fun _ _ => inferInstanceAs (Scales (throw .exhausted : Exec σ Value)),
      fun _ _ => inferInstanceAs (Scales (throw .exhausted : Exec σ Unit)),
      fun _ _ _ _ => inferInstanceAs (Scales (throw .exhausted : Exec σ (List Value))),
      fun _ _ _ _ _ hm _ => .inr ⟨rfl, hm⟩⟩
  | succ n ih => exact scaling_rule

end Eval

/-! ## Whole runs -/

open Exec

variable {host : Host σ} [hhost : host.IgnoresLimit]

instance (budget : Nat) (text : String) (b : Block) : Scales (runBlock host budget text b) := by
  have hclear : Scales (modify fun s => { s with pending := none } : Exec σ PUnit) :=
    .modify fun _ _ => rfl
  unfold runBlock
  refine .andThen inferInstance fun values => .read (fun s => ?_) fun _ _ => rfl
  split
  · infer_instance
  · refine .andThen inferInstance fun _ => ?_
    split <;> infer_instance

/-- A run of a tree that has room for all the calls it makes goes the same way with more room. -/
theorem execute_allowing {s : State σ} {m : Nat} (hm : s.maxDepth ≤ m) (budget : Nat)
    (text : String) (b : Block)
    (hroom : ∀ f, (execute host budget text b s).1 = .failed f → f.cause ≠ .callDepth) :
    execute host budget text b (s.allowing m) =
      ((execute host budget text b s).1, (execute host budget text b s).2.allowing m) := by
  have hrun : Scales (within (s.frames.child s.scope true).1 (runBlock host budget text b)) :=
    inferInstance
  have hagrees := hrun.agrees { s with frames := (s.frames.child s.scope true).2 } m hm
  unfold execute at hroom ⊢
  obtain ⟨e, t, hx, he⟩ | ⟨a, t, hx, hy, -⟩ | ⟨e, t, hx, hy, -⟩ := hagrees.cases
  · dsimp only at hroom
    rw [hx] at hroom
    cases e with
    | failed f => exact absurd he (hroom f rfl)
    | _ => cases he
  · dsimp only [State.allowing] at hy ⊢
    rw [hx, hy]
  · dsimp only [State.allowing] at hy ⊢
    rw [hx, hy]
    obtain f | c | _ := e
    · rfl
    · cases c <;> rfl
    · rfl

/-- The same machine with room for so many calls. -/
def Vm.allowing (vm : Vm σ) (m : Nat) : Vm σ := { vm with state := vm.state.allowing m }

/-- **The limit on calls is only a limit.** Let a run of a text end otherwise than by a call that
there was no room for. With more room it ends in the same way: with the same values, or with the
same failure in the same place behind the same open calls. It leaves the same globals, scopes and
containers behind, and all else that it can change. The host may have lambdas called, as long as
the limit is no matter of its own. -/
theorem Vm.run_allowing (vm : Vm σ) {m : Nat} (hm : vm.state.maxDepth ≤ m) (budget : Nat)
    (text : String) (limit : Nat)
    (hroom : ∀ b f, (parse text limit).block = some b →
      (execute host budget text b vm.state).1 = .failed f → f.cause ≠ .callDepth) :
    (∀ b, (parse text limit).block = some b →
      execute host budget text b (vm.state.allowing m) =
        ((execute host budget text b vm.state).1,
          (execute host budget text b vm.state).2.allowing m)) ∧
      (vm.allowing m).run host budget text limit =
        ((vm.run host budget text limit).1, (vm.run host budget text limit).2.allowing m) := by
  have hexecute : ∀ b, (parse text limit).block = some b →
      execute host budget text b (vm.state.allowing m) =
        ((execute host budget text b vm.state).1,
          (execute host budget text b vm.state).2.allowing m) :=
    fun b hb => execute_allowing hm budget text b fun f => hroom b f hb
  refine ⟨hexecute, ?_⟩
  cases hparse : (parse text limit).block with
  | none =>
    simp only [Vm.run, hparse]
    split <;> rfl
  | some b =>
    have hstate : (vm.allowing m).state = vm.state.allowing m := rfl
    simp only [Vm.run, hparse, hstate, hexecute b hparse]
    cases (execute host budget text b vm.state).1 <;> rfl

/-! ## The recording host -/

namespace Recorder

theorem mapFrom_agrees (vector : Address) (f : Value) (rounds : Nat) (done : List Value)
    {s : State Recorder} {m : Nat} (hm : s.maxDepth ≤ m) :
    (mapFrom vector f rounds done s).Agrees m (mapFrom vector f rounds done (s.allowing m)) := by
  induction rounds generalizing done s with
  | zero => exact .crash _ hm
  | succ n ih =>
    have hheap : (s.allowing m).heap = s.heap := rfl
    simp only [mapFrom, hheap]
    split
    · exact .call _ _ hm fun v u hu => ih _ hu
    · exact .value _ hm

theorem command_agrees (rounds : Nat) (name : String) (arguments : List Value)
    {s : State Recorder} {m : Nat} (hm : s.maxDepth ≤ m) :
    (command rounds name arguments s).Agrees m (command rounds name arguments (s.allowing m)) := by
  have hheap : (s.allowing m).heap = s.heap := rfl
  have hlength : ∀ v, lengthOf (s.allowing m) v = lengthOf s v := fun _ => rfl
  have hcrash (c : Crash) : Reply.Agrees m (.crash c s) (.crash c (s.allowing m)) := .crash c hm
  have hvalue (v : Value) : Reply.Agrees m (.value v s) (.value v (s.allowing m)) := .value v hm
  unfold command
  split
  case h_1 | h_8 =>
    rw [hheap]
    split
    · first
      | exact .value _ hm
      | exact hcrash _
    · exact hcrash _
  case h_2 | h_3 | h_6 | h_7 | h_13 | h_14 => exact .value _ hm
  case h_4 =>
    split
    · exact hvalue _
    · exact hcrash _
  case h_9 f rest =>
    split
    · exact .call f rest hm fun v u hu => .value v hu
    · exact hcrash _
  case h_11 a f rest =>
    split
    · exact mapFrom_agrees a f rounds [] hm
    · exact hcrash _
  case h_16 v rest =>
    rw [hlength]
    split
    · exact hvalue _
    · exact hcrash _
  case h_5 | h_18 => exact hvalue _
  all_goals exact hcrash _

instance (rounds : Nat) : (Recorder.host rounds).IgnoresLimit where
  field _ _ _ _ := rfl
  command name arguments _ _ hm := command_agrees rounds name arguments hm

end Recorder

/-- The failure of a run that fails. -/
def Outcome.failure? : Outcome → Option Failure
  | .failed f => some f
  | _ => none

/-- A lambda calls itself, a loop calls it, and so does one that the host calls, where the run
fails for a command that is not there. There is room for no more calls than these; with less
there is not enough. -/
theorem Vm.run_allowing_recorder :
    let text := "$f = |n| \x7b if ($n > 0) \x7b return (& f ($n - 1)) \x7d \x7d\n" ++
      "for ([0]) |x| \x7b f $x \x7d\nf 1\ncall || \x7b f 0; nope \x7d"
    let host := Recorder.host 8
    let b := treeOf text
    let s := Recorder.ready.allowing 2
    let vm : Vm Recorder := ⟨s, {}, {}⟩
    let f : Failure := ⟨.unknownCommand "nope", some ⟨93, 97⟩, [⟨.host, "call", some 4⟩]⟩
    (execute host 60 text b (s.allowing 1)).1.failure?.map (·.cause) = some .callDepth ∧
      (parse text Limit.nesting).block = some b ∧ s.maxDepth ≤ 5 ∧
      (execute host 60 text b s).1.failure? = some f ∧
      execute host 60 text b (s.allowing 5) =
        ((execute host 60 text b s).1, (execute host 60 text b s).2.allowing 5) ∧
      (vm.allowing 5).run host 60 text Limit.nesting =
        ((vm.run host 60 text Limit.nesting).1,
          (vm.run host 60 text Limit.nesting).2.allowing 5) := by
  intro text host b s vm f
  have hb : (parse text Limit.nesting).block = some b := by
    obtain ⟨b', hb'⟩ := Option.isSome_iff_exists.1
      (show (parse text Limit.nesting).block.isSome = true by decide +kernel)
    exact hb'.trans (congrArg some (by simp only [b, treeOf, hb', Option.getD_some]))
  have hfailed : (execute host 60 text b s).1.failure? = some f := by decide +kernel
  have hroom : ∀ b' f', (parse text Limit.nesting).block = some b' →
      (execute host 60 text b' s).1 = .failed f' → f'.cause ≠ .callDepth := by
    intro b' f' hb' hf'
    cases hb.symm.trans hb'
    rw [hf'] at hfailed
    cases hfailed
    intro hcause
    cases hcause
  have hrun := Vm.run_allowing vm (m := 5) (by decide) 60 text Limit.nesting hroom
  exact ⟨by decide +kernel, hb, by decide, hfailed, hrun.1 b hb, hrun.2⟩

end CommandScript
