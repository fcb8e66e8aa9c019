import CommandScript.Proofs.Clean
import CommandScript.Proofs.Settle
/-!
# CommandScript — evaluation on one level of calls

While calls are nested to one depth, what is run stands in a tree, or is a call. Each
rule of the evaluator settles if what it asks for does, as long as no lambda in reach has
a `while` loop in it; and it leaves such a state, on the same level of calls. Here is one
lemma for each rule, in the order of the rules, with what the rule asks for as hypotheses;
that trees and calls provide it is in `CommandScript.Proofs.Halting`.
-/

namespace CommandScript

open Exec Outline

variable {σ α β : Type}

/-! ## Trees without `while` -/

/-- The part is a `while` loop. -/
def Node.isWhile : Node → Bool
  | .statement (.whileLoop ..) => true
  | _ => false

/-- No part of an outline is a `while` loop. -/
abbrev Outline.WhileFree (o : Outline) : Prop := o.Each fun p => p.isWhile = false

/-- No part of outlines is a `while` loop. -/
abbrev Outline.AllWhileFree (os : List Outline) : Prop := EachOf (fun p => p.isWhile = false) os

/-- No part of the body of a lambda is a `while` loop. -/
def FunctionBody.WhileFree (b : FunctionBody) : Prop := (ofBody b).WhileFree

/-- No part of a block is a `while` loop. -/
def Block.WhileFree (b : Block) : Prop := (ofBlock b).WhileFree

instance (b : Block) : Decidable b.WhileFree :=
  inferInstanceAs (Decidable (∀ p ∈ (ofBlock b).parts, p.isWhile = false))

/-- No lambda that can be reached has a `while` loop in it. -/
def State.LambdasWhileFree (kept : σ → Value → Prop) (s : State σ) : Prop :=
  ∃ r : Reach, r.Closed FunctionBody.WhileFree kept s

/-- The reply is a value or gives up; it does not have a function called. How deep calls are
nested, and how deep they may be, is left alone. -/
def Reply.IsAnswer (s : State σ) : Reply σ → Prop
  | .value _ t => t.depth = s.depth ∧ t.maxDepth = s.maxDepth
  | .crash .. => True
  | .call .. => False

/-- The commands of the host answer without calling back. -/
def Host.AnswersAtOnce (host : Host σ) : Prop :=
  ∀ name arguments s, (host.command name arguments s).IsAnswer s

/-! ## A level of calls -/

/-- What is kept while calls are nested so deep. -/
structure Level (σ : Type) where
  reach : Reach
  kept : σ → Value → Prop
  depth : Nat
  maxDepth : Nat

namespace Level

/-- One more call. -/
def deeper (L : Level σ) : Level σ := { L with depth := L.depth + 1 }

/-- A state on the level: no lambda in reach has a `while` loop in it. -/
structure Fine (L : Level σ) (s : State σ) : Prop where
  closed : L.reach.Closed FunctionBody.WhileFree L.kept s
  depth : s.depth = L.depth
  maxDepth : s.maxDepth = L.maxDepth

/-- A step settles; if it ends well, the state is still on the level. -/
def Comes (L : Level σ) (s : State σ) (P : α → Prop) (x : Nat → Exec σ α) : Prop :=
  Settles x s fun a t => P a ∧ L.Fine t

/-- The values in reach. -/
abbrev Holds (L : Level σ) : Value → Prop := L.reach.region.Holds

/-- Values that are all in reach. -/
abbrev Held (L : Level σ) : List Value → Prop := L.reach.region.Held

variable {L : Level σ} {s t : State σ} {P : α → Prop} {Q : β → Prop} {x : Nat → Exec σ α}

theorem Fine.of_sameNames (hs : L.Fine s) (ht : L.reach.region.Guards L.kept t)
    (h : s.SameNames t) (hdepth : t.depth = s.depth) (hmax : t.maxDepth = s.maxDepth) : L.Fine t :=
  ⟨hs.closed.of_sameNames ht h, hdepth.trans hs.depth, hmax.trans hs.maxDepth⟩

namespace Comes

theorem pure (hs : L.Fine s) {a : α} (ha : P a) : L.Comes s P fun _ => (pure a : Exec σ α) :=
  .const (ends_pure.2 ⟨ha, hs⟩)

theorem fail {cause : Cause} {span : Span} :
    L.Comes s P fun _ => (Exec.fail cause span : Exec σ α) :=
  .const (ends_fail.2 nofun)

theorem crash {c : Crash} : L.Comes s P fun _ => (Exec.crash c : Exec σ α) :=
  .const (ends_crash.2 nofun)

theorem orCrash (hs : L.Fine s) {r : Except Crash α} (hP : ∀ a, r = .ok a → P a) :
    L.Comes s P fun _ => (Exec.orCrash r : Exec σ α) := by
  cases r with
  | ok a => exact pure hs (hP a rfl)
  | error c => exact crash

theorem imp {P' : α → Prop} (h : L.Comes s P x) (hP : ∀ a, P a → P' a) : L.Comes s P' x :=
  Settles.imp h fun a _ ht => ⟨hP a ht.1, ht.2⟩

theorem bind {f : Nat → α → Exec σ β} (hx : L.Comes s P x)
    (hf : ∀ a t, P a → L.Fine t → L.Comes t Q fun m => f m a) :
    L.Comes s Q fun m => x m >>= f m :=
  Settles.bind hx fun a t ht => hf a t ht.1 ht.2

/-- What stands behind a failure is not run. -/
theorem fail_bind {cause : Cause} {span : Span} {f : Nat → α → Exec σ β} :
    L.Comes s Q fun m => (Exec.fail cause span : Exec σ α) >>= f m :=
  bind (P := fun _ => False) fail fun _ _ => False.elim

theorem map {f : α → β} (hx : L.Comes s P x) (hf : ∀ a, P a → Q (f a)) :
    L.Comes s Q fun m => f <$> x m := by
  simp only [map_eq_pure_bind]
  exact hx.bind fun a _ ha ht => pure ht (hf a ha)

/-- A step that looks at the state first. -/
theorem get {f : Nat → State σ → Exec σ α} (h : L.Comes s P fun m => f m s) :
    L.Comes s P fun m => get >>= f m :=
  h

theorem set {f : Nat → PUnit → Exec σ α} (h : L.Comes t P fun m => f m ⟨⟩) :
    L.Comes s P fun m => set t >>= f m :=
  h

theorem modify {f : State σ → State σ} (h : L.Fine (f s)) :
    L.Comes s (fun _ => True) fun _ => (modify f : Exec σ PUnit) :=
  .const (ends_modify.2 ⟨trivial, h⟩)

theorem make {new : Heap → Value × Heap} (hv : L.Holds (new s.heap).1)
    (h : L.Fine { s with heap := (new s.heap).2 }) :
    L.Comes s L.Holds fun _ => (Exec.make new : Exec σ Value) :=
  .const (ends_make.2 ⟨hv, h⟩)

end Comes

/-! ## Shared values -/

theorem comes_newVector (hs : L.Fine s) {items : List Value} (hi : L.Held items) :
    L.Comes s L.Holds fun _ => (Exec.make fun h => h.newVector items : Exec σ Value) := by
  obtain ⟨hv, hheap⟩ := hs.closed.guards.heap.made_vector hi
  exact .make hv (hs.of_sameNames ⟨hheap, hs.closed.guards.kept⟩ ⟨rfl, rfl, rfl, rfl, rfl⟩ rfl rfl)

theorem comes_newTable (hs : L.Fine s) {t : Table Value} (ht : L.reach.region.HeldTable t) :
    L.Comes s L.Holds fun _ => (Exec.make fun h => h.newTable t : Exec σ Value) := by
  obtain ⟨hv, hheap⟩ := hs.closed.guards.heap.made_table ht
  exact .make hv (hs.of_sameNames ⟨hheap, hs.closed.guards.kept⟩ ⟨rfl, rfl, rfl, rfl, rfl⟩ rfl rfl)

theorem comes_unpacked (hs : L.Fine s) {vs : List Value} (hvs : L.Held vs) :
    L.Comes s L.Holds fun _ => (Exec.make fun h => h.unpacked vs : Exec σ Value) := by
  match vs with
  | [] => exact .make trivial hs
  | [v] => exact .make (Region.held_cons.1 hvs).1 hs
  | v :: w :: rest =>
    obtain ⟨hv, hheap⟩ := hs.closed.guards.heap.made_tuple hvs
    refine .make hv (hs.of_sameNames ⟨hheap, hs.closed.guards.kept⟩ ?_ rfl rfl)
    exact ⟨rfl, rfl, rfl, rfl, Heap.lambdas_newTuple _ _⟩

/-- One value as several. -/
theorem held_packed (hs : L.Fine s) {v : Value} (hv : L.Holds v) : L.Held (s.heap.packed v) := by
  cases v with
  | nil => exact Region.held_nil
  | tuple a => exact hs.closed.guards.heap.tuple hv
  | _ => exact Region.held_cons.2 ⟨hv, Region.held_nil⟩

theorem comes_newLambda (hs : L.Fine s) {body : FunctionBody} (hb : body.WhileFree)
    (source : String) :
    L.Comes s L.Holds fun _ =>
      (Exec.make fun h => h.newLambda ⟨body, s.scope, source⟩ : Exec σ Value) :=
  .make (hs.closed.newLambda _ (Nat.le_refl _))
    ⟨hs.closed.made_lambda hs.closed.scope hb, hs.depth, hs.maxDepth⟩

theorem Fine.setVector (hs : L.Fine s) {a : Address} {items : List Value} (hi : L.Held items) :
    L.Fine { s with heap := s.heap.setVector a items } :=
  hs.of_sameNames ⟨hs.closed.guards.heap.set_vector hi, hs.closed.guards.kept⟩
    ⟨rfl, rfl, rfl, rfl, rfl⟩ rfl rfl

theorem Fine.setTable (hs : L.Fine s) {a : Address} {t : Table Value}
    (ht : L.reach.region.HeldTable t) : L.Fine { s with heap := s.heap.setTable a t } :=
  hs.of_sameNames ⟨hs.closed.guards.heap.set_table ht, hs.closed.guards.kept⟩
    ⟨rfl, rfl, rfl, rfl, rfl⟩ rfl rfl

/-! ## Values and containers -/

section Containers

theorem comes_shown (hs : L.Fine s) (v : Value) :
    L.Comes s (fun _ => True) fun _ => (Eval.shown v : Exec σ String) :=
  .get (.orCrash hs fun _ _ => trivial)

/-- A failure that shows a value. -/
theorem comes_shownFail (hs : L.Fine s) (v : Value) {cause : String → Cause} (span : Span) :
    L.Comes s P fun _ => (do Exec.fail (cause (← Eval.shown v)) span : Exec σ α) :=
  (comes_shown hs v).bind fun _ _ _ _ => .fail

theorem comes_operated {span : Span} {r : Except OperatorFault Value} (hs : L.Fine s)
    (hr : ∀ v, r = .ok v → L.Holds v) :
    L.Comes s L.Holds fun _ => (Eval.operated span r : Exec σ Value) := by
  obtain ⟨_ | c⟩ | v := r
  · exact .fail
  · exact .crash
  · exact .pure hs (hr v rfl)

theorem comes_tableKey (hs : L.Fine s) (key : Value) (span : Span) :
    L.Comes s L.Holds fun _ => (Eval.tableKey key span : Exec σ Value) := by
  unfold Eval.tableKey
  split
  · exact .fail
  · split
    · next hk => exact .pure hs (Region.holds_of_isKey hk)
    · exact .fail

theorem comes_vectorIndex (hs : L.Fine s) (key : Value) (span : Span) :
    L.Comes s (fun _ => True) fun _ => (Eval.vectorIndex key span : Exec σ Int) := by
  unfold Eval.vectorIndex
  split
  · split
    · exact .pure hs trivial
    · exact comes_shownFail hs _ span
  · exact comes_shownFail hs _ span

variable {host : Host σ} (hhost : host.KeepsWithin L.kept)

include hhost

/-- The field of something that only the host knows how to look into. -/
theorem comes_objectField (hs : L.Fine s) {container : Value} (hc : L.Holds container)
    (key : Value) (span : Span) :
    L.Comes s L.Holds fun _ => (match key with
      | .string name =>
        if name.startsWith "_" then Exec.fail (.privateField name) span
        else match container with
          | .object o => return host.field o name (← get)
          | .tuple a => return ((TupleMethod.ofName? name).map (.method a)).getD .nil
          | _ => return .nil
      | key => Exec.fail (.objectKey key.kind) span : Exec σ Value) := by
  split
  · next name =>
    split
    · exact .fail
    · cases container with
      | object o => exact .get (.pure hs (hhost.field _ _ o name s hs.closed))
      | tuple a =>
        refine .pure hs ?_
        cases TupleMethod.ofName? name with
        | none => trivial
        | some m => exact hc
      | _ => exact .pure hs trivial
  · exact .fail

theorem comes_index (hs : L.Fine s) {container : Value} (hc : L.Holds container) (key : Value)
    (span : Span) : L.Comes s L.Holds fun _ => Eval.index host container key span := by
  cases container with
  | nil => exact comes_shownFail hs key span
  | table a =>
    have hget : L.Comes s L.Holds fun _ => (do
        let key ← Eval.tableKey key span
        return (((← get).heap.table a).get? key).getD .nil : Exec σ Value) :=
      (comes_tableKey hs key span).bind fun k t _ ht =>
        .get (.pure ht ((ht.closed.guards.heap.table hc).get k))
    cases key with
    | nil => exact .pure hs trivial
    | _ => exact hget
  | vector a =>
    refine (comes_vectorIndex hs key span).bind fun i t _ ht => ?_
    split
    · exact .get (.pure ht ((ht.closed.guards.heap.vector hc).getD _))
    · exact .pure ht trivial
  | string _ | bool _ | number _ => exact .fail
  | tuple _ | lambda _ | command _ | object _ | method _ _ =>
    exact comes_objectField hhost hs hc key span

omit hhost in
theorem comes_setIndex (hs : L.Fine s) {container value : Value} (hc : L.Holds container)
    (hv : L.Holds value) (key : Value) (span : Span) :
    L.Comes s (fun _ => True) fun _ => (Eval.setIndex container key value span : Exec σ Unit) := by
  cases container with
  | nil => exact comes_shownFail hs key span
  | table a =>
    refine (comes_tableKey hs key span).bind fun k t hk ht => ?_
    refine .modify (ht.setTable ?_)
    split
    · exact (ht.closed.guards.heap.table hc).erase k
    · exact (ht.closed.guards.heap.table hc).insert hk hv
  | vector a =>
    refine (comes_vectorIndex hs key span).bind fun i t _ ht => .get ?_
    have hitems := ht.closed.guards.heap.vector hc
    dsimp only
    split
    · exact .modify (ht.setVector (hitems.set _ hv))
    · split
      · refine .modify (ht.setVector (hitems.append ?_))
        exact Region.held_cons.2 ⟨hv, Region.held_nil⟩
      · split
        · exact .fail
        · exact .crash
  | _ => exact .fail

end Containers

/-! ## What stands in a tree -/

section Trees

variable (L) (host : Host σ) (source : String)

/-- An expression has a value. -/
def Evaluates (e : Expression) : Prop :=
  ∀ s, L.Fine s → L.Comes s L.Holds fun m => Eval.run host m source (.value e)

/-- The name that a variable chain begins with can be made out. -/
def HasName (r : VarRoot) : Prop :=
  ∀ s, L.Fine s → L.Comes s (fun _ => True) fun m => Eval.rootName (Eval.run host m) source r

/-- The key of a step of a variable chain can be made out. -/
def HasKey (x : VarSuffix) : Prop :=
  ∀ s, L.Fine s → L.Comes s L.Holds fun m => Eval.suffixKey (Eval.run host m) source x

/-- The key and the value of a table field can be made out. -/
def HasEntry (f : TableField) : Prop :=
  (∀ s position, L.Fine s →
    L.Comes s L.Holds fun m => Eval.fieldKey (Eval.run host m) source position f) ∧
  ∀ e, f.value = some e → L.Evaluates host source e

/-- Lambdas can be called. -/
def Calls : Prop :=
  ∀ source s a arguments loop, L.Fine s → L.reach.region.lambda a → L.Held arguments →
    L.Comes s L.Held fun m => Eval.run host m source (.call a arguments loop)

/-- The host keeps within reach and answers at once, and lambdas can be called. -/
structure Hosted : Prop where
  keeps : host.KeepsWithin L.kept
  answers : host.AnswersAtOnce
  calls : L.Calls host

/-- A block can be run in the current scope. -/
def Runs (b : Block) : Prop :=
  ∀ s, L.Fine s → L.Comes s (fun _ => True) fun m => Eval.run host m source (.body b)

variable {L} {host} {source}

/-- A task settles, if its rule does. -/
theorem Comes.rule {task : Task σ} {P : task.Result → Prop}
    (h : L.Comes s P fun m => Eval.rule host m (Eval.run host m) source task) :
    L.Comes s P fun m => Eval.run host m source task :=
  Settles.of_succ h

theorem comes_required {e : Option Expression} (h : ∀ x, e = some x → L.Evaluates host source x)
    (hs : L.Fine s) (span : Span) :
    L.Comes s L.Holds fun m => Eval.required (Eval.run host m) source e span := by
  cases e with
  | none => exact .fail
  | some e => exact h e rfl s hs

theorem comes_itemValues {is : Separated Expression}
    (h : ∀ i ∈ is, ∀ x, i.value = some x → L.Evaluates host source x) (hs : L.Fine s) :
    L.Comes s L.Held fun m => Eval.itemValues (Eval.run host m) source is := by
  induction is generalizing s with
  | nil => exact .pure hs Region.held_nil
  | cons i rest ih =>
    obtain ⟨hi, hrest⟩ := List.forall_mem_cons.1 h
    refine (comes_required hi hs i.span).bind fun v t hv ht => ?_
    exact (ih hrest ht).bind fun vs u hvs hu => .pure hu (Region.held_cons.2 ⟨hv, hvs⟩)

theorem comes_argumentValues {es : List Expression} (h : ∀ e ∈ es, L.Evaluates host source e)
    (hs : L.Fine s) :
    L.Comes s L.Held fun m => Eval.argumentValues (Eval.run host m) source es := by
  induction es generalizing s with
  | nil => exact .pure hs Region.held_nil
  | cons e rest ih =>
    obtain ⟨he, hrest⟩ := List.forall_mem_cons.1 h
    unfold Eval.argumentValues
    split
    · exact ih hrest hs
    · refine (he s hs).bind fun v t hv ht => ?_
      exact (ih hrest ht).bind fun vs u hvs hu => .pure hu (Region.held_cons.2 ⟨hv, hvs⟩)

theorem comes_fieldEntries {fs : Separated TableField}
    (h : ∀ i ∈ fs, ∀ f, i.value = some f → L.HasEntry host source f) (hs : L.Fine s)
    {position : Int} {t : Table Value} (ht : L.reach.region.HeldTable t) :
    L.Comes s L.reach.region.HeldTable fun m =>
      Eval.fieldEntries (Eval.run host m) source position t fs := by
  induction fs generalizing s position t with
  | nil => exact .pure hs ht
  | cons i rest ih =>
    obtain ⟨hi, hrest⟩ := List.forall_mem_cons.1 h
    obtain ⟨_ | f, separator, span⟩ := i
    · exact ih hrest hs ht
    · obtain ⟨hkey, hvalue⟩ := hi f rfl
      refine (hkey s position hs).bind fun key u hk hu => ?_
      refine (comes_required hvalue hu f.span).bind fun v w hv hw => ?_
      split
      · exact ih hrest hw ht
      · exact ih hrest hw (ht.insert hk hv)

theorem comes_binary {l : Expression} {r : Option Expression} (hl : L.Evaluates host source l)
    (hr : ∀ x, r = some x → L.Evaluates host source x) (hs : L.Fine s) (o : Token) (span : Span) :
    L.Comes s L.Holds fun m => Eval.binary (Eval.run host m) source l o r span := by
  refine (hl s hs).bind fun v t hv ht => ?_
  have hright := comes_required hr ht span
  split
  · split
    · exact hright
    · exact .pure ht hv
  · split
    · exact .pure ht hv
    · exact hright
  · exact hright.bind fun w u _ hu => .get (comes_operated hu fun _ => Region.holds_binary)

/-! ### Variables -/

theorem comes_rootValue {r : VarRoot} (h : L.HasName host source r) (hs : L.Fine s) :
    L.Comes s L.Holds fun m => Eval.rootValue (Eval.run host m) source r := by
  have hlocal : ∀ t, L.Fine t → L.Comes t L.Holds fun m => (do
      let name ← Eval.rootName (Eval.run host m) source r
      return (← get).frames.get (← get).scope name) := fun t ht =>
    (h t ht).bind fun name u _ hu => .get (.get (.pure hu (hu.closed.holds_get name)))
  cases r with
  | bare t =>
    refine .get ?_
    cases hv : s.globals.get? t.text with
    | some v => exact .pure hs (hs.closed.globals t.text v hv)
    | none => exact hlocal s hs
  | named _ _ _ | computed _ _ _ _ => exact hlocal s hs

variable (hhost : host.KeepsWithin L.kept)

include hhost

theorem comes_followSuffixes {xs : List VarSuffix} (h : ∀ x ∈ xs, L.HasKey host source x)
    {v : Value} (hs : L.Fine s) (hv : L.Holds v) :
    L.Comes s L.Holds fun m => Eval.followSuffixes host (Eval.run host m) source xs v := by
  induction xs generalizing v s with
  | nil => exact .pure hs hv
  | cons x rest ih =>
    obtain ⟨hx, hrest⟩ := List.forall_mem_cons.1 h
    refine (hx s hs).bind fun key t _ ht => ?_
    exact (comes_index hhost ht hv key x.span).bind fun w u hw hu => ih hrest hu hw

theorem comes_varValue {v : Var} (hroot : L.HasName host source v.root)
    (hkeys : ∀ x ∈ v.suffixes, L.HasKey host source x) (hs : L.Fine s) :
    L.Comes s L.Holds fun m => Eval.varValue host (Eval.run host m) source v :=
  (comes_rootValue hroot hs).bind fun _ _ hw ht => comes_followSuffixes hhost hkeys ht hw

theorem comes_assign {target : Var} (hroot : L.HasName host source target.root)
    (hkeys : ∀ x ∈ target.suffixes, L.HasKey host source x) {value : Value} (hs : L.Fine s)
    (hv : L.Holds value) :
    L.Comes s (fun _ => True) fun m =>
      Eval.assign host (Eval.run host m) source target value := by
  unfold Eval.assign
  cases hlast : target.suffixes.getLast? with
  | none =>
    refine (hroot s hs).bind fun name t _ ht => .modify ?_
    exact ⟨ht.closed.assign name hv, ht.depth, ht.maxDepth⟩
  | some last =>
    have hmem : last ∈ target.suffixes := List.mem_of_getLast? hlast
    refine (comes_rootValue hroot hs).bind fun w t hw ht => ?_
    refine (comes_followSuffixes hhost (fun x hx => hkeys x (List.dropLast_subset _ hx)) ht
      hw).bind fun c u hc hu => ?_
    exact (hkeys last hmem u hu).bind fun key z _ hz => comes_setIndex hz hc hv key last.span

/-! ### Commands -/

theorem comes_calleeValue {v : Var} (hroot : L.HasName host source v.root)
    (hkeys : ∀ x ∈ v.suffixes, L.HasKey host source x) (hs : L.Fine s) :
    L.Comes s L.Holds fun m => Eval.calleeValue host (Eval.run host m) source v := by
  refine .get ?_
  split
  · split
    · exact comes_varValue hhost hroot hkeys hs
    · exact .fail
  · exact comes_varValue hhost hroot hkeys hs

omit hhost

variable (hL : L.Hosted host)

include hL

/-- A command of the host answers at once, and a lambda is called on the level. -/
theorem comes_callForHost {f : Value} {arguments : List Value} (hs : L.Fine s) (hf : L.Holds f)
    (harg : L.Held arguments) :
    L.Comes s L.Holds fun m => Eval.callForHost host (Eval.run host m) source f arguments := by
  cases f with
  | lambda a =>
    refine .get ((hL.calls _ s a arguments false hs hf harg).bind fun vs t hvs ht => ?_)
    exact comes_unpacked ht hvs
  | command name =>
    refine .get (.rule ?_)
    have hfollows := hL.keeps.command L.reach _ name arguments s hs.closed harg
    have hanswer := hL.answers name arguments s
    change L.Comes s L.Holds fun m => (host.command name arguments s).follow _
    cases hr : host.command name arguments s with
    | value v t =>
      rw [hr] at hfollows hanswer
      unfold Reply.follow
      cases hfollows with
      | value ht _ hv =>
        have hfine : L.Fine t := ⟨ht, hanswer.1.trans hs.depth, hanswer.2.trans hs.maxDepth⟩
        exact .set (.pure hfine hv)
    | crash c t =>
      unfold Reply.follow
      exact .set .crash
    | call =>
      rw [hr] at hanswer
      exact hanswer.elim
  | method a m => exact .get (.orCrash hs fun v hv => Region.holds_answer hv)
  | _ => exact .crash

omit hL in
/-- Where a call stops for another reason than its budget, that is seen to at once; the
value it gives stands for several. -/
theorem comes_packed {x : Nat → Exec σ Value} {handle : Stop → Exec σ Value}
    (hx : L.Comes s L.Holds x) (hhandle : ∀ e t, e ≠ .exhausted → (handle e).Ends t
      (fun v u => L.Holds v ∧ L.Fine u) fun e _ => e ≠ .exhausted) :
    L.Comes s L.Held fun m => (do
      let result ← tryCatch (x m) handle
      return (← get).heap.packed result) :=
  Comes.bind (Settles.tryCatch hx hhandle) fun _ _ hv ht => .get (.pure ht (held_packed ht hv))

theorem comes_invoke {callee : Value} {arguments : List Value} (hs : L.Fine s)
    (hc : L.Holds callee) (harg : L.Held arguments) (name : String) (span : Span) :
    L.Comes s L.Held fun m =>
      Eval.invoke host (Eval.run host m) source callee arguments name span := by
  have hcalling : ∀ {t : State σ} (calls : List TraceEntry), L.Fine t → L.Fine { t with calls } :=
    fun _ ht => ht.of_sameNames ⟨ht.closed.guards.heap, ht.closed.guards.kept⟩
      ⟨rfl, rfl, rfl, rfl, rfl⟩ rfl rfl
  -- The call is open while it runs, whatever is called.
  have hopen : ∀ {entry : TraceEntry} {x : Nat → Exec σ (List Value)},
      L.Comes { s with calls := entry :: s.calls } L.Held x →
      L.Comes s L.Held fun m => (do
        modify fun s => { s with calls := entry :: s.calls }
        finishing (x m) fun s => { s with calls := s.calls.tail }) := fun h =>
    Settles.modify (.finishing (Settles.imp h fun _ _ ht => ⟨ht.1, hcalling _ ht.2⟩))
  have hhere := fun entry => hcalling (entry :: s.calls) hs
  cases callee with
  | lambda a => exact hopen (hL.calls _ _ a arguments false (hhere _) hc harg)
  | _ =>
    refine hopen (comes_packed (comes_callForHost hL (hhere _) hc harg) fun e t he => ?_)
    cases e with
    | crashed c => exact ends_fail.2 nofun
    | failed f => exact ends_throw.2 nofun
    | exhausted => exact absurd rfl he

theorem comes_command {callee : Var} {arguments : List Expression} {span : Span}
    (hroot : L.HasName host source callee.root)
    (hkeys : ∀ x ∈ callee.suffixes, L.HasKey host source x)
    (harguments : ∀ e ∈ arguments, L.Evaluates host source e) (hs : L.Fine s) :
    L.Comes s L.Held fun m =>
      Eval.command host (Eval.run host m) source (.mk callee arguments span) := by
  refine (comes_calleeValue hL.keeps hroot hkeys hs).bind fun f t hf ht => ?_
  refine (comes_argumentValues harguments ht).bind fun vs u hvs hu => ?_
  split
  · exact comes_invoke hL hu hf hvs _ _
  · split
    · exact .pure hu (Region.held_cons.2 ⟨hf, Region.held_nil⟩)
    · exact .fail

omit hL

/-! ### Statements and blocks -/

variable (L) (host) (source) in
/-- A statement can be run. -/
def Executes (st : Statement) : Prop :=
  ∀ s, L.Fine s →
    L.Comes s (fun _ => True) fun m => Eval.statement host m (Eval.run host m) source st

variable (L) (host) (source) in
/-- The condition of a branch can be looked at, and its block can be run. -/
def Branches (b : Branch) : Prop :=
  (∀ c, b.condition = some c → ∀ e, c.inner = some e → L.Evaluates host source e) ∧
    ∀ braced, b.block = some braced → L.Runs host source braced.block

/-- Something else on its way, or nothing. -/
theorem Fine.withPending (hs : L.Fine s) (pending : Option Pending)
    (h : ∀ p, pending = some p → L.Held p.values) : L.Fine { s with pending } :=
  ⟨hs.closed.withPending pending h, hs.depth, hs.maxDepth⟩

theorem comes_goesOn (hs : L.Fine s) :
    L.Comes s (fun _ => True) fun _ => (Eval.goesOn : Exec σ Bool) := by
  have hclear : L.Fine { s with pending := none } := hs.withPending none fun _ hp => nomatch hp
  refine .get ?_
  split
  · exact .pure hs trivial
  · split
    · exact (Comes.modify hclear).bind fun _ _ _ ht => .pure ht trivial
    · exact (Comes.modify hclear).bind fun _ _ _ ht => .pure ht trivial
    · exact .pure hs trivial

theorem comes_block {b : Block} (h : L.Runs host source b) (hs : L.Fine s) :
    L.Comes s (fun _ => True) fun m => Eval.block (Eval.run host m) source b := by
  have henter := hs.closed.enter false s.depth hs.closed.scope Region.heldNames_empty
  rw [Frames.setVars_child] at henter
  refine .get (.set (Settles.within (Settles.imp (h _ ⟨henter, hs.depth, hs.maxDepth⟩) ?_)))
  exact fun _ t ht => ⟨trivial, hs.closed.back ht.2.closed t.depth, ht.2.depth, ht.2.maxDepth⟩

theorem comes_branches {bs : List Branch} (h : ∀ b ∈ bs, L.Branches host source b)
    {otherwise : Nat → Exec σ Unit}
    (hotherwise : ∀ t, L.Fine t → L.Comes t (fun _ => True) otherwise) (hs : L.Fine s) :
    L.Comes s (fun _ => True) fun m =>
      Eval.branches (Eval.run host m) source (otherwise m) bs := by
  induction bs generalizing s with
  | nil => exact hotherwise s hs
  | cons b rest ih =>
    obtain ⟨⟨hcondition, hblock⟩, hrest⟩ := List.forall_mem_cons.1 h
    obtain ⟨_ | c, braced, span⟩ := b
    · exact .fail
    refine (comes_required (hcondition c rfl) hs c.span).bind fun v t _ ht => ?_
    split
    · cases braced with
      | none => exact .fail
      | some braced => exact comes_block (hblock braced rfl) ht
    · exact ih hrest ht

/-- The rounds of a `for` are as many as its subject held when it began. -/
theorem comes_forLoop (hL : L.Hosted host) {subject : Value} {a : Address} (hs : L.Fine s)
    (hv : L.Holds subject) (ha : L.reach.region.lambda a) (span : Span) :
    L.Comes s (fun _ => True) fun m => Eval.forLoop (Eval.run host m) source subject span a := by
  have hround : ∀ arguments t, L.Held arguments → L.Fine t →
      Settles (fun m => (do
        let _ ← Eval.run host m source (.call a arguments true)
        Eval.goesOn)) t fun _ => L.Fine := fun arguments t harg ht =>
    Settles.imp ((hL.calls _ t a arguments true ht ha harg).bind fun _ _ _ hu => comes_goesOn hu)
      fun _ _ hu => hu.2
  cases subject with
  | vector b =>
    refine .get ((Settles.forEach (fun arguments hmem t ht => hround arguments t ?_ ht) hs).imp
      fun _ _ ht => ⟨trivial, ht⟩)
    obtain ⟨i, hi, rfl⟩ := List.mem_mapIdx.1 hmem
    exact Region.held_cons.2 ⟨hs.closed.guards.heap.vector hv _ (List.getElem_mem hi),
      Region.held_cons.2 ⟨trivial, Region.held_nil⟩⟩
  | table b =>
    refine .get ((Settles.forEach (fun arguments hmem t ht => hround arguments t ?_ ht) hs).imp
      fun _ _ ht => ⟨trivial, ht⟩)
    obtain ⟨e, he, rfl⟩ := List.mem_map.1 hmem
    obtain ⟨hkey, hvalue⟩ := hs.closed.guards.heap.table hv e he
    exact Region.held_cons.2 ⟨hvalue, Region.held_cons.2 ⟨hkey, Region.held_nil⟩⟩
  | number n =>
    unfold Eval.forLoop
    dsimp only
    split
    · exact .crash
    · split
      · exact comes_shownFail hs _ span
      · refine (Settles.forCount (fun i t ht => hround [.int i] t ?_ ht) hs).imp
          fun _ _ ht => ⟨trivial, ht⟩
        exact Region.held_cons.2 ⟨trivial, Region.held_nil⟩
  | _ => exact .fail

theorem comes_leave {l : LastStatement}
    (h : ∀ token vs span, l = .return token vs span →
      ∀ i ∈ vs, ∀ x, i.value = some x → L.Evaluates host source x) (hs : L.Fine s) :
    L.Comes s (fun _ => True) fun m => Eval.leave (Eval.run host m) source l := by
  have hpend : ∀ {vs t}, L.Held vs → L.Fine t → L.Comes t (fun _ => True) fun _ =>
      (modify fun s => { s with pending := some ⟨s.scope, l, vs⟩ } : Exec σ PUnit) :=
    fun hvs ht => .modify (ht.withPending _ fun _ hp => Option.some.inj hp ▸ hvs)
  cases l with
  | «return» token vs span =>
    exact (comes_itemValues (h token vs span rfl) hs).bind fun _ _ hvs ht => hpend hvs ht
  | «break» token | «continue» token => exact hpend Region.held_nil hs

theorem comes_statements {ss : List Statement} {last : Option LastStatement}
    (h : ∀ st ∈ ss, L.Executes host source st)
    (hlast : ∀ token vs span, last = some (.return token vs span) →
      ∀ i ∈ vs, ∀ x, i.value = some x → L.Evaluates host source x)
    (hs : L.Fine s) (result : Option (List Value)) :
    L.Comes s (fun _ => True) fun m =>
      Eval.statements host m (Eval.run host m) source last result ss := by
  induction ss generalizing s result with
  | nil =>
    unfold Eval.statements
    cases last with
    | none => exact .pure hs trivial
    | some l =>
      have hleave := comes_leave (fun token vs span hl => hlast token vs span (hl ▸ rfl)) hs
      exact Comes.bind hleave fun _ _ _ ht => .pure ht trivial
  | cons st rest ih =>
    obtain ⟨hst, hrest⟩ := List.forall_mem_cons.1 h
    refine (hst s hs).bind fun values t _ ht => .get ?_
    split
    · exact .pure ht trivial
    · exact ih hrest ht values

variable (L) (host) (source) in
/-- The statements of a block can be run. -/
def Listed (b : Block) : Prop :=
  ∀ s, L.Fine s → L.Comes s (fun _ => True) fun m =>
    Eval.statements host m (Eval.run host m) source b.last none b.body

theorem Listed.runs {b : Block} (h : L.Listed host source b) : L.Runs host source b :=
  fun s hs => .rule ((h s hs).bind fun _ _ _ ht => .pure ht trivial)

end Trees

end Level

end CommandScript
