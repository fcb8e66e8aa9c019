import CommandScript.Proofs.Whole
import CommandScript.Proofs.Unknown
/-!
# CommandScript — a text without issues runs without meeting a gap

A run fails for a missing part only where it comes to one. In a text without issues none
is missing, so the run would have to come to a lambda of another text. Whatever such a
run can reach is a set of shared values and frames that nothing leads out of
(`Reach.Closed`), and as long as all lambdas in it lack nothing, the new ones do not
either.

Of the host nothing is asked but that it hands over and puts into place what can be
reached. It may set globals and variables and make shared values.
-/

namespace CommandScript

open Outline

variable {σ : Type}

/-- A body of a lambda in which nothing is missing, whatever names are known. -/
def FunctionBody.LacksNothing (b : FunctionBody) : Prop :=
  ∃ known, NoneMissing (Faults.body known b)

/-- Shared values and frames. -/
structure Reach where
  region : Region
  frame : FrameId → Prop

/-- Nothing leads out of the reach, and all lambdas in it have bodies with `P`. What is
still to be made is in reach. -/
structure Reach.Closed (r : Reach) (P : FunctionBody → Prop) (kept : σ → Value → Prop)
    (s : State σ) : Prop where
  guards : r.region.Guards kept s
  globals : r.region.HeldNames s.globals
  pending : ∀ p, s.pending = some p → r.region.Held p.values
  scope : r.frame s.scope
  vars : ∀ f, r.frame f → r.region.HeldNames (s.frames.vars f)
  up : ∀ f, r.frame f → ∀ above, (s.frames.frame f).up = some above → r.frame above
  newFrame : ∀ f, s.frames.all.size ≤ f → r.frame f
  newLambda : ∀ a, s.heap.lambdas.size ≤ a → r.region.lambda a
  lambdas : ∀ a c, r.region.lambda a → s.heap.lambdas[a]? = some c → r.frame c.frame ∧ P c.body

/-- All lambdas that can be reached lack nothing. -/
def State.LambdasLackNothing (kept : σ → Value → Prop) (s : State σ) : Prop :=
  ∃ r : Reach, r.Closed FunctionBody.LacksNothing kept s

/-- The host hands over and puts into place nothing but what can be reached. -/
structure Host.KeepsWithin (host : Host σ) (kept : σ → Value → Prop) : Prop where
  command : ∀ (r : Reach) (P : FunctionBody → Prop) name arguments (s : State σ),
    r.Closed P kept s → r.region.Held arguments →
    (host.command name arguments s).Follows (r.Closed P kept) (fun _ _ => True) r.region.Holds s
  field : ∀ (r : Reach) (P : FunctionBody → Prop) object name (s : State σ),
    r.Closed P kept s → r.region.Holds (host.field object name s)

namespace Reach.Closed

variable {r : Reach} {P : FunctionBody → Prop} {kept : σ → Value → Prop} {s t : State σ}

/-- Another heap with the same lambdas, and another host. -/
theorem of_sameNames (hs : r.Closed P kept s) (ht : r.region.Guards kept t) (h : s.SameNames t) :
    r.Closed P kept t := by
  obtain ⟨hglobals, hframes, hscope, hpending, hlambdas⟩ := h
  constructor
  case guards => exact ht
  all_goals simp only [hglobals, hframes, hscope, hpending, hlambdas]
  case globals => exact hs.globals
  case pending => exact hs.pending
  case scope => exact hs.scope
  case vars => exact hs.vars
  case up => exact hs.up
  case newFrame => exact hs.newFrame
  case newLambda => exact hs.newLambda
  case lambdas => exact hs.lambdas

/-- Frames that grew, and another scope. -/
theorem withFrames (hs : r.Closed P kept s) {fs : Frames} {scope : FrameId} (depth : Nat)
    (hgrows : s.frames.Grows fs) (hscope : r.frame scope)
    (hvars : ∀ f, r.frame f → r.region.HeldNames (fs.vars f))
    (hup : ∀ f, r.frame f → ∀ above, (fs.frame f).up = some above → r.frame above) :
    r.Closed P kept { s with frames := fs, scope, depth } where
  guards := ⟨hs.guards.heap, hs.guards.kept⟩
  globals := hs.globals
  pending := hs.pending
  scope := hscope
  vars := hvars
  up := hup
  newFrame f hf := hs.newFrame f (Nat.le_trans hgrows.size hf)
  newLambda := hs.newLambda
  lambdas := hs.lambdas

/-- Back in a scope from before. -/
theorem back (hs : r.Closed P kept s) (ht : r.Closed P kept t) (depth : Nat) :
    r.Closed P kept { t with scope := s.scope, depth } :=
  ht.withFrames depth (.refl _) hs.scope ht.vars ht.up

theorem holds_get (hs : r.Closed P kept s) (name : String) :
    r.region.Holds (s.frames.get s.scope name) := by
  unfold Frames.get
  cases ho : s.frames.owner? s.scope name with
  | none => trivial
  | some f =>
    have hf : r.frame f := Frames.forall_mem_chain hs.up hs.scope f (List.mem_of_find?_eq_some ho)
    cases hv : (s.frames.vars f).get? name with
    | none => simp [hv, Region.Holds]
    | some v => simpa [hv] using hs.vars f hf name v hv

/-- Assigning to a variable in sight, or making a new one. -/
theorem assign (hs : r.Closed P kept s) (name : String) {v : Value} (hv : r.region.Holds v) :
    r.Closed P kept { s with frames := s.frames.assign s.scope name v } := by
  have hframe : ∀ f, ∃ vars, (s.frames.assign s.scope name v).frame f =
      { s.frames.frame f with vars } ∧
        (vars = s.frames.vars f ∨ vars = (s.frames.vars f).insert name v) := by
    intro f
    unfold Frames.assign Frames.set
    rw [Frames.frame_setVars]
    split
    · next hf => exact ⟨_, rfl, .inr (by rw [hf.1])⟩
    · exact ⟨_, rfl, .inl rfl⟩
  refine hs.withFrames s.depth (Frames.grows_assign s.frames s.scope name v) hs.scope
    (fun f hf => ?_) fun f hf above habove => ?_
  · obtain ⟨vars, h, hvars⟩ := hframe f
    rw [Frames.vars, h]
    obtain rfl | rfl := hvars
    · exact hs.vars f hf
    · exact (hs.vars f hf).insert name hv
  · obtain ⟨vars, h, -⟩ := hframe f
    rw [h] at habove
    exact hs.up f hf above habove

/-- A new scope, with variables of its own, below a frame that can be reached. -/
theorem enter (hs : r.Closed P kept s) {outer : FrameId} (root : Bool) (depth : Nat)
    (houter : r.frame outer) {vars : Names Value} (hvars : r.region.HeldNames vars) :
    r.Closed P kept { s with
      frames := (s.frames.child outer root).2.setVars (s.frames.child outer root).1 vars
      scope := (s.frames.child outer root).1, depth } := by
  have hframe : ∀ f, ((s.frames.child outer root).2.setVars
      (s.frames.child outer root).1 vars).frame f =
      if f = s.frames.all.size then { vars, up := some outer, root } else s.frames.frame f := by
    intro f
    rw [Frames.frame_setVars, Frames.frame_child]
    by_cases hf : f = s.frames.all.size <;> simp [hf, Frames.child]
  refine hs.withFrames depth ((s.frames.grows_child outer root).trans
    (s.frames.grows_setVars_child outer root vars)) (hs.newFrame _ (Nat.le_refl _))
    (fun f hf => ?_) fun f hf above habove => ?_
  · unfold Frames.vars
    rw [hframe]
    split
    · exact hvars
    · exact hs.vars f hf
  · rw [hframe] at habove
    split at habove
    · cases habove
      exact houter
    · exact hs.up f hf above habove

/-- A new lambda whose body is as it should be. -/
theorem made_lambda (hs : r.Closed P kept s) {c : Closure} (hframe : r.frame c.frame)
    (hc : P c.body) : r.Closed P kept { s with heap := (s.heap.newLambda c).2 } where
  guards := ⟨⟨hs.guards.heap.vector, hs.guards.heap.table, hs.guards.heap.tuple,
    hs.guards.heap.newVector, hs.guards.heap.newTable, hs.guards.heap.emptyTuple⟩, hs.guards.kept⟩
  globals := hs.globals
  pending := hs.pending
  scope := hs.scope
  vars := hs.vars
  up := hs.up
  newFrame := hs.newFrame
  newLambda a ha := by
    simp only [Heap.newLambda, Array.size_push] at ha
    exact hs.newLambda a (by omega)
  lambdas a d ha hd := by
    simp only [Heap.newLambda, Array.getElem?_push] at hd
    split at hd
    · cases hd
      exact ⟨hframe, hc⟩
    · exact hs.lambdas a d ha hd

/-- Something else on its way, or nothing. -/
theorem withPending (hs : r.Closed P kept s) (pending : Option Pending)
    (h : ∀ p, pending = some p → r.region.Held p.values) : r.Closed P kept { s with pending } :=
  ⟨⟨hs.guards.heap, hs.guards.kept⟩, hs.globals, h, hs.scope, hs.vars, hs.up, hs.newFrame,
    hs.newLambda, hs.lambdas⟩

/-- Behind a failure nothing is left on its way. -/
theorem settled (hs : r.Closed P kept s) : r.Closed P kept s.settled := by
  have hnone := hs.withPending none fun p hp => by cases hp
  exact hnone.of_sameNames ⟨hnone.guards.heap, hnone.guards.kept⟩ ⟨rfl, rfl, rfl, rfl, rfl⟩

end Reach.Closed

/-- Where no lambda is in reach, all lambdas in reach are as they should be, whatever that
is. -/
theorem State.LambdaFree.exists_closed {kept : σ → Value → Prop} {s : State σ}
    (hs : s.LambdaFree kept) (P : FunctionBody → Prop) : ∃ r : Reach, r.Closed P kept s := by
  refine ⟨⟨s.heap.free, fun f => s.frames.Above s.scope f ∨ s.frames.all.size ≤ f⟩, ?_⟩
  constructor
  case guards => exact ⟨s.heap.encloses_free, fun hv => (hs.kept _ hv).holds⟩
  case globals => exact fun name v hv => (hs.globals name v hv).holds
  case pending => exact fun p hp v hv => (hs.pending p hp v hv).holds
  case scope => exact .inl .here
  case newFrame => exact fun f hf => .inr hf
  case newLambda => exact fun a ha => ha
  case vars =>
    rintro f (hf | hf) name v hv
    · exact (hs.vars f hf name v hv).holds
    · rw [Frames.vars, Frames.frame_of_size_le hf] at hv
      cases hv
  case up =>
    rintro f (hf | hf) above habove
    · exact .inl (hf.up habove)
    · rw [Frames.frame_of_size_le hf] at habove
      cases habove
  case lambdas =>
    intro a c ha hc
    rw [Array.getElem?_eq_none ha] at hc
    cases hc

theorem State.LambdaFree.lambdasLackNothing {kept : σ → Value → Prop} {s : State σ}
    (hs : s.LambdaFree kept) : s.LambdasLackNothing kept :=
  hs.exists_closed _

/-- A confined host keeps within any reach: it leaves names and lambdas alone. -/
theorem Host.Confined.keepsWithin {host : Host σ} {kept : σ → Value → Prop}
    (h : host.Confined kept) : host.KeepsWithin kept where
  command r _ name arguments s hs harg :=
    (h.command r.region name arguments s hs.guards harg).mono (fun _ ht => ht.guards)
      (fun _ _ ht hu hsame => ⟨ht.of_sameNames hu hsame, trivial⟩) hs
  field r _ object name s hs := h.field r.region object name s hs.guards

/-! ## The discipline -/

theorem Cause.isOfTree_of_isSyntax {cause : Cause} (h : cause.isSyntax = true) :
    cause.isOfTree = true := by
  cases cause <;> first | rfl | cases h

/-- No lambda that lacks something comes into reach, and no run fails for a missing
part. -/
def meetingNoGap (r : Reach) (kept : σ → Value → Prop) : Discipline σ where
  region := r.region
  Fine := r.Closed FunctionBody.LacksNothing kept
  Loose := r.Closed FunctionBody.LacksNothing kept
  Stops e s := r.Closed FunctionBody.LacksNothing kept s ∧
    ∀ f, e = .failed f → f.cause.isSyntax = false
  Rel _ _ := True
  Sees _ _ := True
  Allows x := x.cause.isSyntax = false

section Discipline

variable {r : Reach} {kept : σ → Value → Prop}

theorem respects_of_closed {s : State σ} {b : Bracket σ}
    (henter : r.Closed FunctionBody.LacksNothing kept (b.enter s))
    (hleave : ∀ t, r.Closed FunctionBody.LacksNothing kept t →
      r.Closed FunctionBody.LacksNothing kept (b.leave s t)) :
    (meetingNoGap r kept).Respects s b :=
  ⟨henter, fun _ ht => hleave _ ht, fun _ ht => hleave _ ht,
    fun _ he => ⟨hleave _ he.1, he.2⟩, fun _ => trivial⟩

theorem meetingNoGap_laws {host : Host σ} (hhost : host.KeepsWithin kept) :
    (meetingNoGap r kept).Laws host where
  rel_refl _ := trivial
  rel_trans _ _ := trivial
  drift_of_rel := id
  drift_trans _ _ := trivial
  sees_of_drift _ _ := trivial
  loose_of_fine := id
  fine_of_loose hs _ := hs
  fine_of_crashed h := h.1
  failed {_ cause _} hs h := by
    refine ⟨hs, fun f hf => ?_⟩
    cases hf
    cases hsyntax : cause.isSyntax with
    | false => rfl
    | true => exact absurd (h (Cause.isOfTree_of_isSyntax hsyntax)) (by simp [meetingNoGap, hsyntax])
  crashed hs _ := ⟨hs, fun _ h => by cases h⟩
  exhausted hs := ⟨hs, fun _ h => by cases h⟩
  unseen _ _ _ := rfl
  globals hs := hs.globals
  get name hs := hs.holds_get name
  vector hs := hs.guards.heap.vector
  table hs := hs.guards.heap.table
  tuple hs := hs.guards.heap.tuple
  field object name hs := hhost.field r _ object name _ hs
  pending hs hp := hs.pending _ hp
  newVector hs hi := by
    obtain ⟨hv, hheap⟩ := hs.guards.heap.made_vector hi
    exact ⟨hv, hs.of_sameNames ⟨hheap, hs.guards.kept⟩ ⟨rfl, rfl, rfl, rfl, rfl⟩, trivial⟩
  newTable hs ht _ := by
    obtain ⟨hv, hheap⟩ := hs.guards.heap.made_table ht
    exact ⟨hv, hs.of_sameNames ⟨hheap, hs.guards.kept⟩ ⟨rfl, rfl, rfl, rfl, rfl⟩, trivial⟩
  newTuple hs hi := by
    obtain ⟨hv, hheap⟩ := hs.guards.heap.made_tuple hi
    exact ⟨hv, hs.of_sameNames ⟨hheap, hs.guards.kept⟩
      ⟨rfl, rfl, rfl, rfl, Heap.lambdas_newTuple _ _⟩, trivial⟩
  newLambda hs _ hfaults :=
    ⟨hs.newLambda _ (Nat.le_refl _), hs.made_lambda hs.scope ⟨_, hfaults⟩, trivial⟩
  setVector hs _ hi := ⟨hs.of_sameNames ⟨hs.guards.heap.set_vector hi, hs.guards.kept⟩
    ⟨rfl, rfl, rfl, rfl, rfl⟩, trivial⟩
  setTable hs _ ht _ := ⟨hs.of_sameNames ⟨hs.guards.heap.set_table ht, hs.guards.kept⟩
    ⟨rfl, rfl, rfl, rfl, rfl⟩, trivial⟩
  assign name hs hv := ⟨hs.assign name hv, trivial, trivial⟩
  pend hs hp := ⟨hs.withPending _ fun _ h => Option.some.inj h ▸ hp, trivial⟩
  settle hs := ⟨hs.withPending none (fun _ h => by cases h), trivial⟩
  scope {s} root hs := by
    have henter := hs.enter root s.depth hs.scope Region.heldNames_empty
    rw [Frames.setVars_child] at henter
    exact ⟨respects_of_closed henter fun t ht => hs.back ht t.depth, fun _ _ => trivial⟩
  invocation {s} entry hs := by
    have hcalls : ∀ {t} calls, r.Closed FunctionBody.LacksNothing kept t →
        r.Closed FunctionBody.LacksNothing kept { t with calls } := fun _ ht =>
      ht.of_sameNames ⟨ht.guards.heap, ht.guards.kept⟩ ⟨rfl, rfl, rfl, rfl, rfl⟩
    exact respects_of_closed (hcalls _ hs) fun t ht => hcalls _ ht
  lambda {s a closure vars} hs ha hc hvars _ := by
    obtain ⟨hframe, known, hknown⟩ := hs.lambdas a closure ha hc
    have henter := hs.enter true (s.depth + 1) hframe hvars
    exact ⟨respects_of_closed henter fun t ht => hs.back ht (t.depth - 1),
      known, fun _ _ => trivial, hknown⟩
  reply name arguments hs harg := hhost.command r _ name arguments _ hs harg

end Discipline

/-- A run of a whole tree fails for no missing part, and keeps lambdas that lack something
out of reach. -/
theorem lacksNothing_execute {host : Host σ} {kept : σ → Value → Prop}
    (hhost : host.KeepsWithin kept) {b : Block} (hb : (ofBlock b).Whole) {s : State σ}
    (hs : s.LambdasLackNothing kept) (budget : Nat) (source : String) :
    (execute host budget source b s).2.LambdasLackNothing kept ∧
      ∀ f, (execute host budget source b s).1 = .failed f → f.cause.isSyntax = false := by
  obtain ⟨r, hclosed⟩ := hs
  have hfaults : (meetingNoGap r kept).Permits (Faults.block (fun _ => false) b) :=
    Faults.noneMissing_block b _ hb
  have hend := (meetingNoGap_laws hhost).ended_execute hclosed (fun _ _ => trivial) hfaults budget
    source
  generalize (execute host budget source b s).2 = t at hend ⊢
  cases hr : (execute host budget source b s).1 with
  | done vs =>
    rw [hr] at hend
    exact ⟨⟨r, hend.2.1⟩, fun _ h => by cases h⟩
  | failed f =>
    rw [hr] at hend
    obtain ⟨e, u, rfl, ⟨hu, hcause⟩, -, hwhy⟩ := hend
    refine ⟨⟨r, hu.settled⟩, fun f' hf' => ?_⟩
    cases hf'
    obtain rfl | ⟨-, rfl⟩ := hwhy
    · exact hcause f rfl
    · rfl
  | crashed c =>
    rw [hr] at hend
    exact ⟨⟨r, hend.2.1.1⟩, fun _ h => by cases h⟩
  | exhausted =>
    rw [hr] at hend
    exact ⟨⟨r, hend.1.1⟩, fun _ h => by cases h⟩

/-- **A text without issues is whole and runs without meeting a gap.** No part of its tree
lacks anything, and the tree keeps every token but blanks, comments, line breaks and
semicolons. Where it is run in a state whose lambdas lack nothing, as in one that holds
no lambdas, the run does not fail for a part that is missing or for tokens that fit
nowhere; and it leaves such a state. -/
theorem whole_of_clean {text : String} {limit : Nat} {b : Block}
    (h : (parse text limit).block = some b) (hclean : (parse text limit).issues = []) :
    ((∀ p ∈ (ofBlock b).parts, p.isWhole = true) ∧
      ∀ t ∈ Token.tokenize text, t ∈ (ofBlock b).tokens ∨ t.kind.isHidden = true ∨
        t.kind = .endOfInput ∨ t.kind = .semicolon) ∧
    ∀ {σ : Type} {host : Host σ} {kept : σ → Value → Prop}, host.KeepsWithin kept →
      ∀ s : State σ, (s.LambdaFree kept → s.LambdasLackNothing kept) ∧
        (s.LambdasLackNothing kept → ∀ (budget : Nat) (source : String),
          (execute host budget source b s).2.LambdasLackNothing kept ∧
            ∀ f, (execute host budget source b s).1 = .failed f → f.cause.isSyntax = false) := by
  obtain ⟨hwhole, htokens⟩ := whole_of_no_issues h hclean
  refine ⟨⟨hwhole, htokens⟩, fun hhost s => ⟨State.LambdaFree.lambdasLackNothing, ?_⟩⟩
  exact fun hs budget source => lacksNothing_execute hhost hwhole hs budget source

/-- A text without issues makes a lambda and has the host call another one; the run fails
for a command that is not there. -/
theorem whole_of_clean_recorder :
    let text := "$f = |x| \x7b $y = [$x, ()]; return \x7d\n if (! nil) \x7b call || \x7b nope 1 \x7d \x7d"
    let host := Recorder.host 8
    let vm : Vm Recorder := { state := Recorder.ready }
    let f : Failure := ⟨.unknownCommand "nope", some ⟨59, 63⟩, [⟨.host, "call", some 2⟩]⟩
    ∃ b, (parse text Limit.nesting).block = some b ∧ (parse text Limit.nesting).issues = [] ∧
      (∀ p ∈ (ofBlock b).parts, p.isWhole = true) ∧ vm.state.LambdaFree Recorder.Kept ∧
      vm.failure? host 60 text = some f ∧
      ∀ f, (execute host 60 text b vm.state).1 = .failed f → f.cause.isSyntax = false := by
  intro text host vm f
  obtain ⟨b, hb⟩ := Option.isSome_iff_exists.1
    (show (parse text Limit.nesting).block.isSome = true by decide +kernel)
  have hclean : (parse text Limit.nesting).issues = [] := by decide +kernel
  have hnames : vm.state.NamesLambdaFree :=
    State.namesLambdaFree_of_among 0 0 (fun _ h => absurd h (Nat.not_lt_zero _))
      (fun _ h => absurd h (Nat.not_lt_zero _)) (by decide +kernel) (by decide +kernel)
  have hkept : ∀ v, Recorder.Kept vm.state.host v → vm.state.heap.LambdaFree v := by
    intro v hv
    obtain rfl | ⟨name, hname⟩ := hv
    · exact Heap.lambdaFree_of_among 1 0 (by decide) (fun _ h => absurd h (Nat.not_lt_zero _)) rfl
    · cases hname
  have hfree : vm.state.LambdaFree Recorder.Kept := ⟨hnames, fun _ hp => (by cases hp), hkept⟩
  have hrun : vm.failure? host 60 text = some f := by decide +kernel
  obtain ⟨⟨hwhole, -⟩, hruns⟩ := whole_of_clean hb hclean
  obtain ⟨hlack, hexecute⟩ := hruns (Recorder.confined_host 8).keepsWithin vm.state
  exact ⟨b, hb, hclean, hwhole, hfree, hrun, (hexecute (hlack hfree) 60 text).2⟩

end CommandScript
