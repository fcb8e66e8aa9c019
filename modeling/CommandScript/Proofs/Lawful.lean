import CommandScript.Proofs.Reaches
import Mathlib.Logic.Relation
/-!
# CommandScript — tables stay lawful

A run changes the state in single steps (`State.Change`): shared values are made, items and
entries are written, variables are assigned, scopes and calls are entered and left, and the
host puts a state of its own into place. Of these only few touch a table, and none makes
one unlawful. So a run that begins where every table in reach is lawful only goes through
states of which that is true, and ends in one, however it ends.

The host may do as it likes where a table is not lawful. Where all are, it is asked to write
lawful tables and to hand over what is in reach, or what it has made.
-/

namespace CommandScript

variable {σ : Type}

/-! ## What is asked of a state and of the host -/

/-- Every table in reach is lawful. -/
def State.TablesLawful (kept : σ → Value → Prop) (given : List Value) (s : State σ) : Prop :=
  ∀ a, s.Reaches kept given (.value (.table a)) → (s.heap.table a).Lawful

/-- Nothing leads out of the reach, and every table in it is lawful. -/
structure Reach.Lawful (r : Reach) (kept : σ → Value → Prop) (s : State σ) : Prop where
  closed : r.Closed (fun _ => True) kept s
  tables : ∀ a, r.region.table a → (s.heap.table a).Lawful

/-- Where every table in reach is lawful, the host hands over nothing but what is in reach, and
leaves no unlawful table there. -/
structure Host.KeepsTablesLawful (host : Host σ) (kept : σ → Value → Prop) : Prop where
  command : ∀ (r : Reach) name arguments (s : State σ), r.Lawful kept s →
    r.region.Held arguments →
    (host.command name arguments s).Follows (r.Lawful kept) (fun _ _ => True) r.region.Holds s
  field : ∀ (r : Reach) object name (s : State σ), r.Lawful kept s →
    r.region.Holds (host.field object name s)

variable {kept : σ → Value → Prop} {given : List Value} {s t : State σ} {r : Reach}

theorem Reach.Lawful.tablesLawful (h : r.Lawful kept s) (hgiven : r.region.Held given) :
    s.TablesLawful kept given :=
  fun a ha => h.tables a (h.closed.has_of_reaches hgiven ha)

/-- What can be reached is a reach whose tables are lawful. -/
theorem State.TablesLawful.lawful_reach (h : s.TablesLawful kept []) :
    (s.reach kept).Lawful kept s where
  closed := s.closed_reach kept
  tables := by
    rintro a (ha | ha)
    · exact h a ha
    · rw [Heap.table_of_size_le ha]
      exact Table.lawful_empty

/-! ## Single changes -/

/-- A reply that is given in a state puts another state into place, at once or later on, and
hands values over. -/
inductive Reply.Puts : State σ → Reply σ → State σ → List Value → State σ → Prop where
  | value {s t : State σ} {v : Value} : Puts s (.value v t) s [v] t
  | crash {s t : State σ} {c : Crash} : Puts s (.crash c t) s [] t
  | call {s t : State σ} {f : Value} {vs : List Value} {resume : Value → State σ → Reply σ} :
      Puts s (.call f vs t resume) s (f :: vs) t
  | later {s t u a b : State σ} {f v : Value} {vs handed : List Value}
      {resume : Value → State σ → Reply σ} :
      Puts u (resume v u) a handed b → Puts s (.call f vs t resume) a handed b

/-- The ways into a scope or a call. -/
inductive Bracket.Used : Bracket σ → Prop where
  | scope (root : Bool) : Used (.scope root)
  | lambda (outer : FrameId) (vars : Names Value) : Used (.lambda outer vars)
  | invocation (entry : TraceEntry) : Used (.invocation entry)

/-- A change that a run makes to the state in one go, and the values it is made with: what was
made, written to or assigned, and the arguments of a command with what it hands over. The
arguments of a lambda are variables of the scope that is entered. -/
inductive State.Change (host : Host σ) (s : State σ) : List Value → State σ → Prop where
  | newVector (items : List Value) :
      Change host s [(s.heap.newVector items).1] { s with heap := (s.heap.newVector items).2 }
  | newTable {t : Table Value} : t.Lawful →
      Change host s [(s.heap.newTable t).1] { s with heap := (s.heap.newTable t).2 }
  | newTuple (items : List Value) :
      Change host s [(s.heap.newTuple items).1] { s with heap := (s.heap.newTuple items).2 }
  | newLambda (c : Closure) :
      Change host s [(s.heap.newLambda c).1] { s with heap := (s.heap.newLambda c).2 }
  | setVector (a : Address) (items : List Value) :
      Change host s [.vector a] { s with heap := s.heap.setVector a items }
  | setTable (a : Address) {t : Table Value} : (s.heap.table a).Write t →
      Change host s [.table a] { s with heap := s.heap.setTable a t }
  | assign (name : String) (v : Value) :
      Change host s [v] { s with frames := s.frames.assign s.scope name v }
  | pending (p : Option Pending) : Change host s [] { s with pending := p }
  | enter {b : Bracket σ} : b.Used → Change host s [] (b.enter s)
  | leave {b : Bracket σ} (outer : State σ) : b.Used → Change host s [] (b.leave outer s)
  | settled : Change host s [] s.settled
  | command {name : String} {vs handed : List Value} {began t : State σ} :
      (host.command name vs began).Puts began s handed t → Change host s (vs ++ handed) t

/-- Changes lead from one state to another, and behind each of them `P` holds of the values it
is made with and of the state. -/
def State.Passes (host : Host σ) (P : List Value → State σ → Prop) : State σ → State σ → Prop :=
  Relation.ReflTransGen fun s t => ∃ given, s.Change host given t ∧ P given t

namespace State.Passes

variable {host : Host σ} {P Q : List Value → State σ → Prop}

theorem single (h : s.Change host given t) (ht : P given t) : s.Passes host P t :=
  Relation.ReflTransGen.single ⟨given, h, ht⟩

theorem mono (hPQ : ∀ vs u, P vs u → Q vs u) (h : s.Passes host P t) : s.Passes host Q t :=
  Relation.ReflTransGen.mono (fun _ _ ⟨vs, hstep, hu⟩ => ⟨vs, hstep, hPQ vs _ hu⟩) _ _ h

/-- What holds behind each change holds at the end. -/
theorem ends {I : State σ → Prop} (hI : ∀ vs u, P vs u → I u) (h : s.Passes host P t)
    (hs : I s) : I t := by
  cases h with
  | refl => exact hs
  | tail _ hlast =>
    obtain ⟨vs, -, ht⟩ := hlast
    exact hI vs _ ht

end State.Passes

/-- The tables in reach are lawful, and the values are in reach. -/
def Reach.Keeps (r : Reach) (kept : σ → Value → Prop) (given : List Value) (s : State σ) : Prop :=
  r.Lawful kept s ∧ r.region.Held given

/-- What the host puts into place, it puts there by single changes. -/
theorem Reply.Follows.passes {host : Host σ} {reply : Reply σ}
    (h : reply.Follows (r.Lawful kept) (fun _ _ => True) r.region.Holds s)
    (hgiven : r.region.Held given)
    (hputs : ∀ a handed b, reply.Puts s a handed b → a.Change host (given ++ handed) b) :
    reply.Follows (r.Lawful kept) (State.Passes host (r.Keeps kept)) r.region.Holds s := by
  induction h with
  | @value s t v ht _ hv =>
    have hheld : r.region.Held [v] := Region.held_cons.2 ⟨hv, Region.held_nil⟩
    exact .value ht (.single (hputs _ _ _ .value) ⟨ht, hgiven.append hheld⟩) hv
  | crash ht _ =>
    exact .crash ht (.single (hputs _ _ _ .crash) ⟨ht, hgiven.append Region.held_nil⟩)
  | call ht _ hf harg _ ih =>
    have hheld := hgiven.append (Region.held_cons.2 ⟨hf, harg⟩)
    refine .call ht (.single (hputs _ _ _ .call) ⟨ht, hheld⟩) hf harg fun v u hv hu => ?_
    exact ih v u hv hu fun a handed b hab => hputs a handed b (.later hab)

/-! ## Each change keeps tables lawful -/

theorem Heap.tables_newTuple (h : Heap) (items : List Value) :
    (h.newTuple items).2.tables = h.tables := by
  obtain ⟨a, -, -, hnew⟩ | hnew := h.newTuple_cases items <;> rw [hnew]

namespace Reach.Lawful

/-- Another state in reach, with the same tables. -/
theorem of_tables (h : r.Lawful kept s) (ht : r.Closed (fun _ => True) kept t)
    (htables : t.heap.tables = s.heap.tables) : r.Lawful kept t where
  closed := ht
  tables a ha := by
    rw [Heap.table, htables]
    exact h.tables a ha

/-- Another heap in reach, with the same lambdas and the same tables. -/
theorem withHeap (h : r.Lawful kept s) {heap : Heap} (hheap : r.region.Encloses heap)
    (hlambdas : heap.lambdas = s.heap.lambdas) (htables : heap.tables = s.heap.tables) :
    r.Lawful kept { s with heap } :=
  h.of_tables (h.closed.of_sameNames ⟨hheap, h.closed.guards.kept⟩
    ⟨rfl, rfl, rfl, rfl, hlambdas⟩) htables

theorem made_table (h : r.Lawful kept s) {t : Table Value} (hheld : r.region.HeldTable t)
    (ht : t.Lawful) : r.Lawful kept { s with heap := (s.heap.newTable t).2 } where
  closed := h.closed.of_sameNames
    ⟨(h.closed.guards.heap.made_table hheld).2, h.closed.guards.kept⟩ ⟨rfl, rfl, rfl, rfl, rfl⟩
  tables a ha := by
    rw [Heap.table_newTable]
    split
    · exact ht
    · exact h.tables a ha

theorem set_table (h : r.Lawful kept s) {a : Address} (ha : r.region.table a) {t : Table Value}
    (hheld : r.region.HeldTable t) (ht : (s.heap.table a).Write t) :
    r.Lawful kept { s with heap := s.heap.setTable a t } where
  closed := h.closed.of_sameNames
    ⟨h.closed.guards.heap.set_table hheld, h.closed.guards.kept⟩ ⟨rfl, rfl, rfl, rfl, rfl⟩
  tables b hb := by
    rw [Heap.table_setTable]
    split
    · exact ht.lawful (h.tables a ha)
    · exact h.tables b hb

theorem settled (h : r.Lawful kept s) : r.Lawful kept s.settled :=
  h.of_tables h.closed.settled rfl

end Reach.Lawful

/-! ## The discipline -/

/-- Every table in reach is lawful, where a step starts and in whatever it makes of that. -/
def keepingLawful (host : Host σ) (r : Reach) (kept : σ → Value → Prop) : Discipline σ where
  region := r.region
  Fine := r.Lawful kept
  Loose := r.Lawful kept
  Stops _ := r.Lawful kept
  Rel := State.Passes host (r.Keeps kept)
  Sees _ _ := True
  Allows _ := True

variable {host : Host σ}

/-- A change that keeps the tables in reach lawful, with values in reach. -/
theorem Reach.Lawful.passes (ht : r.Lawful kept t) (h : s.Change host given t)
    (hgiven : r.region.Held given) :
    (keepingLawful host r kept).Fine t ∧ (keepingLawful host r kept).Rel s t :=
  ⟨ht, .single h ⟨ht, hgiven⟩⟩

theorem Reach.Lawful.keeps {new : Value × Heap} (ht : r.Lawful kept { s with heap := new.2 })
    (h : s.Change host [new.1] { s with heap := new.2 }) (hnew : r.region.Holds new.1) :
    (keepingLawful host r kept).Keeps s new :=
  ⟨hnew, ht.passes h (Region.held_cons.2 ⟨hnew, Region.held_nil⟩)⟩

theorem respects_of_used {b : Bracket σ} (hb : b.Used) (henter : r.Lawful kept (b.enter s))
    (hleave : ∀ t, r.Lawful kept t → r.Lawful kept (b.leave s t)) :
    (keepingLawful host r kept).Respects s b where
  enter := henter
  fine _ ht := hleave _ ht
  loose _ ht := hleave _ ht
  stops _ ht := hleave _ ht
  rel {t} hst := by
    have ht : r.Lawful kept t := State.Passes.ends (fun _ _ hu => hu.1) hst henter
    have hin : s.Change host [] (b.enter s) := .enter hb
    have hout : t.Change host [] (b.leave s t) := .leave s hb
    exact (Relation.ReflTransGen.head ⟨[], hin, henter, Region.held_nil⟩ hst).tail
      ⟨[], hout, hleave t ht, Region.held_nil⟩

theorem keepingLawful_laws (hhost : host.KeepsTablesLawful kept) :
    (keepingLawful host r kept).Laws host where
  rel_refl _ := .refl
  rel_trans h h' := h.trans h'
  drift_of_rel := id
  drift_trans h h' := h.trans h'
  sees_of_drift _ _ := trivial
  loose_of_fine := id
  fine_of_loose hs _ := hs
  fine_of_crashed := id
  failed hs _ := hs
  crashed hs _ := hs
  exhausted := id
  unseen _ _ _ := trivial
  globals hs := hs.closed.globals
  get name hs := hs.closed.holds_get name
  vector hs := hs.closed.guards.heap.vector
  table hs := hs.closed.guards.heap.table
  tuple hs := hs.closed.guards.heap.tuple
  field object name hs := hhost.field r object name _ hs
  pending hs hp := hs.closed.pending _ hp
  newVector {_ items} hs hi := by
    obtain ⟨hv, hheap⟩ := hs.closed.guards.heap.made_vector hi
    exact (hs.withHeap hheap rfl rfl).keeps (.newVector items) hv
  newTable hs hheld hlawful :=
    (hs.made_table hheld hlawful).keeps (.newTable hlawful)
      (hs.closed.guards.heap.made_table hheld).1
  newTuple {s items} hs hi := by
    obtain ⟨hv, hheap⟩ := hs.closed.guards.heap.made_tuple hi
    have htables : (s.heap.newTuple items).2.tables = s.heap.tables := Heap.tables_newTuple _ _
    exact (hs.withHeap hheap (Heap.lambdas_newTuple _ _) htables).keeps (.newTuple items) hv
  newLambda {s body source _} hs _ _ := by
    have hclosed := hs.closed.made_lambda (c := ⟨body, s.scope, source⟩) hs.closed.scope trivial
    exact (hs.of_tables hclosed rfl).keeps (.newLambda _) (hs.closed.newLambda _ (Nat.le_refl _))
  setVector {s a items} hs ha hi := by
    have ht : r.Lawful kept { s with heap := s.heap.setVector a items } :=
      hs.withHeap (hs.closed.guards.heap.set_vector hi) rfl rfl
    exact ht.passes (.setVector a items) (Region.held_cons.2 ⟨ha, Region.held_nil⟩)
  setTable {_ a _} hs ha hheld hwrite :=
    (hs.set_table ha hheld hwrite).passes (.setTable a hwrite)
      (Region.held_cons.2 ⟨ha, Region.held_nil⟩)
  assign {_ v} name hs hv := by
    have ht := hs.of_tables (hs.closed.assign name hv) rfl
    obtain ⟨hfine, hrel⟩ := ht.passes (.assign name v) (Region.held_cons.2 ⟨hv, Region.held_nil⟩)
    exact ⟨hfine, hrel, trivial⟩
  pend {_ p} hs hp := by
    have hclosed := hs.closed.withPending (some p) fun _ h => Option.some.inj h ▸ hp
    exact (hs.of_tables hclosed rfl).passes (.pending (some p)) Region.held_nil
  settle hs := by
    have hclosed := hs.closed.withPending none fun _ h => nomatch h
    exact (hs.of_tables hclosed rfl).passes (.pending none) Region.held_nil
  scope {s} root hs := by
    have henter := hs.closed.enter root s.depth hs.closed.scope Region.heldNames_empty
    rw [Frames.setVars_child] at henter
    exact ⟨respects_of_used (.scope root) (hs.of_tables henter rfl) fun t ht =>
      ht.of_tables (hs.closed.back ht.closed t.depth) rfl, fun _ _ => trivial⟩
  invocation entry hs := by
    have hcalls {t : State σ} (calls : List TraceEntry) (ht : r.Lawful kept t) :
        r.Lawful kept { t with calls } :=
      ht.of_tables (ht.closed.of_sameNames ⟨ht.closed.guards.heap, ht.closed.guards.kept⟩
        ⟨rfl, rfl, rfl, rfl, rfl⟩) rfl
    exact respects_of_used (.invocation entry) (hcalls _ hs) fun t ht => hcalls _ ht
  lambda {s a closure vars} hs ha hc hvars _ := by
    obtain ⟨hframe, -⟩ := hs.closed.lambdas a closure ha hc
    have henter := hs.closed.enter true (s.depth + 1) hframe hvars
    exact ⟨respects_of_used (.lambda closure.frame vars) (hs.of_tables henter rfl) fun t ht =>
      ht.of_tables (hs.closed.back ht.closed (t.depth - 1)) rfl,
      fun _ => false, fun _ _ => trivial, fun _ _ => trivial⟩
  reply name arguments hs harg :=
    (hhost.command r name arguments _ hs harg).passes harg fun _ _ _ => .command

/-! ## Whole runs -/

/-- The values that a run gives. -/
def Outcome.values : Outcome → List Value
  | .done (some vs) => vs
  | _ => []

/-- The values that a run gives. -/
def RunResult.values : RunResult → List Value
  | .ok (some vs) => vs
  | _ => []

/-- **A run of any tree keeps the tables in reach lawful**, however it ends, and at each change
on its way. -/
theorem execute_lawful (hhost : host.KeepsTablesLawful kept) (hs : r.Lawful kept s)
    (budget : Nat) (source : String) (b : Block) :
    r.Lawful kept (execute host budget source b s).2 ∧
      r.region.Held (execute host budget source b s).1.values ∧
      s.Passes host (r.Keeps kept) (execute host budget source b s).2 := by
  have hend := (keepingLawful_laws hhost).ended_execute_of_all hs (fun _ => trivial) budget
    source b
  generalize execute host budget source b s = result at hend ⊢
  obtain ⟨outcome, t⟩ := result
  cases outcome with
  | done values =>
    obtain ⟨hvalues, ht, hst⟩ := hend
    refine ⟨ht, ?_, hst⟩
    cases values with
    | none => exact Region.held_nil
    | some vs => exact hvalues vs rfl
  | failed f =>
    obtain ⟨e, u, rfl, hu, hsu, -⟩ := hend
    have ht : r.Lawful kept u.settled := Reach.Lawful.settled hu
    exact ⟨ht, Region.held_nil, hsu.tail ⟨[], .settled, ht, Region.held_nil⟩⟩
  | crashed c =>
    obtain ⟨-, ht, hst⟩ := hend
    exact ⟨ht, Region.held_nil, hst⟩
  | exhausted =>
    obtain ⟨ht, hst⟩ := hend
    exact ⟨ht, Region.held_nil, hst⟩

/-- What a reply keeps to, and how else it changes the state. -/
theorem Reply.Follows.and {P : State σ → Prop} {R R' : State σ → State σ → Prop}
    {H : Value → Prop} {reply : Reply σ} (h : reply.Follows P R H s)
    (h' : reply.Follows (fun _ => True) R' (fun _ => True) s) :
    reply.Follows P (fun s t => R s t ∧ R' s t) H s := by
  induction h with
  | value ht hst hv =>
    cases h' with
    | value _ hst' _ => exact .value ht ⟨hst, hst'⟩ hv
  | crash ht hst =>
    cases h' with
    | crash _ hst' => exact .crash ht ⟨hst, hst'⟩
  | call ht hst hf harg _ ih =>
    cases h' with
    | call _ hst' _ _ hnext =>
      exact .call ht ⟨hst, hst'⟩ hf harg fun v u hv hu => ih v u hv hu (hnext v u trivial trivial)

/-- The commands of the host write no table. -/
def Host.LeavesTables (host : Host σ) : Prop :=
  ∀ name arguments s, (host.command name arguments s).Follows (fun _ => True)
    (fun s t => t.heap.tables = s.heap.tables) (fun _ => True) s

/-- A confined host that writes no table keeps the tables in reach lawful. -/
theorem Host.Confined.keepsTablesLawful (hhost : host.Confined kept)
    (htables : host.LeavesTables) : host.KeepsTablesLawful kept where
  command r name arguments s hs harg := by
    have hreply := hhost.command r.region name arguments s hs.closed.guards harg
    refine (hreply.and (htables name arguments s)).mono (fun _ ht => ht.closed.guards)
      (fun u t hu ht hut => ?_) hs
    exact ⟨hu.of_tables (hu.closed.of_sameNames ht hut.1) hut.2, trivial⟩
  field r object name s hs := hhost.field r.region object name s hs.closed.guards

namespace Recorder

/-- A reply of the recording host that writes no table. -/
abbrev SparesTables (s : State Recorder) (reply : Reply Recorder) : Prop :=
  reply.Follows (fun _ => True) (fun s t => t.heap.tables = s.heap.tables) (fun _ => True) s

theorem sparesTables_mapFrom (vector : Address) (f : Value) (rounds : Nat) (done : List Value)
    (s : State Recorder) : SparesTables s (mapFrom vector f rounds done s) := by
  induction rounds generalizing done s with
  | zero => exact .crash trivial rfl
  | succ n ih =>
    unfold mapFrom
    split
    · exact .call trivial rfl trivial (fun _ _ => trivial) fun r t _ _ => ih (done ++ [r]) t
    · exact .value trivial rfl trivial

theorem leavesTables_host (rounds : Nat) : (Recorder.host rounds).LeavesTables := by
  intro name arguments s
  change SparesTables s (command rounds name arguments s)
  unfold command
  split
  all_goals try split
  case h_6 => exact .value trivial (Heap.tables_newTuple s.heap arguments) trivial
  case h_9.isTrue =>
    exact .call trivial rfl trivial (fun _ _ => trivial) fun v t _ _ => .value trivial rfl trivial
  case h_11.isTrue => exact sparesTables_mapFrom _ _ rounds [] s
  all_goals first
    | exact .crash trivial rfl
    | exact .value trivial rfl trivial

end Recorder

end CommandScript
