import CommandScript.Proofs.Remembered
import CommandScript.Proofs.Reordered
import CommandScript.Proofs.Resolved
/-!
# CommandScript — what is said to mismatch does mismatch

Help says of an argument that it mismatches where its shape does not take the value that the
walk knows. If the text is straight up to there, a run that comes to the command passes a twin
of this value (`Remembers`), and a shape does not tell twins apart (`Shape.seenAlike_of_twins`).
So it does not take what the run passes, either (`Vm.mismatch_of_passes`).

A walk that comes to the review of a command comes there once, since a command begins with a
token of its own. So what the walk knows there can be compared with what holds where the run
comes to this command.
-/

namespace CommandScript

open Eval

variable {σ : Type}

/-! ## Twins look the same -/

namespace Shape

/-- A predicate of the host that does not see at which addresses vectors and tables stand. -/
def TwinBlind (holds : Heap → Value → Bool) : Prop :=
  ∀ (T : Twins) (h h' : Heap) (v v' : Value), T.Between h h' → T.Pairs v v' →
    holds h v = holds h' v'

variable {T : Twins} {h h' : Heap}

theorem pairsEntry_mapIdx {xs ys : List Value} (hxs : List.Forall₂ T.Pairs xs ys)
    {key : Nat → Value} (hkey : ∀ i, (key i).isKey = true) :
    List.Forall₂ T.PairsEntry (xs.mapIdx fun i v => (key i, v))
      (ys.mapIdx fun i v => (key i, v)) := by
  induction hxs generalizing key with
  | nil => exact .nil
  | cons hx _ ih =>
    rw [List.mapIdx_cons, List.mapIdx_cons]
    exact .cons ⟨rfl, hkey 0, hx⟩ (ih fun i => hkey (i + 1))

theorem exists_mem_of_forall₂ {α β : Type} {R : α → β → Prop} {xs : List α} {ys : List β}
    (h : List.Forall₂ R xs ys) : ∀ x ∈ xs, ∃ y ∈ ys, R x y := by
  induction h with
  | nil => nofun
  | cons hxy _ ih =>
    refine List.forall_mem_cons.2 ⟨⟨_, List.mem_cons_self, hxy⟩, fun x hx => ?_⟩
    obtain ⟨y, hy, hxy⟩ := ih x hx
    exact ⟨y, List.mem_cons_of_mem _ hy, hxy⟩

theorem sameEntries_of_pairs {t u : Table Value}
    (h : List.Forall₂ T.PairsEntry t.entries u.entries) : SameEntries T.Pairs t u where
  forth e he := by
    obtain ⟨e', he', hpair⟩ := exists_mem_of_forall₂ h e he
    exact ⟨e', he', hpair.key_eq, hpair.pairs_key, hpair.value⟩
  back e' he' := by
    obtain ⟨e, he, hpair⟩ := exists_mem_of_forall₂ h.flip e' he'
    exact ⟨e, he, hpair.key_eq, hpair.pairs_key, hpair.value⟩
  has k := Twins.has_eq h k

/-- **Twins look the same to shapes.** -/
theorem seenAlike_of_twins (hT : T.Between h h') : SeenAlike T.Pairs h h' where
  nil := .plain rfl
  isCallable hv := hv.isCallable_eq
  literal := by
    intro v v' hv exact l hl
    have hequal : h.equal v l = h'.equal v' l := by
      rw [h.equal_of_not_isContainer hl, h'.equal_of_not_isContainer hl, hv.kind_eq,
        hv.same_eq hT (.plain hl)]
    cases hv with
    | plain =>
      unfold literalMatches
      split
      · rfl
      · exact hequal
    | vector | table => cases exact <;> exact hequal
  entries := by
    intro v v' hv
    cases hv with
    | vector hab =>
      have hitems := (Twins.Pairs.vector hab).vector_items hT
      exact .inr ⟨_, _, rfl, rfl, sameEntries_of_pairs (pairsEntry_mapIdx hitems fun _ => rfl)⟩
    | table hab =>
      have hentries := (Twins.Pairs.table hab).table_entries hT
      exact .inr ⟨_, _, rfl, rfl, sameEntries_of_pairs hentries⟩
    | plain hplain =>
      cases v with
      | vector | table | tuple => cases hplain
      | _ => exact .inl ⟨rfl, rfl⟩

/-- A value is not taken if a twin of it is not. -/
theorem MadeOf.mismatch_of_twins {s : Shape} (hs : s.MadeOf (·.isContainer = false) TwinBlind)
    (hT : T.Between h h') {v v' : Value} (hv : T.Pairs v v') {exact : Bool}
    (hmatch : s.matchWith h exact v = .ok none) : s.matchWith h' exact v' = .ok none := by
  have hagree := MadeOf.takes_iff_of_seenAlike (seenAlike_of_twins hT)
    (hs.imp (fun _ hl => hl) fun _ hblind v v' hv => hblind T h h' v v' hT hv) exact v v' hv
  obtain ⟨b, hb⟩ := (hs.comparable h').answers exact v'
  unfold Takes at hagree
  rw [hmatch, hb] at hagree
  cases b with
  | true => cases hagree.2 rfl
  | false =>
    cases hr : s.matchWith h' exact v' with
    | error c =>
      rw [hr] at hb
      cases hb
    | ok found =>
      rw [hr] at hb
      cases found with
      | none => rfl
      | some path => cases hb

end Shape

/-! ## Where a text begins -/

/-- The vectors and tables of a region are there, what they hold is in it, and there is no
tuple in it. -/
structure Region.Houses (R : Region) (h : Heap) : Prop where
  vector : ∀ a, R.vector a → ∃ xs, h.vectors[a]? = some xs ∧ R.Held xs
  table : ∀ a, R.table a → ∃ t, h.tables[a]? = some t ∧ t.Lawful ∧ R.HeldTable t
  tuple : ∀ a, ¬R.tuple a

/-- All that is held by globals and by variables is there, and no tuple is held. -/
def State.Housed (s : State σ) : Prop :=
  ∃ R : Region, R.Houses s.heap ∧ R.HeldNames s.globals ∧ ∀ f, R.HeldNames (s.frames.vars f)

/-- In a region, each vector and each table is the twin of itself. -/
def Region.twins (R : Region) : Twins where
  vector a b := a = b ∧ R.vector a
  table a b := a = b ∧ R.table a

namespace Region.Houses

variable {R : Region} {h : Heap} {v : Value}

theorem pairs (hR : R.Houses h) (hv : R.Holds v) : R.twins.Pairs v v := by
  cases v with
  | vector => exact .vector ⟨rfl, hv⟩
  | table => exact .table ⟨rfl, hv⟩
  | tuple a => exact absurd hv (hR.tuple a)
  | _ => exact .plain rfl

theorem between (hR : R.Houses h) : R.twins.Between h h where
  vector := by
    rintro a _ ⟨rfl, ha⟩
    obtain ⟨xs, hxs, hheld⟩ := hR.vector a ha
    exact ⟨xs, xs, hxs, hxs, List.forall₂_same.2 fun v hv => hR.pairs (hheld v hv)⟩
  table := by
    rintro a _ ⟨rfl, ha⟩
    obtain ⟨t, ht, hlawful, hheld⟩ := hR.table a ha
    exact ⟨t, t, ht, ht, List.forall₂_same.2 fun e he =>
      ⟨rfl, (hlawful e he).1, hR.pairs (hheld e he).2⟩⟩
  vector_iff := by
    rintro a _ c _ ⟨rfl, -⟩ ⟨rfl, -⟩
    exact Iff.rfl
  table_iff := by
    rintro a _ c _ ⟨rfl, -⟩ ⟨rfl, -⟩
    exact Iff.rfl

end Region.Houses

namespace Frames

variable {fs : Frames} {id : FrameId} {name : String} {v : Value}

theorem chainWithin_child (hfs : fs.Formed) (hid : id < fs.all.size) (parent : FrameId)
    (root : Bool) (n : Nat) :
    (fs.child parent root).2.chainWithin n id = fs.chainWithin n id := by
  induction n generalizing id with
  | zero => rfl
  | succ n ih =>
    have hframe : (fs.child parent root).2.frame id = fs.frame id := by
      rw [frame_child, if_neg (Nat.ne_of_lt hid)]
    unfold chainWithin
    rw [hframe]
    cases hup : (fs.frame id).up with
    | none => rfl
    | some up => exact congrArg (id :: ·) (ih ((hfs.up_lt id up hup).trans hid))

/-- What is found from a frame is found from a new one below it. -/
theorem lookup?_child (hfs : fs.Formed) (hid : id < fs.all.size) (root : Bool)
    (h : fs.lookup? id name = some v) :
    (fs.child id root).2.lookup? (fs.child id root).1 name = some v := by
  have hsame : (fs.child id root).2.lookup? id name = fs.lookup? id name := by
    refine lookup?_congr (chainWithin_child hfs hid id root _) fun f hf => ?_
    have hlt : f < fs.all.size := Nat.lt_of_le_of_lt (hfs.le_of_mem_chainWithin hf) hid
    unfold vars
    rw [frame_child, if_neg (Nat.ne_of_lt hlt)]
  have hup : ((fs.child id root).2.frame (fs.child id root).1).up = some id := by
    rw [frame_child]
    simp [child]
  obtain ⟨more, hmore⟩ :=
    (fs.child id root).2.chainWithin_isPrefix_of_le (Nat.succ_le_of_lt hid) id
  rw [← hsame] at h
  unfold lookup? chain at h ⊢
  rw [chainWithin, hup, List.findSome?_cons, vars_child]
  change ((fs.child id root).2.chainWithin fs.all.size id).findSome? _ = some v
  rw [← hmore, List.findSome?_append, h]
  rfl

end Frames

/-- **At the start** of a text, all is remembered. -/
theorem Remembers.start {vm : Vm σ} (hframes : vm.state.frames.Formed)
    (hscope : vm.state.scope < vm.state.frames.all.size) (hhoused : vm.state.Housed)
    (text : List Char) (caret : Int) (options : AssistOptions) :
    ∃ T, Remembers T (Assist.context vm text caret options) (.start vm)
      ((Bracket.scope true).enter vm.state) := by
  obtain ⟨R, hR, hglobals, hvars⟩ := hhoused
  refine ⟨R.twins, hR.between, rfl, fun name v hv => hR.pairs (hglobals name v hv),
    fun name v hv => ?_, List.cons_ne_nil _ _, hframes.child hscope true, ?_⟩
  · have hfind : (Findings.start vm).frames.findSome? (·.get? name) =
        (vm.state.frames.lookup? vm.state.scope name).map some := by
      rw [← Frames.get?_visible_eq_lookup? hframes.distinct, ← Names.get?_mapValues]
      exact List.findSome?_singleton
    rw [hfind] at hv
    obtain ⟨w, hlookup, hw⟩ := Option.map_eq_some_iff.1 hv
    obtain rfl := Option.some.inj hw
    obtain ⟨f, -, hf⟩ := List.exists_of_findSome?_eq_some hlookup
    change R.twins.Pairs w ((vm.state.frames.child vm.state.scope true).2.get
      (vm.state.frames.child vm.state.scope true).1 name)
    rw [Frames.get_eq_lookup?, Frames.lookup?_child hframes hscope true hlookup]
    exact hR.pairs (hvars f name w hf)
  · simp [Bracket.scope, Frames.child]

/-! ## A command is visited once -/

theorem Visits.statements_append (xs ys : List Statement) :
    Visits.statements (xs ++ ys) = Visits.statements xs ++ Visits.statements ys := by
  induction xs with
  | nil => rw [Visits.statements, List.nil_append, List.nil_append]
  | cons x rest ih => rw [List.cons_append, Visits.statements, Visits.statements, ih,
      List.append_assoc]

/-- The review of a command is the last visit to it. -/
theorem Visits.exists_command_eq (kind : Option SuggestionKind) (c : Command) :
    ∃ inside, Visits.command kind c = inside ++ [.review c] := by
  obtain ⟨v, es, span⟩ := c
  exact ⟨_, Visits.command.eq_1 kind v es span⟩

/-- **No command is reviewed twice** on the walk over a text. -/
theorem notMem_review_of_parse {text : String} {limit : Nat} {b : Block}
    (hb : (parse text limit).block = some b) {before behind : List Visit} {c : Command}
    (h : Visits.block b = before ++ .review c :: behind) :
    Visit.review c ∉ before ∧ Visit.review c ∉ behind := by
  obtain ⟨heads, hperm, hsub⟩ := (Visits.row_block b).reviews
  rw [Outline.tokensOfAll_singleton] at hsub
  have hnodup := (hperm.map (·.span.start)).nodup_iff.1
    ((nodup_starts_of_parse hb).sublist (hsub.map _))
  rw [h, List.filterMap_append,
    List.filterMap_cons_some (show (Visit.review c).reviewed? = some c.callee from rfl),
    List.map_append, List.map_append, List.map_cons, List.map_cons] at hnodup
  have hstart {vs : List Visit} (hmem : Visit.review c ∈ vs) : c.callee.root.head.span.start ∈
      ((vs.filterMap Visit.reviewed?).map (·.root.head)).map (·.span.start) :=
    List.mem_map_of_mem (List.mem_map_of_mem (List.mem_filterMap.2 ⟨_, hmem, rfl⟩))
  obtain ⟨-, hbehind, hdisjoint⟩ := List.nodup_append'.1 hnodup
  exact ⟨fun hmem => hdisjoint (hstart hmem) List.mem_cons_self,
    fun hmem => (List.nodup_cons.1 hbehind).1 (hstart hmem)⟩

/-! ## Arguments -/

/-- A shape is declared for an argument that is there. -/
theorem Command.Declares.getElem?_arguments {c : Command} {shapes : Names SharedShape}
    {index : Nat} {e : Expression} {s : Shape} (h : c.Declares shapes index e s) :
    (c.arguments.filter (!·.isEmptyGroup))[index]? = some e := by
  obtain ⟨-, -, -, -, -, -, -, -, -, hargument⟩ := h
  exact hargument

section Arguments

variable {host : Host σ} {n : Nat} {source : String} {s t : State σ}

/-- An argument has got its value on the way, with all things left alone before and behind. -/
theorem exists_value_of_argumentValues (hhost : host.Harmless) {es : List Expression}
    {vs : List Value} (h : argumentValues (run host n) source es s = (.ok vs, t)) {k : Nat}
    {e : Expression} (he : (es.filter (!·.isEmptyGroup))[k]? = some e) :
    ∃ v u w, vs[k]? = some v ∧ s.LeftAlone u ∧ run host n source (.value e) u = (.ok v, w) ∧
      w.LeftAlone t := by
  induction es generalizing vs s k with
  | nil => cases he
  | cons x rest ih =>
    unfold argumentValues at h
    cases hx : x.isEmptyGroup with
    | true =>
      rw [if_pos hx] at h
      rw [List.filter_cons_of_neg (by simp [hx])] at he
      exact ih h he
    | false =>
      rw [if_neg (by simp [hx])] at h
      rw [List.filter_cons_of_pos (by simp [hx])] at he
      obtain ⟨v, u, hv, h⟩ := Exec.bind_eq_ok h
      obtain ⟨vs, w, hrest, hpure⟩ := Exec.bind_eq_ok h
      cases hpure
      cases k with
      | zero =>
        cases he
        exact ⟨v, s, u, rfl, .refl s, hv, leftAlone_argumentValues hhost hrest⟩
      | succ k =>
        obtain ⟨v', u', w', hvalue, hleft, hrun, hleft'⟩ := ih hrest he
        exact ⟨v', u', w', hvalue, (leftAlone_value hhost hv).trans hleft, hrun, hleft'⟩

end Arguments

/-! ## Runs -/

/-- A run of a text comes to a command, with a budget that is large enough, and the arguments
get their values. There is no frame but the one of the text until then, so no lambda was
called. -/
def Vm.Passes (vm : Vm σ) (host : Host σ) (text : String) (b : Block) (c : Command)
    (values : List Value) (t : State σ) : Prop :=
  ∃ budget n s u callee, sizeOf b ≤ budget ∧ sizeOf c ≤ n ∧
    Point.ComesTo host text
      ⟨budget, .statements b.last b.body, (Bracket.scope true).enter vm.state⟩ ⟨n, .command c, s⟩ ∧
    calleeValue host (Eval.run host n) text c.callee s = (.ok callee, u) ∧
    argumentValues (Eval.run host n) text c.arguments u = (.ok values, t) ∧
    t.frames.all.size = vm.state.frames.all.size + 1

theorem sizeOf_lt_of_mem_body {b : Block} {x : Statement} (h : x ∈ b.body) :
    sizeOf x < sizeOf b := by
  obtain ⟨body, last, span⟩ := b
  have hx := List.sizeOf_lt_of_mem h
  simp only [Block.body, Block.mk.sizeOf_spec] at hx ⊢
  omega

theorem sizeOf_lt_of_mem_arguments {c : Command} {e : Expression} (h : e ∈ c.arguments) :
    sizeOf e < sizeOf c := by
  obtain ⟨callee, es, span⟩ := c
  have he := List.sizeOf_lt_of_mem h
  simp only [Command.arguments, Command.mk.sizeOf_spec] at he ⊢
  omega

/-- Only the last visit to a straight statement may bring something into sight, and none that comes
before the review of a command is the last one. -/
theorem Statement.quiet_before_review {x : Statement} (hx : x.isStraight = true)
    {before behind : List Visit} {c : Command}
    (h : Visits.statement x = before ++ .review c :: behind) :
    ∀ v ∈ before, v.isQuiet = true := by
  intro v hv
  refine Statement.quiet_of_isStraight hx v ?_
  rw [h, List.dropLast_append_cons]
  exact List.mem_append_left _ hv

/-- What quiet visits behind statements leave as the statements have left it. -/
theorem Walk.exists_visitAll_statements {ctx : AssistContext} {xs : List Statement}
    {vs : List Visit} (hvs : ∀ v ∈ vs, v.isQuiet = true) {f f' : Findings}
    (h : visitAll ctx (Visits.statements xs ++ vs) f = (.ok (), f')) :
    ∃ g, visitAll ctx (Visits.statements xs) f = (.ok (), g) ∧ f'.frames = g.frames ∧
      g.heap.Grew f'.heap := by
  rw [visitAll_append, apply_bind] at h
  rcases hfirst : visitAll ctx (Visits.statements xs) f with ⟨c | ⟨⟩, g⟩ <;> rw [hfirst] at h
  · cases h
  · exact ⟨g, rfl, grew_of_visitAll hvs h⟩

/-- The text is straight up to a command: no statement but commands and assignments to plain
names comes before it, and it is in one of these itself. -/
def Block.StraightTo (b : Block) (c : Command) : Prop :=
  b.last = none ∧ ∀ before x behind, b.body = before ++ x :: behind →
    .review c ∈ Visits.statement x → ∀ y ∈ before ++ [x], y.isStraight = true

theorem Block.straightTo_of_isStraight {b : Block} (h : b.isStraight = true) (c : Command) :
    b.StraightTo c := by
  obtain ⟨hlast, hbody⟩ := Bool.and_eq_true_iff.1 h
  refine ⟨Option.isNone_iff_eq_none.1 hlast, fun before x behind hsplit _ y hy => ?_⟩
  have hmem : y ∈ b.body := by
    rw [hsplit, List.append_cons]
    exact List.mem_append_left _ hy
  exact List.all_eq_true.1 hbody y hmem

/-- A run that comes to a command, with the text straight up to it, has run the statements that
the walk has gone through, and is in one that has been quiet. -/
theorem Vm.Passes.exists_ran {host : Host σ} (hhost : host.Harmless) {vm : Vm σ} {text : String}
    {b : Block} (hb : (parse text Limit.nesting).block = some b) {before behind : List Visit}
    {c : Command} (hstraight : b.StraightTo c)
    (hvisits : Visits.block b = before ++ .review c :: behind) {values : List Value} {t : State σ}
    (hpasses : vm.Passes host text b c values t) :
    ∃ budget n xs vs s u, (∀ x ∈ xs, x.isStraight = true ∧ sizeOf x ≤ budget) ∧ sizeOf c ≤ n ∧
      before = Visits.statements xs ++ vs ∧ (∀ v ∈ vs, v.isQuiet = true) ∧
      Ran host budget text xs ((Bracket.scope true).enter vm.state) s ∧ s.LeftAlone u ∧
      argumentValues (Eval.run host n) text c.arguments u = (.ok values, t) ∧
      t.frames.all.size = vm.state.frames.all.size + 1 := by
  obtain ⟨budget, n, s, u, callee, hbudget, hn, hcomes, hcallee, harguments, hsize⟩ := hpasses
  obtain ⟨hlast, hstraight⟩ := hstraight
  rw [hlast] at hcomes
  obtain ⟨xs, x, ys, s₀, hxs, hran, hcomes⟩ := hcomes.exists_ran
  obtain ⟨front, ws, back, hws, ⟨kind, rfl⟩, -⟩ :=
    hcomes.among hhost.leavesNames
      (show (Stage.statement x).Visited s₀ (Visits.statement x) from rfl)
  obtain ⟨inside, hinside⟩ := Visits.exists_command_eq kind c
  have hstatement : Visits.statement x = (front ++ inside) ++ .review c :: back := by
    rw [hws, hinside]
    simp only [List.append_assoc, List.cons_append, List.nil_append]
  have hall := hstraight xs x ys hxs (hstatement ▸ List.mem_append_right _ List.mem_cons_self)
  have hx : x.isStraight = true := hall x (List.mem_append_right _ List.mem_cons_self)
  have hleft := (hcomes.leftAlone hhost (Statement.isInner_of_isStraight hx)).2
  have hbefore : ∀ y ∈ xs, y.isStraight = true ∧ sizeOf y ≤ budget := fun y hy =>
    ⟨hall y (List.mem_append_left _ hy), Nat.le_of_lt (Nat.lt_of_lt_of_le
      (sizeOf_lt_of_mem_body (hxs ▸ List.mem_append_left _ hy)) hbudget)⟩
  refine ⟨budget, n, xs, front ++ inside, s₀, u, hbefore, hn, ?_,
    Statement.quiet_before_review hx hstatement, hran,
    hleft.trans (leftAlone_calleeValue hhost hcallee), harguments, hsize⟩
  -- a command is reviewed once, so the walk and the run mean the same visit
  have hblock : Visits.block b = (Visits.statements xs ++ (front ++ inside)) ++
      .review c :: (back ++ Visits.statements ys) := by
    rw [Visits.block_eq, hlast, hxs, Visits.statements_append, Visits.statements, hstatement]
    simp only [Option.elim_none, List.append_assoc, List.cons_append, List.append_nil]
  obtain ⟨hbefore, hbehind⟩ := notMem_review_of_parse hb hvisits
  exact ((List.append_cons_inj_of_notMem hbefore hbehind).1 (hvisits.symm.trans hblock)).1

/-- **Help says only of arguments that they mismatch that do so in a run.** Let the commands of the
host have no side effects, let no tuple be held by a global or a variable, and let the shapes that
are declared for arguments be made of shapes, with literals that are no containers and with
predicates that do not see addresses. What help says to mismatch, at any caret, is an argument of a
command of the text. Let the caret not touch it, and let nothing but commands and assignments to
plain names come before in the text, with no lambda in them. Then whenever a run comes to this
command and passes values to it, without a lambda being called on the way, the value of this
argument does not match what is declared. -/
theorem Vm.mismatch_of_passes {host : Host σ} (hhost : host.Harmless) (vm : Vm σ)
    (hframes : vm.state.frames.Formed) (hscope : vm.state.scope < vm.state.frames.all.size)
    (hhoused : vm.state.Housed)
    (hshapes : ∀ (c : Command) index e s, c.Declares vm.globalShapes index e s →
      s.MadeOf (·.isContainer = false) Shape.TwinBlind)
    {text : String} {b : Block} (hb : (parse text Limit.nesting).block = some b)
    (caret : Int) (options : AssistOptions) {a : Assistance}
    (h : vm.assist text caret options = .ok a) :
    ∀ i ∈ a.issues, i.code = Issue.Kind.typeMismatch.code →
      ∃ c index e s, Visit.review c ∈ Visits.block b ∧ c.Declares vm.globalShapes index e s ∧
        i.span = e.span ∧
        (e.span.touches (max 0 (min caret text.toList.length)) = false → b.StraightTo c →
          ∀ values t, vm.Passes host text b c values t →
            ∃ w, values[index]? = some w ∧ s.matchWith t.heap true w = .ok none) := by
  intro i hi hcode
  obtain ⟨before, c, behind, f, hvisits, hwalk, index, e, s, hdeclares, hspan, g, v, g', hgrew,
    hknown, hmatch⟩ := Vm.located_of_assist h hb hi hcode
  refine ⟨c, index, e, s, hvisits ▸ List.mem_append_right _ List.mem_cons_self, hdeclares, hspan,
    fun htouches hstraight values t hpasses => ?_⟩
  replace hmatch : s.matchWith g' true v = .ok none := by
    have hexact : (!e.span.touches (max 0 (min caret text.toList.length))) = true := by
      rw [htouches]
      rfl
    exact hexact ▸ hmatch
  obtain ⟨budget, n, xs, vs, s₀, u, hxs, hn, rfl, hquiet, hran, hleft, harguments, hsize⟩ :=
    hpasses.exists_ran hhost hb hstraight hvisits
  obtain ⟨f₀, hwalk, hsame, hgrew₀⟩ := Walk.exists_visitAll_statements hquiet hwalk
  have hargument := hdeclares.getElem?_arguments
  obtain ⟨w, t₁, t₂, hw, hbefore, hrun, hafter⟩ :=
    exists_value_of_argumentValues hhost harguments hargument
  -- no frame is put up anywhere on the way
  have hstart : ((Bracket.scope true).enter vm.state).frames.all.size =
      vm.state.frames.all.size + 1 := by
    simp [Bracket.scope, Frames.child]
  have hle := hran.size_le hhost
  have hle₁ := (hleft.trans hbefore).size_le
  have hle₂ := (leftAlone_value hhost hrun).size_le
  have hle₃ := hafter.size_le
  have hto := (hleft.trans hbefore).undisturbed (by omega)
  have hfrom := hafter.undisturbed (by omega)
  -- what the walk knows has a twin in the run
  obtain ⟨T, hT⟩ := Remembers.start hframes hscope hhoused text.toList
    (max 0 (min caret text.toList.length)) options
  obtain ⟨U, hU⟩ := hran.remembers hhost hT hxs (by omega) hwalk
  have hsizeOf : sizeOf e < n :=
    Nat.lt_of_lt_of_le (sizeOf_lt_of_mem_arguments (List.mem_of_mem_filter
      (List.mem_of_getElem? hargument))) hn
  rw [hsame] at hknown
  obtain ⟨V, -, hV, hpair⟩ :=
    (hU.grow rfl (.refl _) hto).value (hgrew₀.trans hgrew) hknown hsizeOf hrun
  exact ⟨w, hw, (hshapes c index e s hdeclares).mismatch_of_twins
    (hV.grow (.refl _) hfrom.heap) hpair hmatch⟩

/-! ## The recording host -/

namespace Recorder

/-- A reply of the recording host that has no side effect. -/
abbrev Harmless (s : State Recorder) (reply : Reply Recorder) : Prop :=
  reply.Follows (fun _ => True) (fun s t => s.SameNames t ∧ s.heap.Grew t.heap) (fun _ => True) s

/-- What the host keeps for itself is no side effect. -/
theorem harmless_keeps (s : State Recorder) (host : Recorder) :
    s.SameNames { s with host } ∧ s.heap.Grew s.heap :=
  ⟨⟨rfl, rfl, rfl, rfl, rfl⟩, .refl s.heap⟩

theorem harmless_mapFrom (vector : Address) (f : Value) (rounds : Nat) (done : List Value)
    (s : State Recorder) : Harmless s (mapFrom vector f rounds done s) := by
  induction rounds generalizing done s with
  | zero => exact .crash trivial (harmless_keeps s s.host)
  | succ n ih =>
    unfold mapFrom
    split
    · exact .call trivial (harmless_keeps s s.host) trivial (fun _ _ => trivial)
        fun r t _ _ => ih (done ++ [r]) t
    · exact .value trivial ⟨⟨rfl, rfl, rfl, rfl, rfl⟩, .of_extends (.newVector s.heap done)⟩ trivial

/-- The commands of the recording host have no side effects. -/
theorem harmless_host (rounds : Nat) : (Recorder.host rounds).Harmless := by
  intro name arguments s
  change Harmless s (command rounds name arguments s)
  unfold command
  split
  all_goals try split
  case h_6 =>
    exact .value trivial ⟨⟨rfl, rfl, rfl, rfl, Heap.lambdas_newTuple _ _⟩,
      s.heap.grew_newTuple arguments⟩ trivial
  case h_7 =>
    exact .value trivial ⟨⟨rfl, rfl, rfl, rfl, rfl⟩, .of_extends (.newVector _ _)⟩ trivial
  case h_9.isTrue =>
    exact .call trivial (harmless_keeps s s.host) trivial (fun _ _ => trivial)
      fun v t _ _ => .value trivial (harmless_keeps t t.host) trivial
  case h_11.isTrue => exact harmless_mapFrom _ _ rounds [] s
  all_goals first
    | exact .crash trivial (harmless_keeps s s.host)
    | exact .value trivial (harmless_keeps s _) trivial

/-- The recording host holds nothing but commands at first. -/
theorem housed_ready : Recorder.ready.Housed := by
  refine ⟨⟨fun _ => False, fun _ => False, fun _ => False, fun _ => True⟩,
    ⟨nofun, nofun, fun _ => id⟩, fun name v hv => ?_, fun f name v hv => ?_⟩
  · obtain ⟨entry, hentry, rfl⟩ := Option.map_eq_some_iff.1 hv
    obtain ⟨command, -, rfl⟩ := List.mem_map.1 (List.mem_of_find?_eq_some hentry)
    trivial
  · cases f with
    | zero => cases hv
    | succ f => cases hv

end Recorder

/-- A run of a text that is a statement and then a command. -/
theorem steps_field :
    let host := Recorder.host 8
    let text := "$t = \x7ba = 1\x7d\nrecord $t.a"
    (match (parse text Limit.nesting).block with
      | some (.mk [x, .command c] none whole) =>
        let defined := Eval.statement host 3000 (Eval.run host 3000) text x
          ((Bracket.scope true).enter Recorder.ready)
        let found := Eval.calleeValue host (Eval.run host 3000) text c.callee defined.2
        let passed := Eval.argumentValues (Eval.run host 3000) text c.arguments found.2
        decide (sizeOf (Block.mk [x, .command c] none whole) ≤ 3000) &&
          (Block.mk [x, .command c] none whole).isStraight &&
          (Visits.block (.mk [x, .command c] none whole)).dropLast.all (·.reviewed?.isNone) &&
          defined.1.toOption.any (fun _ => true) && defined.2.pending.isNone &&
          found.1.toOption.any (fun _ => true) && passed.1.toOption.any (fun _ => true) &&
          decide (passed.2.frames.all.size = 2)
      | _ => false) = true := by
  decide +kernel

/-- An argument has to be a string, and it is a field that is a number. -/
theorem Vm.mismatch_of_passes_field :
    let host := Recorder.host 8
    let string : Shape :=
      .strange "string" (some (.predicate fun _ v => v.kind == .string)) none none
    let record : CommandShape := .mk "record" none [.mk "what" "" (some string) false]
    let vm : Vm Recorder :=
      { state := Recorder.ready, globalShapes := ⟨[("record", ⟨.command record, 0⟩)]⟩ }
    let text := "$t = \x7ba = 1\x7d\nrecord $t.a"
    ∃ b a c index e s values t w, (parse text Limit.nesting).block = some b ∧
      b.isStraight = true ∧ vm.assist text 0 = .ok a ∧
      (∃ i ∈ a.issues, i.code = Issue.Kind.typeMismatch.code ∧ i.span = e.span) ∧
      c.Declares vm.globalShapes index e s ∧ vm.Passes host text b c values t ∧
      values[index]? = some w ∧ s.matchWith t.heap true w = .ok none := by
  intro host string record vm text
  have hstring : string.MadeOf (·.isContainer = false) Shape.TwinBlind := by
    refine .strange (by simp) fun holds hmem => ?_
    obtain rfl : (fun _ v => v.kind == .string) = holds := by simpa using hmem
    exact fun _ _ _ _ _ _ hv => congrArg (· == ValueKind.string) hv.kind_eq
  have hshapes : ∀ (c : Command) index e s, c.Declares vm.globalShapes index e s →
      s.MadeOf (·.isContainer = false) Shape.TwinBlind := by
    rintro c index e s ⟨name, shared, command, spec, -, hshared, hcommand, hspec, hs, -⟩
    obtain ⟨entry, hentry, rfl⟩ := Option.map_eq_some_iff.1 hshared
    obtain rfl := List.mem_singleton.1 (List.mem_of_find?_eq_some hentry)
    cases hcommand
    cases index with
    | zero =>
      cases hspec
      cases hs
      exact hstring
    | succ index => cases hspec
  obtain ⟨a, ha, hissue⟩ := exists_eq_ok_of_any (show (vm.assist text 0).toOption.any
    (fun a => a.issues.any fun i => decide (i.code = Issue.Kind.typeMismatch.code) &&
      !i.span.touches 0) = true by decide +kernel)
  obtain ⟨i, hi, hcode⟩ := List.any_eq_true.1 hissue
  obtain ⟨hcode, htouches⟩ := Bool.and_eq_true_iff.1 hcode
  have hsteps := steps_field
  dsimp only at hsteps
  split at hsteps
  case h_2 => cases hsteps
  case h_1 x c whole hb =>
    simp only [Bool.and_eq_true, decide_eq_true_eq] at hsteps
    obtain ⟨⟨⟨⟨⟨⟨⟨hbudget, hstraight⟩, hfirst⟩, hdefined⟩, hpending⟩, hfound⟩, hpassed⟩, hsize⟩ :=
      hsteps
    obtain ⟨values, hdefined, -⟩ := exists_of_any hdefined
    obtain ⟨callee, hfound, -⟩ := exists_of_any hfound
    obtain ⟨passed, hpassed, -⟩ := exists_of_any hpassed
    have hcomes : Point.ComesTo host text
        ⟨3000, .statements none [x, .command c], (Bracket.scope true).enter vm.state⟩
        ⟨3000, .command c, _⟩ :=
      .head (.statements hdefined (Option.isNone_iff_eq_none.1 hpending)) <| .head .statement <|
        .single .command
    have hsizes : sizeOf c ≤ 3000 := by
      simp only [Block.mk.sizeOf_spec, List.cons.sizeOf_spec, Statement.command.sizeOf_spec]
        at hbudget
      omega
    have hpasses : vm.Passes host text _ c passed _ :=
      ⟨3000, 3000, _, _, callee, hbudget, hsizes, hcomes, hfound, hpassed, hsize⟩
    obtain ⟨c', index, e, s, hreview, hdeclares, hspan, hmismatch⟩ :=
      vm.mismatch_of_passes (Recorder.harmless_host 8) Frames.formed_first (by decide)
        Recorder.housed_ready hshapes hb 0 {} ha i hi (of_decide_eq_true hcode)
    -- there is one command in the text
    obtain ⟨inside, hinside⟩ := Visits.exists_command_eq none c
    have hvisits : Visits.block (.mk [x, .command c] none whole) =
        (Visits.statement x ++ inside) ++ [.review c] := by
      rw [Visits.block, Visits.statements, Visits.statements, Visits.statements,
        Visits.statement.eq_1, hinside, List.append_nil, List.append_assoc]
    rw [hvisits, List.dropLast_concat] at hfirst
    rw [hvisits] at hreview
    obtain hreview | hreview := List.mem_append.1 hreview
    · cases List.all_eq_true.1 hfirst _ hreview
    obtain rfl : c' = c := Visit.review.inj (List.mem_singleton.1 hreview)
    rw [hspan] at htouches
    obtain ⟨w, hw, hmatch⟩ := hmismatch (by simpa using htouches)
      (Block.straightTo_of_isStraight hstraight c') passed _ hpasses
    exact ⟨_, a, c', index, e, s, passed, _, w, hb, hstraight, ha,
      ⟨i, hi, of_decide_eq_true hcode, hspan⟩, hdeclares, hpasses, hw, hmatch⟩

end CommandScript
