import CommandScript.Proofs.Lookup
import CommandScript.Proofs.Mismatches
import CommandScript.Proofs.Undisturbed
/-!
# CommandScript — what the walk remembers is so in a run

The walk and a run go through a straight text side by side: commands, and assignments to
plain names. Where the walk knows the value of a variable, the variable has a twin of this
value in the run (`Remembers`). It is only a twin, for the walk computes values that the run
never makes, when it looks over arguments, and the run makes values that the walk does not
know of.

One statement keeps this up (`Remembers.statement`), and so do statements in order
(`Remembers.along`). A command cannot break it, as long as the host does no harm and no lambda
is called.
-/

namespace CommandScript

open Eval

variable {σ : Type}

/-! ## Lookups -/

theorem Frames.get_assign_self {fs : Frames} (hfs : fs.Formed) {id : FrameId}
    (hid : id < fs.all.size) (name : String) (v : Value) :
    (fs.assign id name v).get id name = v := by
  obtain ⟨inner, outer, hhome⟩ := Frames.exists_home fs id name
  have hwrote := Frames.wrote_set (hfs.home_lt hid hhome) name v
  rw [Frames.get_eq_lookup?, Frames.assign, hwrote.lookup?_home hfs hhome]
  rfl

theorem Frames.get_assign_of_ne {fs : Frames} (hfs : fs.Formed) {id : FrameId}
    (hid : id < fs.all.size) {name other : String} (hne : other ≠ name) (v : Value) :
    (fs.assign id name v).get id other = fs.get id other := by
  obtain ⟨inner, outer, hhome⟩ := Frames.exists_home fs id name
  have hwrote := Frames.wrote_set (hfs.home_lt hid hhome) name v
  exact (Frames.reads_eq (hwrote.lookup?_of_ne hne id)).2

namespace Walk

variable {frames : List (Names Known)} {name : String}

theorem findSome?_insert_cons (vars : Names Known) (rest : List (Names Known)) (name : String)
    (v : Known) (other : String) : (vars.insert name v :: rest).findSome? (·.get? other) =
      if other = name then some v else (vars :: rest).findSome? (·.get? other) := by
  rw [List.findSome?_cons, List.findSome?_cons, Names.get?_insert]
  by_cases heq : other = name
  · rw [if_pos heq, if_pos heq]
  · rw [if_neg heq, if_neg heq]

theorem findSome?_modify {i : Nat} (hi : frames.findIdx? (·.has name) = some i) (v : Known)
    (other : String) : (frames.modify i (·.insert name v)).findSome? (·.get? other) =
      if other = name then some v else frames.findSome? (·.get? other) := by
  induction frames generalizing i with
  | nil => cases hi
  | cons vars rest ih =>
    rw [List.findIdx?_cons] at hi
    cases hhas : vars.has name with
    | true =>
      rw [hhas] at hi
      cases hi
      rw [List.modify_zero_cons]
      exact findSome?_insert_cons vars rest name v other
    | false =>
      rw [hhas] at hi
      obtain ⟨j, hj, rfl⟩ := Option.map_eq_some_iff.1 hi
      rw [List.modify_succ_cons, List.findSome?_cons, List.findSome?_cons, ih hj]
      by_cases heq : other = name
      · have hnone : vars.get? other = none := by simpa [Names.has, heq] using hhas
        rw [hnone]
      · rw [if_neg heq, if_neg heq]

/-- What is known behind an assignment. -/
theorem findSome?_defineIn (hframes : frames ≠ []) (name : String) (v : Known) (other : String) :
    (defineIn name v frames).findSome? (·.get? other) =
      if other = name then some v else frames.findSome? (·.get? other) := by
  unfold defineIn
  split
  · next i hi => exact findSome?_modify hi v other
  · obtain ⟨vars, rest, rfl⟩ := List.exists_cons_of_ne_nil hframes
    rw [List.modify_zero_cons]
    exact findSome?_insert_cons vars rest name v other

theorem defineIn_ne_nil (hframes : frames ≠ []) (name : String) (v : Known) :
    defineIn name v frames ≠ [] := by
  obtain ⟨vars, rest, rfl⟩ := List.exists_cons_of_ne_nil hframes
  unfold defineIn
  split
  · next i hi =>
    cases i with
    | zero => exact List.cons_ne_nil _ _
    | succ i => exact List.cons_ne_nil _ _
  · exact List.cons_ne_nil _ _

end Walk

/-- Every variable of known value is given another one. -/
def Surround.replaced (s : Surround) (value : String → Value) : Surround :=
  { s with frames := s.frames.map fun vars =>
      ⟨vars.entries.map fun e => (e.1, e.2.map fun _ => value e.1)⟩ }

theorem Surround.find?_replaced (s : Surround) (value : String → Value) (name : String) :
    (s.replaced value).find? name = (s.find? name).map (·.map fun _ => value name) := by
  have hvars (vars : Names Known) : (Names.mk (vars.entries.map fun e =>
      (e.1, e.2.map fun _ => value e.1))).get? name =
        (vars.get? name).map (·.map fun _ => value name) := by
    obtain ⟨es⟩ := vars
    unfold Names.get?
    induction es with
    | nil => rfl
    | cons e rest ih =>
      rw [List.map_cons, List.find?_cons, List.find?_cons]
      cases he : e.1 == name with
      | true =>
        obtain rfl := beq_iff_eq.1 he
        rfl
      | false => exact ih
  unfold find? replaced
  induction s.frames with
  | nil => rfl
  | cons vars rest ih =>
    rw [List.map_cons, List.findSome?_cons, List.findSome?_cons, hvars]
    cases vars.get? name with
    | none => exact ih
    | some k => rfl

/-! ## What is remembered -/

/-- The globals of a run are those that the walk knows of, and where the walk knows the value
of a variable, the variable has a twin of it in the run. -/
structure Remembers (T : Twins) (ctx : AssistContext) (f : Findings) (s : State σ) : Prop where
  between : T.Between f.heap s.heap
  globals : ctx.globals = s.globals
  global : ∀ name v, ctx.globals.get? name = some v → T.Pairs v v
  var : ∀ name v, f.frames.findSome? (·.get? name) = some (some v) →
    T.Pairs v (s.frames.get s.scope name)
  inner : f.frames ≠ []
  formed : s.frames.Formed
  scope : s.scope < s.frames.all.size

namespace Remembers

variable {T U : Twins} {ctx : AssistContext} {f f' : Findings} {s t : State σ} {v w : Value}

/-- Nothing is disturbed, and there are more twins. -/
theorem later (hf : Remembers T ctx f s) (hTU : T.Sub U) (hframes : f'.frames = f.frames)
    (hU : U.Between f'.heap t.heap) (hst : s.Undisturbed t) : Remembers U ctx f' t where
  between := hU
  globals := hf.globals.trans hst.globals.symm
  global name v hv := (hf.global name v hv).mono hTU
  var name v hv := by
    rw [hframes] at hv
    rw [hst.frames, hst.scope]
    exact (hf.var name v hv).mono hTU
  inner := hframes ▸ hf.inner
  formed := hst.frames ▸ hf.formed
  scope := by
    rw [hst.frames, hst.scope]
    exact hf.scope

theorem grow (hf : Remembers T ctx f s) (hframes : f'.frames = f.frames)
    (hgrew : f.heap.Grew f'.heap) (hst : s.Undisturbed t) : Remembers T ctx f' t :=
  hf.later (.refl T) hframes (hf.between.grow hgrew hst.heap) hst

/-- **A value that the walk knows comes out in the run**, as a twin. -/
theorem value (hf : Remembers T ctx f s) {e : Expression} {h g : Heap} (hgrew : f.heap.Grew h)
    (hv : Static.value (ctx.around f.frames) e h = .ok (some v, g)) {host : Host σ} {n : Nat}
    {source : String} (hsize : sizeOf e < n)
    (hw : run host n source (.value e) s = (.ok w, t)) :
    ∃ U, T.Sub U ∧ U.Between g t.heap ∧ U.Pairs v w := by
  let known := (ctx.around f.frames).replaced (s.frames.get s.scope)
  have hfind (name : String) : known.find? name =
      (f.frames.findSome? (·.get? name)).map (·.map fun _ => s.frames.get s.scope name) :=
    Surround.find?_replaced _ _ name
  have hpairs : (ctx.around f.frames).Pairs T known := by
    refine ⟨rfl, hf.global, fun name v hv => ?_⟩
    unfold Surround.lookup at hv ⊢
    change (f.frames.findSome? (·.get? name)).getD none = some v at hv
    rw [hfind]
    cases hname : f.frames.findSome? (·.get? name) with
    | none =>
      rw [hname] at hv
      cases hv
    | some k =>
      rw [hname] at hv
      obtain rfl : k = some v := hv
      exact ⟨_, rfl, hf.var name v hname⟩
  have hmatches : known.Matches s := by
    refine ⟨hf.globals, fun name v hv => ?_⟩
    rw [hfind] at hv
    obtain ⟨k, -, hk⟩ := Option.map_eq_some_iff.1 hv
    obtain ⟨_, -, rfl⟩ := Option.map_eq_some_iff.1 hk
    rfl
  obtain ⟨k, g', U, hk, hTU, hU, v', rfl, hpair⟩ :=
    Twins.gives_value e (hf.between.grow hgrew (.refl _)) hpairs hv
  obtain ⟨hrun, -⟩ := givesKnown_run host known source n e hsize s v' g' hmatches hk
  rw [hrun] at hw
  cases hw
  exact ⟨U, hTU, hU, hpair⟩

/-- Behind an assignment, the name has a value that is known, if one is. -/
theorem assign (hf : Remembers T ctx f s) (name : String) {k : Known}
    (hk : ∀ v, k = some v → T.Pairs v w) :
    Remembers T ctx { f with frames := Walk.defineIn name k f.frames }
      { s with frames := s.frames.assign s.scope name w } where
  between := hf.between
  globals := hf.globals
  global := hf.global
  var other v hv := by
    rw [Walk.findSome?_defineIn hf.inner] at hv
    split at hv
    · next heq =>
      rw [heq]
      dsimp only
      rw [Frames.get_assign_self hf.formed hf.scope]
      exact hk v (Option.some.inj hv)
    · next hne =>
      dsimp only
      rw [Frames.get_assign_of_ne hf.formed hf.scope hne]
      exact hf.var other v hv
  inner := Walk.defineIn_ne_nil hf.inner name k
  formed := hf.formed.assign _ _ _
  scope := by
    simpa [Frames.assign, Frames.set, Frames.setVars] using hf.scope

end Remembers

/-! ## Straight texts -/

/-- A command, or an assignment to a plain name, without a lambda in it. -/
def Statement.isStraight : Statement → Bool
  | .command c => (Visits.command none c).all (·.isQuiet)
  | .call c => (Visits.call c).all (·.isQuiet)
  | .expression e => (Visits.expression e).all (·.isQuiet)
  | .assign (.mk r [] _) _ e _ =>
    (Walk.assignedToken? r).isSome && (Visits.optional e).all (·.isQuiet)
  | _ => false

/-- A text of commands and of assignments to plain names. -/
def Block.isStraight (b : Block) : Bool := b.last.isNone && b.body.all (·.isStraight)

namespace Statement

variable {x : Statement}

/-- What is assigned to a plain name is walked over before the name comes into sight. -/
theorem visits_assign {r : VarRoot} {whole span : Span} {equals : Token} {e : Option Expression}
    {t : Token} (ht : Walk.assignedToken? r = some t) :
    Visits.statement (.assign (.mk r [] whole) equals e span) =
      Visits.optional e ++ [.target r] ++ [.define r e] := by
  have hroot : Visits.computedRoot r = [] := by
    cases r with
    | bare | named => simp only [Visits.computedRoot]
    | computed => cases ht
  simp only [Visits.statement, Visits.target, hroot, List.append_assoc, List.cons_append,
    List.nil_append]

/-- All visits to a straight statement are quiet, but for the last one of an assignment. -/
theorem quiet_of_isStraight (hx : x.isStraight = true) :
    ∀ v ∈ (Visits.statement x).dropLast, v.isQuiet = true := by
  have hall {vs : List Visit} (h : vs.all (·.isQuiet) = true) :
      ∀ v ∈ vs.dropLast, v.isQuiet = true :=
    fun v hv => List.all_eq_true.1 h v (List.dropLast_subset _ hv)
  unfold isStraight at hx
  split at hx
  · rw [Visits.statement]
    exact hall hx
  · rw [Visits.statement]
    exact hall hx
  · rw [Visits.statement]
    exact hall hx
  · obtain ⟨ht, hquiet⟩ := Bool.and_eq_true_iff.1 hx
    obtain ⟨t, ht⟩ := Option.isSome_iff_exists.1 ht
    rw [visits_assign ht, List.dropLast_concat]
    intro v hv
    obtain hv | hv := List.mem_append.1 hv
    · exact List.all_eq_true.1 hquiet v hv
    · obtain rfl := List.mem_singleton.1 hv
      rfl
  · cases hx

theorem isInner_of_isStraight (hx : x.isStraight = true) :
    (Stage.statement x).isInner = true := by
  unfold isStraight at hx
  split at hx <;> first | rfl | cases hx

end Statement

theorem rootName_of_assignedToken {self : String → (t : Task σ) → Exec σ t.Result}
    {source : String} {r : VarRoot} {t : Token} (ht : Walk.assignedToken? r = some t) :
    rootName self source r = pure t.text := by
  cases r with
  | bare => cases ht; rfl
  | named dollar name span =>
    obtain rfl : name = some t := ht
    rfl
  | computed => cases ht

/-! ## Side by side -/

namespace Remembers

variable {T : Twins} {ctx : AssistContext} {f f' : Findings} {s t : State σ}
variable {host : Host σ} {n : Nat} {source : String}

/-- **One statement** of a straight text keeps up what is remembered. -/
theorem statement (hf : Remembers T ctx f s) (hhost : host.Harmless) {x : Statement}
    (hx : x.isStraight = true) (hsize : sizeOf x ≤ n) {values : Option (List Value)}
    (hrun : Eval.statement host n (run host n) source x s = (.ok values, t))
    (hframes : t.frames.all.size = s.frames.all.size)
    (hwalk : Walk.visitAll ctx (Visits.statement x) f = (.ok (), f')) :
    ∃ U, Remembers U ctx f' t := by
  have hquiet {vs : List Visit} (h : vs.all (·.isQuiet) = true)
      (hwalk : Walk.visitAll ctx vs f = (.ok (), f')) (hst : s.LeftAlone t) :
      ∃ U, Remembers U ctx f' t := by
    obtain ⟨hsame, hgrew⟩ := Walk.grew_of_visitAll (List.all_eq_true.1 h) hwalk
    exact ⟨T, hf.grow hsame hgrew (hst.undisturbed hframes)⟩
  unfold Statement.isStraight at hx
  split at hx
  · rw [Visits.statement] at hwalk
    exact hquiet hx hwalk (leftAlone_command hhost hrun)
  · rw [Visits.statement] at hwalk
    exact hquiet hx hwalk (leftAlone_call hhost hrun)
  · rw [Visits.statement] at hwalk
    obtain ⟨v, u, hv, hpure⟩ := Exec.bind_eq_ok hrun
    cases hpure
    exact hquiet hx hwalk (leftAlone_value hhost hv)
  · next r whole equals e span =>
    obtain ⟨ht, hall⟩ := Bool.and_eq_true_iff.1 hx
    obtain ⟨token, ht⟩ := Option.isSome_iff_exists.1 ht
    obtain ⟨w, u, hw, hrun⟩ := Exec.bind_eq_ok hrun
    obtain ⟨⟨⟩, z, hassign, hpure⟩ := Exec.bind_eq_ok hrun
    cases hpure
    obtain ⟨e, rfl, hw⟩ := exists_of_required hw
    change (rootName (run host n) source r >>= _) u = _ at hassign
    rw [rootName_of_assignedToken ht] at hassign
    cases hassign
    have hsize : sizeOf e < n := by
      simp only [Statement.assign.sizeOf_spec, Option.some.sizeOf_spec] at hsize
      omega
    have hsame : u.frames.all.size = s.frames.all.size := by
      simpa [Frames.assign, Frames.set, Frames.setVars] using hframes
    have hsu := (leftAlone_value hhost hw).undisturbed hsame
    -- the walk looks the value over, and then it computes it
    rw [Statement.visits_assign ht, Walk.visitAll_append, Walk.apply_bind] at hwalk
    rcases hbefore : Walk.visitAll ctx (Visits.optional (some e) ++ [.target r]) f with
      ⟨c | ⟨⟩, f₁⟩ <;> rw [hbefore] at hwalk
    · cases hwalk
    · have hvisits : ∀ v ∈ Visits.optional (some e) ++ [.target r], v.isQuiet = true := by
        refine List.forall_mem_append.2 ⟨List.all_eq_true.1 hall, fun v hv => ?_⟩
        obtain rfl := List.mem_singleton.1 hv
        rfl
      obtain ⟨hframes₁, hgrew₁⟩ := Walk.grew_of_visitAll hvisits hbefore
      dsimp only at hwalk
      rw [Walk.visitAll_singleton, Walk.visit, Walk.apply_define ht, Static.valueOptional] at hwalk
      rcases hv : Static.value (ctx.around f₁.frames) e f₁.heap with c | ⟨_ | v, g⟩ <;>
        rw [hv] at hwalk <;> cases hwalk
      · have hnext : Remembers T ctx { f₁ with heap := g } u :=
          hf.grow hframes₁ (hgrew₁.trans (Walk.grew_of_value hv)) hsu
        exact ⟨T, hnext.assign token.text fun v hv => by cases hv⟩
      · have hv' := hv
        rw [hframes₁] at hv'
        obtain ⟨U, hTU, hU, hpair⟩ := hf.value hgrew₁ hv' hsize hw
        have hnext : Remembers U ctx { f₁ with heap := g } u := hf.later hTU hframes₁ hU hsu
        refine ⟨U, hnext.assign token.text fun v' hv' => ?_⟩
        cases hv'
        exact hpair
  · cases hx

end Remembers

/-- Statements are run one after the other, and nothing leaves them. -/
inductive Ran (host : Host σ) (n : Nat) (source : String) :
    List Statement → State σ → State σ → Prop where
  | nil {s : State σ} : Ran host n source [] s s
  | cons {x : Statement} {xs : List Statement} {values : Option (List Value)} {s t u : State σ} :
      Eval.statement host n (run host n) source x s = (.ok values, t) →
      Ran host n source xs t u → Ran host n source (x :: xs) s u

namespace Ran

variable {host : Host σ} {n : Nat} {source : String} {xs : List Statement} {s t : State σ}

theorem size_le (hhost : host.Harmless) (h : Ran host n source xs s t) :
    s.frames.all.size ≤ t.frames.all.size := by
  induction h with
  | nil => exact Nat.le_refl _
  | cons hx _ ih => exact Nat.le_trans (size_le_of_statement hhost hx) ih

/-- **Statements in order** keep up what is remembered. -/
theorem remembers (hhost : host.Harmless) (h : Ran host n source xs s t) {T : Twins}
    {ctx : AssistContext} {f f' : Findings} (hf : Remembers T ctx f s)
    (hxs : ∀ x ∈ xs, x.isStraight = true ∧ sizeOf x ≤ n)
    (hframes : t.frames.all.size = s.frames.all.size)
    (hwalk : Walk.visitAll ctx (Visits.statements xs) f = (.ok (), f')) :
    ∃ U, Remembers U ctx f' t := by
  induction h generalizing T f with
  | nil =>
    rw [Visits.statements] at hwalk
    cases hwalk
    exact ⟨T, hf⟩
  | cons hx hrest ih =>
    obtain ⟨⟨hstraight, hsize⟩, hxs⟩ := List.forall_mem_cons.1 hxs
    have hle := size_le_of_statement hhost hx
    have hle' := hrest.size_le hhost
    rw [Visits.statements, Walk.visitAll_append, Walk.apply_bind] at hwalk
    rcases hfirst : Walk.visitAll ctx (Visits.statement _) f with ⟨c | ⟨⟩, f₁⟩ <;>
      rw [hfirst] at hwalk
    · cases hwalk
    · obtain ⟨U, hU⟩ := hf.statement hhost hstraight hsize hx
        (Nat.le_antisymm (hframes ▸ hle') hle) hfirst
      exact ih hU hxs (Nat.le_antisymm (hframes.trans_le hle) hle') hwalk

end Ran

/-- A run that comes to a command has run the statements before, and is in one statement. -/
theorem Point.ComesTo.exists_ran {host : Host σ} {source : String} {n m : Nat} {c : Command}
    {xs : List Statement} {s u : State σ}
    (h : Point.ComesTo host source ⟨n, .statements none xs, s⟩ ⟨m, .command c, u⟩) :
    ∃ before x behind t, xs = before ++ x :: behind ∧ Ran host n source before s t ∧
      Point.ComesTo host source ⟨n, .statement x, t⟩ ⟨m, .command c, u⟩ := by
  generalize hp : (⟨n, .statements none xs, s⟩ : Point σ) = p at h
  induction h using Relation.ReflTransGen.head_induction_on generalizing xs s with
  | refl => cases hp
  | head hstep hrest ih =>
    subst hp
    cases hstep with
    | statement => exact ⟨[], _, _, s, rfl, .nil, hrest⟩
    | statements hx _ =>
      obtain ⟨before, x, behind, t, rfl, hran, hcomes⟩ := ih rfl
      exact ⟨_ :: before, x, behind, t, rfl, .cons hx hran, hcomes⟩

end CommandScript
