import CommandScript.Proofs.Path
import CommandScript.Vm
/-!
# CommandScript — crashes that leave a run

An error inside a run is meant to end it with a failure. Where the run comes to an
operation that crashes, it does not: zero is raised to a negative power, a whole number
with too many digits is to be named in a message, or a `for` counts up to a whole number
that is beyond the largest `Float`.

Nothing else gets out. A run that crashes has come to such an operation, whatever the
text, the state and the host are (`Comes`): a crash is traced back through the stages,
down to the operation it began with.
-/

namespace CommandScript

open Exec Eval

variable {σ : Type} {host : Host σ} {n : Nat} {source : String} {s : State σ} {c : Crash}

/-- A stage comes to an operation that crashes. -/
def Comes (host : Host σ) (n : Nat) (source : String) (stage : Stage) (s : State σ) (c : Crash) :
    Prop :=
  ∃ op t, Meets host n source stage s op t ∧ op.Crashes t.heap c

/-- A stage comes to all that is met from a stage on its way. -/
theorem Comes.before {m : Nat} {source' : String} {stage stage' : Stage} {t : State σ}
    (h : Comes host n source stage s c)
    (hm : ∀ {op u}, Meets host n source stage s op u → Meets host m source' stage' t op u) :
    Comes host m source' stage' t c := by
  obtain ⟨op, u, hmeets, hcrashes⟩ := h
  exact ⟨op, u, hm hmeets, hcrashes⟩

/-- Under a budget, the crash of whatever is asked for can be traced back. -/
structure Traced (host : Host σ) (n : Nat) (c : Crash) : Prop where
  value {source s e} : (run host n source (.value e)).Crashes s c →
    Comes host n source (.value e) s c
  body {source s b} : (run host n source (.body b)).Crashes s c →
    Comes host n source (.body b) s c
  call {source s a arguments loop} : (run host n source (.call a arguments loop)).Crashes s c →
    Comes host n source (.call a arguments loop) s c

section Stages

variable (hn : Traced host n c) (hc : c ≠ .endless)
include hn

/-! ## Items, fields and arguments -/

theorem comes_items {is : Separated Expression}
    (h : (itemValues (run host n) source is).Crashes s c) :
    Comes host n source (.items is) s c := by
  induction is generalizing s with
  | nil => exact absurd h not_crashes_pure
  | cons i rest ih =>
    obtain h | ⟨v, u, hv, h⟩ := crashes_bind_iff.1 h
    · obtain ⟨e, he, h⟩ := exists_of_required_crashes h
      exact (hn.value h).before (.item he)
    · obtain ⟨e, he, hv⟩ := exists_of_required hv
      exact (ih ((crashes_bind fun _ _ => not_crashes_pure).1 h)).before (.items he hv)

theorem comes_fieldKey {position : Int} {t : Table Value} {i : SeparatedItem TableField}
    {rest : Separated TableField} {f : TableField} (hi : i.value = some f)
    (h : (Eval.fieldKey (run host n) source position f).Crashes s c) :
    Comes host n source (.fields position t (i :: rest)) s c := by
  cases f with
  | named name equals e span => exact absurd h not_crashes_pure
  | keyed brackets key equals e span =>
    have hkey := (crashes_bind fun _ _ => not_tableKey_crashes).1 h
    obtain ⟨e, rfl, hkey⟩ := exists_of_required_crashes hkey
    exact (hn.value hkey).before (.fieldKey hi)
  | positional e span => exact absurd h not_crashes_pure

theorem comes_fields {position : Int} {t : Table Value} {fs : Separated TableField}
    (h : (fieldEntries (run host n) source position t fs).Crashes s c) :
    Comes host n source (.fields position t fs) s c := by
  induction fs generalizing position t s with
  | nil => exact absurd h not_crashes_pure
  | cons i rest ih =>
    cases hi : i.value with
    | none =>
      simp only [fieldEntries, hi] at h
      exact (ih h).before (.noField hi)
    | some f =>
      simp only [fieldEntries, hi] at h
      obtain h | ⟨k, u, hk, h⟩ := crashes_bind_iff.1 h
      · exact comes_fieldKey hn hi h
      · obtain h | ⟨v, w, hv, h⟩ := crashes_bind_iff.1 h
        · obtain ⟨e, he, h⟩ := exists_of_required_crashes h
          exact (hn.value h).before (.fieldValue hi hk he)
        · obtain ⟨e, he, hv⟩ := exists_of_required hv
          refine (ih ?_).before (.fields hi hk he hv)
          cases f <;> cases v <;> exact h

theorem comes_arguments {es : List Expression}
    (h : (argumentValues (run host n) source es).Crashes s c) :
    Comes host n source (.arguments es) s c := by
  induction es generalizing s with
  | nil => exact absurd h not_crashes_pure
  | cons e rest ih =>
    cases he : e.isEmptyGroup with
    | true =>
      simp only [argumentValues, he] at h
      exact (ih h).before (.noArgument he)
    | false =>
      simp only [argumentValues, he] at h
      obtain h | ⟨v, u, hv, h⟩ := crashes_bind_iff.1 h
      · exact (hn.value h).before (.argument he)
      · exact (ih ((crashes_bind fun _ _ => not_crashes_pure).1 h)).before (.arguments he hv)

/-! ## Variables -/

theorem comes_root {r : VarRoot} (h : (rootName (run host n) source r).Crashes s c) :
    Comes host n source (.root r) s c := by
  cases r with
  | bare t => exact absurd h not_crashes_pure
  | named dollar name span =>
    cases name with
    | none => exact absurd h not_crashes_fail
    | some t => exact absurd h not_crashes_pure
  | computed dollar brackets e span =>
    have hname : (required (run host n) source e span).Crashes s c := by
      refine (crashes_bind fun v t => ?_).1 h
      split
      · exact not_crashes_pure
      · exact not_crashes_fail
    obtain ⟨x, rfl, hname⟩ := exists_of_required_crashes hname
    exact (hn.value hname).before .root

theorem comes_key {x : VarSuffix} (h : (suffixKey (run host n) source x).Crashes s c) :
    Comes host n source (.key x) s c := by
  cases x with
  | field period name span =>
    cases name with
    | none => exact absurd h not_crashes_fail
    | some t => exact absurd h not_crashes_pure
  | index period brackets e span =>
    obtain ⟨x, rfl, h⟩ := exists_of_required_crashes h
    exact (hn.value h).before .key

include hc

theorem comes_steps {xs : List VarSuffix} {v : Value}
    (h : (followSuffixes host (run host n) source xs v).Crashes s c) :
    Comes host n source (.steps xs v) s c := by
  induction xs generalizing v s with
  | nil => exact absurd h not_crashes_pure
  | cons x rest ih =>
    obtain h | ⟨k, u, hk, h⟩ := crashes_bind_iff.1 h
    · exact (comes_key hn h).before .stepKey
    · obtain h | ⟨w, y, hw, h⟩ := crashes_bind_iff.1 h
      · exact ⟨_, _, .read hk, (read_crashes hc).1 h⟩
      · exact (ih h).before (.steps hk hw)

theorem comes_chain {v : Var} (h : (varValue host (run host n) source v).Crashes s c) :
    Comes host n source (.chain v) s c := by
  obtain h | ⟨r, u, hr, h⟩ := crashes_bind_iff.1 h
  · exact (comes_root hn (rootValue_crashes.1 h)).before .chainRoot
  · exact (comes_steps hn hc h).before (.chainSteps hr)

theorem comes_assign {v : Var} {value : Value}
    (h : (Eval.assign host (run host n) source v value).Crashes s c) :
    Comes host n source (.assign v value) s c := by
  cases hlast : v.suffixes.getLast? with
  | none =>
    simp only [Eval.assign, hlast] at h
    exact (comes_root hn ((crashes_bind fun _ _ => not_crashes_modify).1 h)).before .targetRoot
  | some last =>
    have hne : v.suffixes ≠ [] := by
      rintro hnil
      simp [hnil] at hlast
    simp only [Eval.assign, hlast] at h
    obtain h | ⟨r, u, hr, h⟩ := crashes_bind_iff.1 h
    · exact (comes_root hn (rootValue_crashes.1 h)).before .targetRoot
    · obtain h | ⟨container, w, hw, h⟩ := crashes_bind_iff.1 h
      · exact (comes_steps hn hc h).before (.targetSteps hne hr)
      · obtain h | ⟨k, t, hk, h⟩ := crashes_bind_iff.1 h
        · exact (comes_key hn h).before (.targetKey hlast hr hw)
        · exact ⟨_, _, .write hlast hr hw hk, (write_crashes hc).1 h⟩

/-! ## Calls -/

theorem comes_command {x : Command} (h : (Eval.command host (run host n) source x).Crashes s c) :
    Comes host n source (.command x) s c := by
  obtain h | ⟨v, u, hv, h⟩ := crashes_bind_iff.1 h
  · exact (comes_chain hn hc (calleeValue_crashes.1 h)).before .callee
  · obtain h | ⟨vs, w, hvs, h⟩ := crashes_bind_iff.1 h
    · exact (comes_arguments hn h).before (.given hv)
    · split at h
      · by_cases hlambda : ∃ a, v = .lambda a
        · obtain ⟨a, rfl⟩ := hlambda
          exact (hn.call (invoke_lambda_crashes.1 h)).before (.invoke hv hvs)
        · exact absurd h (not_invoke_crashes fun a ha => hlambda ⟨a, ha⟩)
      · split at h
        · exact absurd h not_crashes_pure
        · exact absurd h not_crashes_fail

theorem comes_behind {x : Call} (h : (Eval.call host (run host n) source x).Crashes s c) :
    Comes host n source (.behind x) s c := by
  cases hx : x.command with
  | none =>
    simp only [Eval.call, hx] at h
    exact absurd h not_crashes_fail
  | some d =>
    simp only [Eval.call, hx] at h
    exact (comes_command hn hc h).before (.behind hx)

/-! ## Blocks and loops -/

omit hc in
theorem comes_block {b : Block} (h : (Eval.block (run host n) source b).Crashes s c) :
    Comes host n source (.block b) s c :=
  (hn.body (block_crashes.1 h)).before .block

omit hc in
theorem comes_branches {o : Option Otherwise} {bs : List Branch}
    (h : Stage.Crashes host n source s c (.branches o bs)) :
    Comes host n source (.branches o bs) s c := by
  induction bs generalizing s with
  | nil =>
    cases o with
    | none => exact absurd h not_crashes_pure
    | some o =>
      cases ho : o.block with
      | none =>
        simp only [Stage.Crashes, Eval.branches, ho] at h
        exact absurd h not_crashes_fail
      | some b =>
        simp only [Stage.Crashes, Eval.branches, ho] at h
        exact (comes_block hn h).before (.otherwise ho)
  | cons b rest ih =>
    cases hx : b.condition with
    | none =>
      simp only [Stage.Crashes, Eval.branches, hx] at h
      exact absurd h not_crashes_fail
    | some x =>
      simp only [Stage.Crashes, Eval.branches, hx] at h
      obtain h | ⟨v, u, hv, h⟩ := crashes_bind_iff.1 h
      · obtain ⟨e, he, h⟩ := exists_of_required_crashes h
        exact (hn.value h).before (.condition hx he)
      · obtain ⟨e, he, hv⟩ := exists_of_required hv
        cases htrue : v.isTruthy with
        | true =>
          rw [if_pos htrue] at h
          cases hb : b.block with
          | none =>
            rw [hb] at h
            exact absurd h not_crashes_fail
          | some braced =>
            rw [hb] at h
            exact (comes_block hn h).before (.branch hx he hv htrue hb)
        | false =>
          rw [if_neg (by simp [htrue])] at h
          exact (ih h).before (.branches hx he hv htrue)

omit hc in
theorem comes_rounds {x : Condition} {b : Block} {most : Nat}
    (h : (whileLoop most (run host n) source x b).Crashes s c) :
    Comes host n source (.rounds x b most) s c := by
  induction most generalizing s with
  | zero => exact nomatch ends_throw.1 h
  | succ most ih =>
    obtain h | ⟨y, hround, h⟩ := crashes_round.1 h
    · obtain h | ⟨v, u, hv, h⟩ := crashes_bind_iff.1 h
      · obtain ⟨e, he, h⟩ := exists_of_required_crashes h
        exact (hn.value h).before (.roundCondition he)
      · obtain ⟨e, he, hv⟩ := exists_of_required hv
        split at h
        · next htrue =>
          have hblock := (crashes_bind fun _ _ => not_goesOn_crashes).1 h
          exact (comes_block hn hblock).before (.round he hv htrue)
        · exact absurd h not_crashes_pure
    · obtain ⟨v, u, hv, hround⟩ := bind_eq_ok hround
      obtain ⟨e, he, hv⟩ := exists_of_required hv
      split at hround
      · next htrue =>
        obtain ⟨⟨⟩, w, hblock, hgoes⟩ := bind_eq_ok hround
        exact (ih h).before (.rounds he hv htrue hblock hgoes)
      · cases hround

omit hc in
theorem comes_each {a : Address} {vss : List (List Value)}
    (h : Stage.Crashes host n source s c (.each a vss)) :
    Comes host n source (.each a vss) s c := by
  induction vss generalizing s with
  | nil => exact absurd h not_crashes_pure
  | cons vs rest ih =>
    obtain h | ⟨w, hround, h⟩ := crashes_round.1 h
    · have hcall := (crashes_bind fun _ _ => not_goesOn_crashes).1 h
      exact (hn.call hcall).before .eachCall
    · obtain ⟨values, u, hcall, hgoes⟩ := bind_eq_ok hround
      exact (ih h).before (.each hcall hgoes)

/-! ## Statements -/

omit hc in
theorem comes_leave {l : LastStatement} (h : (Eval.leave (run host n) source l).Crashes s c) :
    Comes host n source (.leave l) s c := by
  cases l with
  | «return» token is span =>
    exact (comes_items hn ((crashes_bind fun _ _ => not_crashes_modify).1 h)).before .leave
  | _ => exact absurd h not_crashes_modify

omit hc in
theorem comes_forLoop {token : Token} {x : Option Condition} {body : Option Expression}
    {span : Span}
    (h : (Eval.statement host n (run host n) source (.forLoop token x body span)).Crashes s c) :
    Comes host n source (.statement (.forLoop token x body span)) s c := by
  have hfail : ∀ {α : Type} {t : State σ} {cause : Cause} {span : Span} {rest : Unit → Exec σ α},
      ¬ (fail cause span >>= rest : Exec σ α).Crashes t c := by
    intro α t cause span rest h
    obtain h | ⟨_, _, h, -⟩ := crashes_bind_iff.1 h
    · exact not_crashes_fail h
    · cases h
  cases x with
  | none => exact absurd h hfail
  | some x =>
    cases body with
    | none => exact absurd h hfail
    | some body =>
      obtain h | ⟨v, u, hv, h⟩ := crashes_bind_iff.1 h
      · obtain ⟨e, he, h⟩ := exists_of_required_crashes h
        exact (hn.value h).before (.subject he)
      · obtain ⟨e, he, hv⟩ := exists_of_required hv
        obtain h | ⟨f, t, hf, h⟩ := crashes_bind_iff.1 h
        · exact (hn.value h).before (.loopBody he hv)
        · cases f with
          | lambda a =>
            obtain h | h := forLoop_crashes.1 ((crashes_bind fun _ _ => not_crashes_pure).1 h)
            · exact ⟨_, _, .loop he hv hf, h⟩
            · exact (comes_each hn h).before (.forLoop he hv hf)
          | _ => exact absurd h hfail

theorem comes_statement {x : Statement}
    (h : (Eval.statement host n (run host n) source x).Crashes s c) :
    Comes host n source (.statement x) s c := by
  cases x with
  | command x =>
    exact (comes_command hn hc ((crashes_bind fun _ _ => not_crashes_pure).1 h)).before .command
  | call x =>
    have hcall := (crashes_bind fun _ _ => not_crashes_pure).1 h
    exact (comes_behind hn hc hcall).before .callStatement
  | expression e =>
    exact (hn.value ((crashes_bind fun _ _ => not_crashes_pure).1 h)).before .expression
  | assign target equals e span =>
    obtain hvalue | ⟨v, u, hv, hassign⟩ := crashes_bind_iff.1 h
    · obtain ⟨e, rfl, hvalue⟩ := exists_of_required_crashes hvalue
      exact (hn.value hvalue).before .assigned
    · obtain ⟨e, rfl, hv⟩ := exists_of_required hv
      have hassign := (crashes_bind fun _ _ => not_crashes_pure).1 hassign
      exact (comes_assign hn hc hassign).before (.assign hv)
  | conditional token first others o span =>
    have hbranches := (crashes_bind fun _ _ => not_crashes_pure).1 h
    exact (comes_branches hn hbranches).before .conditional
  | whileLoop token x b span =>
    have hincomplete : ∀ {α : Type} {rest : Unit → Exec σ α},
        ¬ (fail .incompleteWhile span >>= rest : Exec σ α).Crashes s c :=
      fun h => not_crashes_fail ((crashes_bind_iff.1 h).resolve_right nofun)
    cases x with
    | none => exact absurd h hincomplete
    | some x =>
      cases b with
      | none => exact absurd h hincomplete
      | some b =>
        have hloop := (crashes_bind fun _ _ => not_crashes_pure).1 h
        exact (comes_rounds hn hloop).before .whileLoop
  | forLoop token x body span => exact comes_forLoop hn h
  | skipped k => exact absurd h not_crashes_fail

theorem comes_statements {last : Option LastStatement} {result : Option (List Value)}
    {xs : List Statement}
    (h : (Eval.statements host n (run host n) source last result xs).Crashes s c) :
    Comes host n source (.statements last xs) s c := by
  induction xs generalizing result s with
  | nil =>
    cases last with
    | none => exact absurd h not_crashes_pure
    | some l => exact (comes_leave hn ((crashes_bind fun _ _ => not_crashes_pure).1 h)).before .last
  | cons x rest ih =>
    obtain h | ⟨values, u, hx, h⟩ := crashes_bind_iff.1 h
    · exact (comes_statement hn hc h).before .statement
    · have h := crashes_get.1 h
      split at h
      · exact absurd h not_crashes_pure
      · next hp => exact (ih h).before (.statements hx (by simpa using hp))

/-! ## Expressions -/

omit hc in
theorem comes_operands {l : Expression} {o : Token} {r : Option Expression} {span : Span}
    (hc : c ≠ .endless) (h : (Eval.binary (run host n) source l o r span).Crashes s c) :
    Comes host (n + 1) source (.value (.binary l o r span)) s c := by
  obtain h | ⟨v, u, hv, h⟩ := crashes_bind_iff.1 h
  · exact (hn.value h).before .left
  · have hright : o.kind.looksRight v = true →
        (required (run host n) source r span).Crashes u c →
        Comes host (n + 1) source (.value (.binary l o r span)) s c := by
      intro hlook hr
      obtain ⟨e, rfl, hr⟩ := exists_of_required_crashes hr
      exact (hn.value hr).before (.right hv hlook)
    split at h
    · next hk =>
      split at h
      · next hv' => exact hright (by simpa [TokenKind.looksRight, hk] using hv') h
      · exact absurd h not_crashes_pure
    · next hk =>
      split at h
      · exact absurd h not_crashes_pure
      · next hv' => exact hright (by simpa [TokenKind.looksRight, hk] using hv') h
    · next hand hor =>
      obtain h | ⟨w, t, hw, hcrash⟩ := crashes_bind_iff.1 h
      · exact hright (by simp [TokenKind.looksRight]) h
      · obtain ⟨e, rfl, hw⟩ := exists_of_required hw
        have hcrash := crashes_get.1 hcrash
        exact ⟨_, _, .binary hv hand hor hw, (operated_binary_crashes hc).1 hcrash⟩

include hc in
theorem comes_value {e : Expression}
    (h : (Eval.value host (run host n) source e).Crashes s c) :
    Comes host (n + 1) source (.value e) s c := by
  cases e with
  | nil t | boolean t | string t => exact absurd h not_crashes_pure
  | number t =>
    unfold Eval.value at h
    dsimp only at h
    split at h
    · exact absurd h not_crashes_pure
    · exact absurd h not_crashes_fail
  | binary l o r span => exact comes_operands hn hc h
  | unary o e span =>
    obtain h | ⟨v, u, -, h⟩ := crashes_bind_iff.1 h
    · obtain ⟨x, rfl, h⟩ := exists_of_required_crashes h
      exact (hn.value h).before .unary
    · exact absurd (operated_crashes.1 h) Operator.unary_ne_crashed
  | vector brackets is span =>
    exact (comes_items hn ((crashes_bind fun _ _ => not_crashes_make).1 h)).before .vector
  | table brackets fs span =>
    exact (comes_fields hn ((crashes_bind fun _ _ => not_crashes_make).1 h)).before .table
  | lambda body => exact absurd h (not_crashes_get not_crashes_make)
  | group brackets e span =>
    cases e with
    | none => exact absurd h not_crashes_pure
    | some e => exact (hn.value h).before .group
  | var v => exact (comes_chain hn hc h).before .var
  | call x =>
    exact (comes_behind hn hc ((crashes_bind fun _ _ => not_crashes_pure).1 h)).before .evaluate
  | skipped k => exact absurd h not_crashes_fail

end Stages

/-! ## Runs -/

/-- **Every crash can be traced back**, under every budget, except for going on without
end. -/
theorem traced (host : Host σ) (hc : c ≠ .endless) (n : Nat) : Traced host n c := by
  induction n with
  | zero =>
    have hno : ∀ {α : Type} {s : State σ}, ¬ (throw .exhausted : Exec σ α).Crashes s c :=
      fun h => nomatch ends_throw.1 h
    exact ⟨fun h => absurd h hno, fun h => absurd h hno, fun h => absurd h hno⟩
  | succ n hn =>
    refine ⟨fun h => comes_value hn hc h, fun h => ?_, fun h => ?_⟩
    · exact (comes_statements hn hc ((crashes_bind fun _ _ => not_crashes_pure).1 h)).before .body
    · obtain ⟨closure, b, hclosure, hdepth, hb, h⟩ := (callLambda_crashes hc).1 h
      exact (hn.body h).before (.call hclosure hdepth hb)

/-- A run of a tree comes to an operation. -/
def Block.Meets (b : Block) (host : Host σ) (budget : Nat) (source : String) (s : State σ)
    (op : Operation) (t : State σ) : Prop :=
  CommandScript.Meets host budget source (.statements b.last b.body)
    ((Bracket.scope true).enter s) op t

/-- A run of a text comes to an operation. -/
def Vm.Meets (vm : Vm σ) (host : Host σ) (budget : Nat) (text : String) (limit : Nat)
    (op : Operation) (t : State σ) : Prop :=
  ∃ b, (parse text limit).block = some b ∧ b.Meets host budget text vm.state op t

/-- Behind the statements of a text, nothing crashes. -/
theorem runBlock_crashes {budget : Nat} {b : Block} :
    (runBlock host budget source b).Crashes s c ↔
      (Eval.statements host budget (run host budget) source b.last none b.body).Crashes s c := by
  refine crashes_bind fun values t => not_crashes_get ?_
  split
  · exact not_crashes_pure
  · intro h
    have h := (crashes_bind_of_ok rfl).1 h
    split at h
    · exact not_crashes_pure h
    · exact not_crashes_fail h

/-- Going on without end becomes a failure; all other crashes of the statements get out. -/
theorem execute_crashed {budget : Nat} {b : Block} :
    (execute host budget source b s).1 = .crashed c ↔
      (runBlock host budget source b).Crashes ((Bracket.scope true).enter s) c ∧
        c ≠ .endless := by
  rw [← show (within (s.frames.child s.scope true).1 (runBlock host budget source b)).Crashes
    { s with frames := (s.frames.child s.scope true).2 } c ↔
      (runBlock host budget source b).Crashes ((Bracket.scope true).enter s) c from crashes_within]
  unfold execute Crashes Ends
  dsimp only
  split <;> rename_i heq <;> rw [heq]
  case h_3 => exact iff_of_false nofun fun ⟨h, hc⟩ => hc (Stop.crashed.inj h).symm
  case h_4 hne =>
    refine ⟨fun h => ?_, fun ⟨h, _⟩ => ?_⟩
    · cases h
      exact ⟨rfl, hne⟩
    · cases h
      rfl
  all_goals exact iff_of_false nofun fun h => nomatch h.1

/-- **A run of a tree crashes exactly where it comes to an operation that does.** -/
theorem execute_crashed_iff (host : Host σ) (budget : Nat) (source : String) (b : Block)
    (s : State σ) (c : Crash) :
    (execute host budget source b s).1 = .crashed c ↔
      ∃ op t, b.Meets host budget source s op t ∧ op.Crashes t.heap c := by
  refine execute_crashed.trans ⟨fun ⟨h, hc⟩ => ?_, fun ⟨op, t, hmeets, hop⟩ => ⟨?_, ?_⟩⟩
  · exact comes_statements (traced host hc budget) hc (runBlock_crashes.1 h)
  · exact runBlock_crashes.2 (hmeets.crashes hop none)
  · cases hop <;> nofun

/-- A run of a text crashes where the run of its tree does. -/
theorem run_crashed {vm : Vm σ} {budget limit : Nat} {text : String} :
    (vm.run host budget text limit).1 = .crashed c ↔
      ∃ b, (parse text limit).block = some b ∧
        (execute host budget text b vm.state).1 = .crashed c := by
  cases hparse : (parse text limit).block with
  | none =>
    refine iff_of_false (fun h => ?_) fun ⟨_, h, _⟩ => nomatch h
    simp only [Vm.run, hparse] at h
    split at h <;> cases h
  | some b =>
    have hrun : (vm.run host budget text limit).1 = .crashed c ↔
        (execute host budget text b vm.state).1 = .crashed c := by
      simp only [Vm.run, hparse]
      split <;> simp_all
    refine hrun.trans ⟨fun h => ⟨b, rfl, h⟩, fun ⟨_, hb, h⟩ => ?_⟩
    cases hb
    exact h

/-- The crashes that leave a run. -/
inductive Crash.Escapes : Crash → Prop where
  | zeroToNegativePower : Escapes .zeroToNegativePower
  | tooManyDigits : Escapes .tooManyDigits
  | beyondFloat : Escapes .beyondFloat

/-- How a run crashed, if it did. -/
def RunResult.crash? : RunResult → Option Crash
  | .crashed c => some c
  | _ => none

theorem RunResult.eq_crashed {r : RunResult} (h : r.crash? = some c) : r = .crashed c := by
  cases r <;> simp_all [crash?]

/-- A host without commands and objects. -/
def Host.bare : Host Unit := ⟨fun _ _ s => .raise "no command" s, fun _ _ _ => .nil⟩

/-- A machine of a bare host. -/
def Vm.bare : Vm Unit := { state := { host := () } }

/-- Three texts that crash. -/
theorem run_crashed_of_escapes (h : c.Escapes) :
    ∃ text, (Vm.bare.run .bare 10 text).1 = .crashed c := by
  cases h with
  | zeroToNegativePower => exact ⟨"0 ^ -1", RunResult.eq_crashed (by decide +kernel)⟩
  | tooManyDigits =>
    exact ⟨"$v = []\n$v.[10 ^ 4300] = 1", RunResult.eq_crashed (by decide +kernel)⟩
  | beyondFloat =>
    exact ⟨"for (10 ^ 400) || \x7b\x7d", RunResult.eq_crashed (by decide +kernel)⟩

/-- **Exactly three crashes leave runs of texts.** -/
theorem escapes_iff_exists_run :
    c.Escapes ↔ ∃ (σ : Type) (host : Host σ) (budget : Nat) (vm : Vm σ) (text : String),
      (vm.run host budget text).1 = .crashed c := by
  refine ⟨fun h => ?_, fun ⟨σ, host, budget, vm, text, h⟩ => ?_⟩
  · obtain ⟨text, htext⟩ := run_crashed_of_escapes h
    exact ⟨Unit, .bare, 10, .bare, text, htext⟩
  · obtain ⟨b, -, h⟩ := run_crashed.1 h
    obtain ⟨op, t, -, hop⟩ := (execute_crashed_iff host budget text b vm.state c).1 h
    cases hop with
    | power _ => exact .zeroToNegativePower
    | loop _ => exact .beyondFloat
    | _ => exact .tooManyDigits

end CommandScript
