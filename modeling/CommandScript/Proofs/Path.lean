import CommandScript.Proofs.Discipline
import CommandScript.Proofs.Operation
/-!
# CommandScript — the operations that a run comes to

A run is on its way through a tree, and from one lambda into another. `Meets` says
which operations it comes to, and in which states. It follows the evaluator from stage
to stage: what is evaluated behind something else is met in the state that this leaves,
if it ends well.

The way does not lead through a command of the host. What goes wrong while one is
running is the failure of this command.
-/

namespace CommandScript

variable {σ : Type}

/-- What an evaluation is about to do. -/
inductive Stage where
  | value (e : Expression)
  | body (b : Block)
  | call (lambda : Address) (arguments : List Value) (loop : Bool)
  | items (is : Separated Expression)
  /-- The entries of a table from a position on, behind those that it has. -/
  | fields (position : Int) (t : Table Value) (fs : Separated TableField)
  | root (r : VarRoot)
  | key (x : VarSuffix)
  /-- The steps of a chain, from a value on. -/
  | steps (xs : List VarSuffix) (v : Value)
  | chain (v : Var)
  | assign (target : Var) (value : Value)
  | arguments (es : List Expression)
  | command (c : Command)
  | behind (c : Call)
  | block (b : Block)
  | branches (otherwise : Option Otherwise) (bs : List Branch)
  /-- At most so many rounds of a `while`. -/
  | rounds (c : Condition) (b : Block) (most : Nat)
  /-- The rounds of a `for`, with what its lambda is given. -/
  | each (lambda : Address) (rounds : List (List Value))
  | statement (x : Statement)
  | leave (l : LastStatement)
  | statements (last : Option LastStatement) (xs : List Statement)

/-- The right operand is looked at. -/
def TokenKind.looksRight : TokenKind → Value → Bool
  | .kwAnd, l => l.isTruthy
  | .kwOr, l => !l.isTruthy
  | _, _ => true

/-- The position behind a table field. -/
def TableField.next (position : Int) : TableField → Int
  | .positional .. => position + 1
  | _ => position

/-- A table with one more entry, unless its value is nil. -/
def Table.extend (t : Table Value) (key : Value) : Value → Table Value
  | .nil => t
  | v => t.insert key v

/-- What a lambda is given in the rounds of a loop over a subject. -/
def Heap.rounds (h : Heap) : Value → List (List Value)
  | .vector a => (h.vector a).mapIdx fun i v => [v, .int (i + 1)]
  | .table a => (h.table a).entries.map fun e => [e.2, e.1]
  | .number n =>
    match n.toFloat?, n.exact.truncate? with
    | some _, some last => (List.range last.toNat).map fun (i : Nat) => [.int (i + 1)]
    | _, _ => []
  | _ => []

open Eval in
/-- **Under a budget and from a state, a stage comes to an operation**, and it comes to
it in another state. -/
inductive Meets (host : Host σ) : Nat → String → Stage → State σ → Operation → State σ → Prop where
  -- Expressions
  | left {n source s op t l o r span} : Meets host n source (.value l) s op t →
    Meets host (n + 1) source (.value (.binary l o r span)) s op t
  | right {n source s op t l o r span v u} :
    run host n source (.value l) s = (.ok v, u) → o.kind.looksRight v = true →
    Meets host n source (.value r) u op t →
    Meets host (n + 1) source (.value (.binary l o (some r) span)) s op t
  | binary {n source s t l o r span v w u} :
    run host n source (.value l) s = (.ok v, u) → o.kind ≠ .kwAnd → o.kind ≠ .kwOr →
    run host n source (.value r) u = (.ok w, t) →
    Meets host (n + 1) source (.value (.binary l o (some r) span)) s (.binary o.kind v w) t
  | unary {n source s op t o e span} : Meets host n source (.value e) s op t →
    Meets host (n + 1) source (.value (.unary o (some e) span)) s op t
  | vector {n source s op t brackets is span} : Meets host n source (.items is) s op t →
    Meets host (n + 1) source (.value (.vector brackets is span)) s op t
  | table {n source s op t brackets fs span} : Meets host n source (.fields 1 {} fs) s op t →
    Meets host (n + 1) source (.value (.table brackets fs span)) s op t
  | group {n source s op t brackets e span} : Meets host n source (.value e) s op t →
    Meets host (n + 1) source (.value (.group brackets (some e) span)) s op t
  | var {n source s op t v} : Meets host n source (.chain v) s op t →
    Meets host (n + 1) source (.value (.var v)) s op t
  | evaluate {n source s op t c} : Meets host n source (.behind c) s op t →
    Meets host (n + 1) source (.value (.call c)) s op t
  -- Items and fields
  | item {n source s op t i rest e} : i.value = some e → Meets host n source (.value e) s op t →
    Meets host n source (.items (i :: rest)) s op t
  | items {n source s op t i rest e v u} : i.value = some e →
    run host n source (.value e) s = (.ok v, u) → Meets host n source (.items rest) u op t →
    Meets host n source (.items (i :: rest)) s op t
  | noField {n source s op t i rest position table} : i.value = none →
    Meets host n source (.fields position table rest) s op t →
    Meets host n source (.fields position table (i :: rest)) s op t
  | fieldKey {n source s op t i rest position table brackets key equals value span} :
    i.value = some (.keyed brackets (some key) equals value span) →
    Meets host n source (.value key) s op t →
    Meets host n source (.fields position table (i :: rest)) s op t
  | fieldValue {n source s op t i rest position table f k e u} : i.value = some f →
    Eval.fieldKey (run host n) source position f s = (.ok k, u) → f.value = some e →
    Meets host n source (.value e) u op t →
    Meets host n source (.fields position table (i :: rest)) s op t
  | fields {n source s op t i rest position table f k e v u w} : i.value = some f →
    Eval.fieldKey (run host n) source position f s = (.ok k, u) → f.value = some e →
    run host n source (.value e) u = (.ok v, w) →
    Meets host n source (.fields (f.next position) (table.extend k v) rest) w op t →
    Meets host n source (.fields position table (i :: rest)) s op t
  -- Variables
  | root {n source s op t dollar brackets e span} : Meets host n source (.value e) s op t →
    Meets host n source (.root (.computed dollar brackets (some e) span)) s op t
  | key {n source s op t period brackets e span} : Meets host n source (.value e) s op t →
    Meets host n source (.key (.index period brackets (some e) span)) s op t
  | stepKey {n source s op t x rest v} : Meets host n source (.key x) s op t →
    Meets host n source (.steps (x :: rest) v) s op t
  | read {n source s t x rest v k} : suffixKey (run host n) source x s = (.ok k, t) →
    Meets host n source (.steps (x :: rest) v) s (.read v k) t
  | steps {n source s op t x rest v k w u y} : suffixKey (run host n) source x s = (.ok k, u) →
    index host v k x.span u = (.ok w, y) → Meets host n source (.steps rest w) y op t →
    Meets host n source (.steps (x :: rest) v) s op t
  | chainRoot {n source s op t v} : Meets host n source (.root v.root) s op t →
    Meets host n source (.chain v) s op t
  | chainSteps {n source s op t v r u} : rootValue (run host n) source v.root s = (.ok r, u) →
    Meets host n source (.steps v.suffixes r) u op t → Meets host n source (.chain v) s op t
  -- Assignments
  | targetRoot {n source s op t v value} : Meets host n source (.root v.root) s op t →
    Meets host n source (.assign v value) s op t
  | targetSteps {n source s op t v value r u} : v.suffixes ≠ [] →
    rootValue (run host n) source v.root s = (.ok r, u) →
    Meets host n source (.steps v.suffixes.dropLast r) u op t →
    Meets host n source (.assign v value) s op t
  | targetKey {n source s op t v value last r u container w} :
    v.suffixes.getLast? = some last → rootValue (run host n) source v.root s = (.ok r, u) →
    followSuffixes host (run host n) source v.suffixes.dropLast r u = (.ok container, w) →
    Meets host n source (.key last) w op t → Meets host n source (.assign v value) s op t
  | write {n source s t v value last r u container w k} :
    v.suffixes.getLast? = some last → rootValue (run host n) source v.root s = (.ok r, u) →
    followSuffixes host (run host n) source v.suffixes.dropLast r u = (.ok container, w) →
    suffixKey (run host n) source last w = (.ok k, t) →
    Meets host n source (.assign v value) s (.write container k value) t
  -- Calls
  | argument {n source s op t e rest} : e.isEmptyGroup = false →
    Meets host n source (.value e) s op t → Meets host n source (.arguments (e :: rest)) s op t
  | arguments {n source s op t e rest v u} : e.isEmptyGroup = false →
    run host n source (.value e) s = (.ok v, u) → Meets host n source (.arguments rest) u op t →
    Meets host n source (.arguments (e :: rest)) s op t
  | noArgument {n source s op t e rest} : e.isEmptyGroup = true →
    Meets host n source (.arguments rest) s op t →
    Meets host n source (.arguments (e :: rest)) s op t
  | callee {n source s op t c} : Meets host n source (.chain c.callee) s op t →
    Meets host n source (.command c) s op t
  | given {n source s op t c v u} : calleeValue host (run host n) source c.callee s = (.ok v, u) →
    Meets host n source (.arguments c.arguments) u op t → Meets host n source (.command c) s op t
  | invoke {n source s op t c a arguments u w} :
    calleeValue host (run host n) source c.callee s = (.ok (.lambda a), u) →
    argumentValues (run host n) source c.arguments u = (.ok arguments, w) →
    Meets host n source (.call a arguments false)
      ((Bracket.invocation ⟨.script, c.callee.display, callLine source c.span⟩).enter w) op t →
    Meets host n source (.command c) s op t
  | behind {n source s op t c d} : c.command = some d → Meets host n source (.command d) s op t →
    Meets host n source (.behind c) s op t
  | call {n source s op t a arguments loop closure b} : s.heap.lambdas[a]? = some closure →
    s.depth < s.maxDepth → closure.body.block = some b →
    Meets host n source (.body b.block) ((Bracket.lambda closure.frame
      (Bracket.parameters closure.body.names arguments)).enter s) op t →
    Meets host (n + 1) source (.call a arguments loop) s op t
  -- Blocks
  | body {n source s op t b} : Meets host n source (.statements b.last b.body) s op t →
    Meets host (n + 1) source (.body b) s op t
  | block {n source s op t b} : Meets host n source (.body b) ((Bracket.scope false).enter s) op t →
    Meets host n source (.block b) s op t
  | statement {n source s op t last x rest} : Meets host n source (.statement x) s op t →
    Meets host n source (.statements last (x :: rest)) s op t
  | statements {n source s op t last x rest values u} :
    Eval.statement host n (run host n) source x s = (.ok values, u) → u.pending = none →
    Meets host n source (.statements last rest) u op t →
    Meets host n source (.statements last (x :: rest)) s op t
  | last {n source s op t l} : Meets host n source (.leave l) s op t →
    Meets host n source (.statements (some l) []) s op t
  | leave {n source s op t token is span} : Meets host n source (.items is) s op t →
    Meets host n source (.leave (.return token is span)) s op t
  -- Statements
  | command {n source s op t c} : Meets host n source (.command c) s op t →
    Meets host n source (.statement (.command c)) s op t
  | callStatement {n source s op t c} : Meets host n source (.behind c) s op t →
    Meets host n source (.statement (.call c)) s op t
  | expression {n source s op t e} : Meets host n source (.value e) s op t →
    Meets host n source (.statement (.expression e)) s op t
  | assigned {n source s op t v equals e span} : Meets host n source (.value e) s op t →
    Meets host n source (.statement (.assign v equals (some e) span)) s op t
  | assign {n source s op t v equals e span value u} :
    run host n source (.value e) s = (.ok value, u) →
    Meets host n source (.assign v value) u op t →
    Meets host n source (.statement (.assign v equals (some e) span)) s op t
  | conditional {n source s op t token first others otherwise span} :
    Meets host n source (.branches otherwise (first :: others.map (·.branch))) s op t →
    Meets host n source (.statement (.conditional token first others otherwise span)) s op t
  | condition {n source s op t otherwise b rest c e} : b.condition = some c → c.inner = some e →
    Meets host n source (.value e) s op t →
    Meets host n source (.branches otherwise (b :: rest)) s op t
  | branch {n source s op t otherwise b rest c e v u braced} : b.condition = some c →
    c.inner = some e → run host n source (.value e) s = (.ok v, u) → v.isTruthy = true →
    b.block = some braced → Meets host n source (.block braced.block) u op t →
    Meets host n source (.branches otherwise (b :: rest)) s op t
  | branches {n source s op t otherwise b rest c e v u} : b.condition = some c →
    c.inner = some e → run host n source (.value e) s = (.ok v, u) → v.isTruthy = false →
    Meets host n source (.branches otherwise rest) u op t →
    Meets host n source (.branches otherwise (b :: rest)) s op t
  | otherwise {n source s op t o braced} : o.block = some braced →
    Meets host n source (.block braced.block) s op t →
    Meets host n source (.branches (some o) []) s op t
  -- Loops
  | whileLoop {n source s op t token c b span} :
    Meets host n source (.rounds c b.block n) s op t →
    Meets host n source (.statement (.whileLoop token (some c) (some b) span)) s op t
  | roundCondition {n source s op t c b most e} : c.inner = some e →
    Meets host n source (.value e) s op t → Meets host n source (.rounds c b (most + 1)) s op t
  | round {n source s op t c b most e v u} : c.inner = some e →
    run host n source (.value e) s = (.ok v, u) → v.isTruthy = true →
    Meets host n source (.block b) u op t → Meets host n source (.rounds c b (most + 1)) s op t
  | rounds {n source s op t c b most e v u w x} : c.inner = some e →
    run host n source (.value e) s = (.ok v, u) → v.isTruthy = true →
    Eval.block (run host n) source b u = (.ok (), w) → goesOn w = (.ok true, x) →
    Meets host n source (.rounds c b most) x op t →
    Meets host n source (.rounds c b (most + 1)) s op t
  | subject {n source s op t token c e body span} : c.inner = some e →
    Meets host n source (.value e) s op t →
    Meets host n source (.statement (.forLoop token (some c) (some body) span)) s op t
  | loopBody {n source s op t token c e body span v u} : c.inner = some e →
    run host n source (.value e) s = (.ok v, u) → Meets host n source (.value body) u op t →
    Meets host n source (.statement (.forLoop token (some c) (some body) span)) s op t
  | loop {n source s t token c e body span v u a} : c.inner = some e →
    run host n source (.value e) s = (.ok v, u) →
    run host n source (.value body) u = (.ok (.lambda a), t) →
    Meets host n source (.statement (.forLoop token (some c) (some body) span)) s (.loop v) t
  | forLoop {n source s op t token c e body span v u a w} : c.inner = some e →
    run host n source (.value e) s = (.ok v, u) →
    run host n source (.value body) u = (.ok (.lambda a), w) →
    Meets host n source (.each a (w.heap.rounds v)) w op t →
    Meets host n source (.statement (.forLoop token (some c) (some body) span)) s op t
  | eachCall {n source s op t a arguments rest} :
    Meets host n source (.call a arguments true) s op t →
    Meets host n source (.each a (arguments :: rest)) s op t
  | each {n source s op t a arguments rest values u w} :
    run host n source (.call a arguments true) s = (.ok values, u) → goesOn u = (.ok true, w) →
    Meets host n source (.each a rest) w op t →
    Meets host n source (.each a (arguments :: rest)) s op t

open Exec Eval

variable {σ : Type} {host : Host σ} {n : Nat} {source : String} {s : State σ} {c : Crash}

/-- A stage crashes. -/
def Stage.Crashes (host : Host σ) (n : Nat) (source : String) (s : State σ) (c : Crash) :
    Stage → Prop
  | .value e => (run host n source (.value e)).Crashes s c
  | .body b => (run host n source (.body b)).Crashes s c
  | .call a vs loop => (run host n source (.call a vs loop)).Crashes s c
  | .items is => (itemValues (run host n) source is).Crashes s c
  | .fields position t fs => (fieldEntries (run host n) source position t fs).Crashes s c
  | .root r => (rootName (run host n) source r).Crashes s c
  | .key x => (suffixKey (run host n) source x).Crashes s c
  | .steps xs v => (followSuffixes host (run host n) source xs v).Crashes s c
  | .chain v => (varValue host (run host n) source v).Crashes s c
  | .assign target v => (Eval.assign host (run host n) source target v).Crashes s c
  | .arguments es => (argumentValues (run host n) source es).Crashes s c
  | .command x => (Eval.command host (run host n) source x).Crashes s c
  | .behind x => (Eval.call host (run host n) source x).Crashes s c
  | .block b => (Eval.block (run host n) source b).Crashes s c
  | .branches o bs =>
    (Eval.branches (run host n) source
      (match o with
        | none => pure ()
        | some o =>
          match o.block with
          | none => fail .missingElseBlock o.span
          | some b => Eval.block (run host n) source b.block) bs).Crashes s c
  | .rounds x b most => (whileLoop most (run host n) source x b).Crashes s c
  | .each a vss =>
    (forEach (fun vs => do
      let _ ← run host n source (.call a vs true)
      goesOn) vss).Crashes s c
  | .statement x => (Eval.statement host n (run host n) source x).Crashes s c
  | .leave l => (Eval.leave (run host n) source l).Crashes s c
  | .statements last xs =>
    ∀ result, (Eval.statements host n (run host n) source last result xs).Crashes s c

/-! ## Steps of the evaluator -/

section Steps

variable {self : String → (t : Task σ) → Exec σ t.Result}

theorem required_eq {e : Option Expression} {x : Expression} (h : e = some x) {span : Span}
    {r : Except Stop Value × State σ} (hr : self source (.value x) s = r) :
    required self source e span s = r := by
  rw [h]
  exact hr

theorem required_crashes {e : Option Expression} {x : Expression} (h : e = some x) {span : Span}
    (hx : (self source (.value x)).Crashes s c) : (required self source e span).Crashes s c := by
  rw [h]
  exact hx

/-- A value that has to be there comes of an expression. -/
theorem exists_of_required {e : Option Expression} {span : Span} {v : Value} {u : State σ}
    (h : required self source e span s = (.ok v, u)) :
    ∃ x, e = some x ∧ self source (.value x) s = (.ok v, u) := by
  cases e with
  | none => cases h
  | some x => exact ⟨x, rfl, h⟩

theorem exists_of_required_crashes {e : Option Expression} {span : Span}
    (h : (required self source e span).Crashes s c) :
    ∃ x, e = some x ∧ (self source (.value x)).Crashes s c := by
  cases e with
  | none => exact absurd h not_crashes_fail
  | some x => exact ⟨x, rfl, h⟩

theorem not_goesOn_crashes : ¬ (goesOn : Exec σ Bool).Crashes s c := by
  refine not_crashes_get ?_
  split
  · exact not_crashes_pure
  · split
    · exact fun h => not_crashes_modify ((crashes_bind fun _ _ => not_crashes_pure).1 h)
    · exact fun h => not_crashes_modify ((crashes_bind fun _ _ => not_crashes_pure).1 h)
    · exact not_crashes_pure

theorem block_crashes {b : Block} :
    (Eval.block self source b).Crashes s c ↔
      (self source (.body b)).Crashes ((Bracket.scope false).enter s) c := by
  refine crashes_get.trans ?_
  exact (crashes_bind_of_ok rfl).trans crashes_within

/-- Where a lambda is called, only going on without end becomes a failure. -/
theorem catching_crashes {step : Exec σ Unit} {span : Span} (hc : c ≠ .endless) :
    (tryCatch step fun
      | .crashed .endless => fail .endless span
      | e => throw e : Exec σ Unit).Crashes s c ↔ step.Crashes s c := by
  refine ends_tryCatch.trans ⟨fun h => h.mono (fun _ _ => id) fun e t he => ?_,
    fun h => h.mono (fun _ _ => id) fun e t he => ?_⟩
  · split at he
    · exact nomatch ends_fail.1 he
    · exact he
  · subst he
    split
    · next heq => exact (hc (Stop.crashed.inj heq)).elim
    · exact ends_throw.2 rfl

theorem rootValue_crashes {r : VarRoot} :
    (rootValue self source r).Crashes s c ↔ (rootName self source r).Crashes s c := by
  have hread : ∀ {t : State σ} name,
      ¬ (do return (← get).frames.get (← get).scope name : Exec σ Value).Crashes t c :=
    fun name => not_crashes_get (not_crashes_get not_crashes_pure)
  cases r with
  | bare t =>
    refine iff_of_false ?_ not_crashes_pure
    refine not_crashes_get ?_
    cases s.globals.get? t.text with
    | some v => exact not_crashes_pure
    | none => exact hread t.text
  | named dollar name span => exact crashes_bind fun name _ => hread name
  | computed dollar brackets e span => exact crashes_bind fun name _ => hread name

/-- A bare name that is unknown is met by no crash, and neither is one that is known. -/
theorem calleeValue_crashes {v : Var} :
    (calleeValue host self source v).Crashes s c ↔ (varValue host self source v).Crashes s c := by
  refine crashes_get.trans ?_
  cases hbare : v.bareName? with
  | none => exact Iff.rfl
  | some name =>
    have hno : ¬ (varValue host self source v).Crashes s c := by
      unfold Var.bareName? at hbare
      split at hbare
      · exact fun h => not_crashes_pure (rootValue_crashes.1 ((crashes_bind fun _ _ =>
          not_crashes_pure).1 h))
      · cases hbare
    dsimp only
    split
    · exact Iff.rfl
    · exact iff_of_false not_crashes_fail hno

/-- Counting is a loop over numbers. -/
theorem forCount_eq_forEach (round : List Value → Exec σ Bool) (k : Nat) (next : Int) :
    forCount (fun i => round [.int i]) next k =
      forEach round ((List.range k).map fun (i : Nat) => [.int (i + next)]) := by
  induction k generalizing next with
  | zero => rfl
  | succ k ih =>
    have hlater : ((List.range (k + 1)).map fun (i : Nat) => [Value.int (i + next)]) =
        [.int next] :: (List.range k).map fun (i : Nat) => [.int (i + (next + 1))] := by
      rw [List.range_succ_eq_map, List.map_cons, List.map_map]
      refine List.cons_eq_cons.2 ⟨by simp, List.map_congr_left fun i _ => ?_⟩
      have hsum : ((i + 1 : Nat) : Int) + next = i + (next + 1) := by omega
      exact congrArg (fun j => [Value.int j]) hsum
    rw [hlater]
    funext s
    unfold forCount forEach
    rw [ih]

/-- **A loop crashes where its subject does not fit, or in one of its rounds.** -/
theorem forLoop_crashes {v : Value} {span : Span} {a : Address} :
    (Eval.forLoop self source v span a).Crashes s c ↔
      (Operation.loop v).Crashes s.heap c ∨
        (forEach (fun vs => do
          let _ ← self source (.call a vs true)
          goesOn) (s.heap.rounds v)).Crashes s c := by
  cases v with
  | number m =>
    unfold Eval.forLoop Heap.rounds
    dsimp only
    cases hfloat : m.toFloat? with
    | none =>
      refine crashes_crash.trans ⟨fun h => .inl (h ▸ .loop hfloat), fun h => ?_⟩
      obtain h | h := h
      · cases h
        rfl
      · exact absurd h not_crashes_pure
    | some x =>
      refine Iff.trans ?_ (or_iff_right fun h => ?_).symm
      · cases m.exact.truncate? with
        | none => exact iff_of_false (fun h => nomatch shownFail_crashes.1 h) not_crashes_pure
        | some last =>
          have hcount := forCount_eq_forEach (fun vs => do
            let _ ← self source (.call a vs true)
            goesOn) last.toNat 1
          exact iff_of_eq (congrArg (Crashes · s c) hcount)
      · cases h with
        | loop h => exact nomatch hfloat.symm.trans h
  | vector b | table b =>
    refine crashes_get.trans (or_iff_right nofun).symm
  | _ => exact iff_of_false not_crashes_fail fun h => h.elim nofun not_crashes_pure

/-- **A call of a lambda crashes where its body does**, unless this goes on without end. -/
theorem callLambda_crashes {a : Address} {arguments : List Value} {loop : Bool}
    (hc : c ≠ .endless) :
    (callLambda self source a arguments loop).Crashes s c ↔
      ∃ closure b, s.heap.lambdas[a]? = some closure ∧ s.depth < s.maxDepth ∧
        closure.body.block = some b ∧ (self source (.body b.block)).Crashes
          ((Bracket.lambda closure.frame
            (Bracket.parameters closure.body.names arguments)).enter s) c := by
  refine crashes_get.trans ?_
  cases hclosure : s.heap.lambdas[a]? with
  | none => exact iff_of_false not_crashes_pure fun ⟨_, _, h, _⟩ => nomatch h
  | some closure =>
    dsimp only
    split
    · next hdepth =>
      refine iff_of_false (fun h => nomatch ends_fail.1 (ends_bind.1 h)) ?_
      rintro ⟨_, _, -, h, -⟩
      omega
    · next hdepth =>
      refine (crashes_bind_of_ok rfl).trans ((crashes_bind fun _ _ => ?_).trans ?_)
      · refine not_crashes_get ?_
        split
        · exact not_crashes_pure
        · split
          · exact not_crashes_pure
          · refine fun h => ?_
            have h := (crashes_bind_of_ok rfl).1 h
            split at h
            · exact not_crashes_pure h
            · exact not_crashes_fail h
      · refine crashes_finishing.trans ((catching_crashes hc).trans (crashes_within.trans ?_))
        cases hb : closure.body.block with
        | none =>
          refine iff_of_false not_crashes_pure ?_
          rintro ⟨_, _, h, -, hb', -⟩
          cases h
          rw [hb] at hb'
          cases hb'
        | some b =>
          refine ⟨fun h => ⟨closure, b, rfl, Nat.not_le.1 hdepth, hb, h⟩, ?_⟩
          rintro ⟨_, _, h, -, hb', hbody⟩
          cases h
          rw [hb] at hb'
          cases hb'
          exact hbody

/-- A call of a lambda by a script crashes where the lambda does. -/
theorem invoke_lambda_crashes {a : Address} {arguments : List Value} {name : String} {span : Span} :
    (Eval.invoke host self source (.lambda a) arguments name span).Crashes s c ↔
      (self source (.call a arguments false)).Crashes
        ((Bracket.invocation ⟨.script, name, callLine source span⟩).enter s) c :=
  (crashes_bind_of_ok rfl).trans crashes_finishing

/-- No crash leaves a call of anything else. -/
theorem not_hostCall_crashes {step : Exec σ Value} {name : String} {span : Span} : ¬ (do
    let result ← tryCatch step fun
      | .crashed crash => fail (.commandFailed name crash.message) span
      | e => throw e
    return (← get).heap.packed result : Exec σ (List Value)).Crashes s c := by
  intro hcrash
  have hno : ¬ step.Ends s (fun _ _ => False) (fun _ _ => False) := by
    unfold Ends
    rcases step s with ⟨_ | _, _⟩ <;> exact id
  have hcaught := (crashes_bind fun _ _ => not_crashes_get not_crashes_pure).1 hcrash
  refine hno ((Exec.ends_tryCatch.1 hcaught).mono (fun _ _ => id) fun e u he => ?_)
  split at he
  · cases ends_fail.1 he
  · next hne => exact hne _ (ends_throw.1 he)

theorem not_invoke_crashes {callee : Value} (h : ∀ a, callee ≠ .lambda a) {arguments : List Value}
    {name : String} {span : Span} :
    ¬ (Eval.invoke host self source callee arguments name span).Crashes s c := by
  intro hcrash
  have hcalled := crashes_finishing.1 ((crashes_bind_of_ok rfl).1 hcrash)
  cases callee with
  | lambda a => exact h a rfl
  | _ => exact not_hostCall_crashes hcalled

end Steps

/-! ## What is met crashes -/

/-- **A stage crashes where an operation does that it comes to.** -/
theorem Meets.crashes {stage : Stage} {op : Operation} {t : State σ}
    (h : Meets host n source stage s op t) (hc : op.Crashes t.heap c) :
    stage.Crashes host n source s c := by
  have hends : c ≠ .endless := by cases hc <;> nofun
  induction h with
  | left _ ih => exact (ih hc).bind _
  | right hl hlook _ ih =>
    refine (crashes_bind_of_ok hl).2 ?_
    split
    · next hk =>
      rw [hk] at hlook
      refine (if_pos (c := _ = true) hlook).symm ▸ ih hc
    · next hk =>
      rw [hk] at hlook
      rw [if_neg (by simpa [TokenKind.looksRight] using hlook)]
      exact ih hc
    · exact Crashes.bind (ih hc) _
  | binary hl hand hor hr =>
    refine (crashes_bind_of_ok hl).2 ?_
    split
    · contradiction
    · contradiction
    · exact (crashes_bind_of_ok hr).2 (crashes_get.2 ((operated_binary_crashes hends).2 hc))
  | unary _ ih => exact (ih hc).bind _
  | vector _ ih => exact (ih hc).bind _
  | table _ ih => exact (ih hc).bind _
  | group _ ih => exact ih hc
  | var _ ih => exact ih hc
  | evaluate _ ih => exact (ih hc).bind _
  | item hi _ ih =>
    exact (required_crashes hi (ih hc)).bind _
  | items hi hv _ ih =>
    exact (crashes_bind_of_ok (required_eq hi hv)).2 ((ih hc).bind _)
  | noField hi _ ih =>
    simp only [Stage.Crashes, fieldEntries, hi]
    exact ih hc
  | fieldKey hi _ ih =>
    simp only [Stage.Crashes, fieldEntries, hi]
    exact ((ih hc).bind _).bind _
  | fieldValue hi hk he _ ih =>
    simp only [Stage.Crashes, fieldEntries, hi]
    exact (crashes_bind_of_ok hk).2 ((required_crashes he (ih hc)).bind _)
  | @fields _ _ _ _ _ _ _ _ _ f _ _ v _ _ hi hk he hv _ ih =>
    simp only [Stage.Crashes, fieldEntries, hi]
    refine (crashes_bind_of_ok hk).2 ((crashes_bind_of_ok (required_eq he hv)).2 ?_)
    have hrest := ih hc
    cases f <;> cases v <;> exact hrest
  | root _ ih => exact (ih hc).bind _
  | key _ ih => exact ih hc
  | stepKey _ ih => exact (ih hc).bind _
  | read hk => exact (crashes_bind_of_ok hk).2 (((read_crashes hends).2 hc).bind _)
  | steps hk hw _ ih => exact (crashes_bind_of_ok hk).2 ((crashes_bind_of_ok hw).2 (ih hc))
  | chainRoot _ ih => exact (rootValue_crashes.2 (ih hc)).bind _
  | chainSteps hr _ ih => exact (crashes_bind_of_ok hr).2 (ih hc)
  | targetRoot _ ih =>
    simp only [Stage.Crashes, Eval.assign]
    split
    · exact (ih hc).bind _
    · exact (rootValue_crashes.2 (ih hc)).bind _
  | targetSteps hne hr _ ih =>
    simp only [Stage.Crashes, Eval.assign]
    split
    · next hnone => exact absurd (List.getLast?_eq_none_iff.1 hnone) hne
    · exact (crashes_bind_of_ok hr).2 ((ih hc).bind _)
  | targetKey hlast hr hw _ ih =>
    simp only [Stage.Crashes, Eval.assign, hlast]
    exact (crashes_bind_of_ok hr).2 ((crashes_bind_of_ok hw).2 ((ih hc).bind _))
  | write hlast hr hw hk =>
    simp only [Stage.Crashes, Eval.assign, hlast]
    refine (crashes_bind_of_ok hr).2 ((crashes_bind_of_ok hw).2 ((crashes_bind_of_ok hk).2 ?_))
    exact (write_crashes hends).2 hc
  | argument he _ ih =>
    simp only [Stage.Crashes, argumentValues, he]
    exact (ih hc).bind _
  | arguments he hv _ ih =>
    simp only [Stage.Crashes, argumentValues, he]
    exact (crashes_bind_of_ok hv).2 ((ih hc).bind _)
  | noArgument he _ ih =>
    simp only [Stage.Crashes, argumentValues, he]
    exact ih hc
  | callee _ ih => exact (calleeValue_crashes.2 (ih hc)).bind _
  | given hv _ ih => exact (crashes_bind_of_ok hv).2 ((ih hc).bind _)
  | invoke hv ha _ ih =>
    refine (crashes_bind_of_ok hv).2 ((crashes_bind_of_ok ha).2 ?_)
    rw [if_pos (show (Value.lambda _).isCallable = true from rfl)]
    exact invoke_lambda_crashes.2 (ih hc)
  | behind hd _ ih =>
    simp only [Stage.Crashes, Eval.call, hd]
    exact ih hc
  | call hclosure hdepth hb _ ih =>
    exact (callLambda_crashes hends).2 ⟨_, _, hclosure, hdepth, hb, ih hc⟩
  | body _ ih => exact (ih hc none).bind _
  | block _ ih => exact block_crashes.2 (ih hc)
  | statement _ ih => exact fun _ => (ih hc).bind _
  | statements hx hp _ ih =>
    intro result
    refine (crashes_bind_of_ok hx).2 (crashes_get.2 ?_)
    rw [if_neg (by simp [hp])]
    exact ih hc _
  | last _ ih => exact fun _ => (ih hc).bind _
  | leave _ ih => exact (ih hc).bind _
  | command _ ih => exact (ih hc).bind _
  | callStatement _ ih => exact (ih hc).bind _
  | expression _ ih => exact (ih hc).bind _
  | assigned _ ih => exact (ih hc).bind _
  | assign hv _ ih => exact (crashes_bind_of_ok hv).2 ((ih hc).bind _)
  | conditional _ ih => exact (ih hc).bind _
  | condition hx he _ ih =>
    simp only [Stage.Crashes, Eval.branches, hx]
    exact (required_crashes he (ih hc)).bind _
  | branch hx he hv htrue hb _ ih =>
    simp only [Stage.Crashes, Eval.branches, hx]
    refine (crashes_bind_of_ok (required_eq he hv)).2 ?_
    rw [if_pos htrue, hb]
    exact ih hc
  | branches hx he hv hfalse _ ih =>
    simp only [Stage.Crashes, Eval.branches, hx]
    refine (crashes_bind_of_ok (required_eq he hv)).2 ?_
    rw [if_neg (by simp [hfalse])]
    exact ih hc
  | otherwise ho _ ih =>
    simp only [Stage.Crashes, Eval.branches, ho]
    exact ih hc
  | whileLoop _ ih => exact (ih hc).bind _
  | roundCondition he _ ih =>
    exact crashes_round.2 (.inl ((required_crashes he (ih hc)).bind _))
  | round he hv htrue _ ih =>
    refine crashes_round.2 (.inl ((crashes_bind_of_ok (required_eq he hv)).2 ?_))
    rw [if_pos htrue]
    exact (ih hc).bind _
  | rounds he hv htrue hb hg _ ih =>
    refine crashes_round.2 (.inr ⟨_, ?_, ih hc⟩)
    rw [bind_apply, required_eq he hv]
    dsimp only
    rw [if_pos htrue, bind_apply, hb]
    exact hg
  | subject he _ ih => exact (required_crashes he (ih hc)).bind _
  | loopBody he hv _ ih =>
    exact (crashes_bind_of_ok (required_eq he hv)).2 ((ih hc).bind _)
  | loop he hv ha =>
    refine (crashes_bind_of_ok (required_eq he hv)).2 ((crashes_bind_of_ok ha).2 ?_)
    exact (forLoop_crashes.2 (.inl hc)).bind _
  | forLoop he hv ha _ ih =>
    refine (crashes_bind_of_ok (required_eq he hv)).2 ((crashes_bind_of_ok ha).2 ?_)
    exact (forLoop_crashes.2 (.inr (ih hc))).bind _
  | eachCall _ ih => exact crashes_round.2 (.inl ((ih hc).bind _))
  | each hv hg _ ih =>
    refine crashes_round.2 (.inr ⟨_, (bind_apply _ _ _).trans ?_, ih hc⟩)
    rw [hv]
    exact hg

end CommandScript
