import CommandScript.Proofs.Naming
import CommandScript.Proofs.Path
import CommandScript.Proofs.Rows
import Mathlib.Logic.Relation
/-!
# CommandScript — where a run comes on its own way

A run goes through its text from stage to stage. As long as it does not leave the text
for a lambda that it calls, it goes the way that the walk goes: each stage it comes to is
visited, and when it comes there, it has seen no other names come into sight than the
visits before have brought into sight (`Point.ComesTo.visited`).

The lambda of a `for` is no detour, if it stands in the loop. It was made in the scope of
the loop, and its body is visited where it stands.

A round of a loop is a step back in the text. The names are the same behind it, for what a
round defines is gone with its frame.
-/

namespace CommandScript

variable {σ : Type}

/-- Where a run is: what it is about to do, under which budget, and from which state. -/
structure Point (σ : Type) where
  budget : Nat
  stage : Stage
  state : State σ

open Eval in
/-- **A run that is at one point is about to come to another one**, if it calls no lambda on
the way. What stands before the stage it comes to has ended well. -/
inductive Point.Enters (host : Host σ) (source : String) : Point σ → Point σ → Prop where
  -- Expressions
  | left {n s l o r span} :
    Enters host source ⟨n + 1, .value (.binary l o r span), s⟩ ⟨n, .value l, s⟩
  | right {n s l o r span v t} : run host n source (.value l) s = (.ok v, t) →
    o.kind.looksRight v = true →
    Enters host source ⟨n + 1, .value (.binary l o (some r) span), s⟩ ⟨n, .value r, t⟩
  | unary {n s o e span} :
    Enters host source ⟨n + 1, .value (.unary o (some e) span), s⟩ ⟨n, .value e, s⟩
  | vector {n s brackets is span} :
    Enters host source ⟨n + 1, .value (.vector brackets is span), s⟩ ⟨n, .items is, s⟩
  | table {n s brackets fs span} :
    Enters host source ⟨n + 1, .value (.table brackets fs span), s⟩ ⟨n, .fields 1 {} fs, s⟩
  | group {n s brackets e span} :
    Enters host source ⟨n + 1, .value (.group brackets (some e) span), s⟩ ⟨n, .value e, s⟩
  | var {n s v} : Enters host source ⟨n + 1, .value (.var v), s⟩ ⟨n, .chain v, s⟩
  | evaluate {n s c} : Enters host source ⟨n + 1, .value (.call c), s⟩ ⟨n, .behind c, s⟩
  -- Items and fields
  | item {n s i rest e} : i.value = some e →
    Enters host source ⟨n, .items (i :: rest), s⟩ ⟨n, .value e, s⟩
  | items {n s i rest e v t} : i.value = some e → run host n source (.value e) s = (.ok v, t) →
    Enters host source ⟨n, .items (i :: rest), s⟩ ⟨n, .items rest, t⟩
  | noField {n s i rest position table} : i.value = none →
    Enters host source ⟨n, .fields position table (i :: rest), s⟩
      ⟨n, .fields position table rest, s⟩
  | fieldKey {n s i rest position table brackets key equals value span} :
    i.value = some (.keyed brackets (some key) equals value span) →
    Enters host source ⟨n, .fields position table (i :: rest), s⟩ ⟨n, .value key, s⟩
  | fieldValue {n s i rest position table f k e t} : i.value = some f →
    Eval.fieldKey (run host n) source position f s = (.ok k, t) → f.value = some e →
    Enters host source ⟨n, .fields position table (i :: rest), s⟩ ⟨n, .value e, t⟩
  | fields {n s i rest position table f k e v t u} : i.value = some f →
    Eval.fieldKey (run host n) source position f s = (.ok k, t) → f.value = some e →
    run host n source (.value e) t = (.ok v, u) →
    Enters host source ⟨n, .fields position table (i :: rest), s⟩
      ⟨n, .fields (f.next position) (table.extend k v) rest, u⟩
  -- Variables
  | root {n s dollar brackets e span} :
    Enters host source ⟨n, .root (.computed dollar brackets (some e) span), s⟩ ⟨n, .value e, s⟩
  | key {n s period brackets e span} :
    Enters host source ⟨n, .key (.index period brackets (some e) span), s⟩ ⟨n, .value e, s⟩
  | stepKey {n s x rest v} : Enters host source ⟨n, .steps (x :: rest) v, s⟩ ⟨n, .key x, s⟩
  | steps {n s x rest v k w t u} : suffixKey (run host n) source x s = (.ok k, t) →
    index host v k x.span t = (.ok w, u) →
    Enters host source ⟨n, .steps (x :: rest) v, s⟩ ⟨n, .steps rest w, u⟩
  | chainRoot {n s v} : Enters host source ⟨n, .chain v, s⟩ ⟨n, .root v.root, s⟩
  | chainSteps {n s v r t} : rootValue (run host n) source v.root s = (.ok r, t) →
    Enters host source ⟨n, .chain v, s⟩ ⟨n, .steps v.suffixes r, t⟩
  -- Assignments
  | targetRoot {n s v value} : Enters host source ⟨n, .assign v value, s⟩ ⟨n, .root v.root, s⟩
  | targetSteps {n s v value r t} : v.suffixes ≠ [] →
    rootValue (run host n) source v.root s = (.ok r, t) →
    Enters host source ⟨n, .assign v value, s⟩ ⟨n, .steps v.suffixes.dropLast r, t⟩
  | targetKey {n s v value last r t container u} : v.suffixes.getLast? = some last →
    rootValue (run host n) source v.root s = (.ok r, t) →
    followSuffixes host (run host n) source v.suffixes.dropLast r t = (.ok container, u) →
    Enters host source ⟨n, .assign v value, s⟩ ⟨n, .key last, u⟩
  -- Calls
  | argument {n s e rest} : e.isEmptyGroup = false →
    Enters host source ⟨n, .arguments (e :: rest), s⟩ ⟨n, .value e, s⟩
  | arguments {n s e rest v t} : e.isEmptyGroup = false →
    run host n source (.value e) s = (.ok v, t) →
    Enters host source ⟨n, .arguments (e :: rest), s⟩ ⟨n, .arguments rest, t⟩
  | noArgument {n s e rest} : e.isEmptyGroup = true →
    Enters host source ⟨n, .arguments (e :: rest), s⟩ ⟨n, .arguments rest, s⟩
  | callee {n s c} : Enters host source ⟨n, .command c, s⟩ ⟨n, .chain c.callee, s⟩
  | given {n s c v t} : calleeValue host (run host n) source c.callee s = (.ok v, t) →
    Enters host source ⟨n, .command c, s⟩ ⟨n, .arguments c.arguments, t⟩
  | behind {n s c d} : c.command = some d →
    Enters host source ⟨n, .behind c, s⟩ ⟨n, .command d, s⟩
  -- Blocks
  | body {n s b} : Enters host source ⟨n + 1, .body b, s⟩ ⟨n, .statements b.last b.body, s⟩
  | block {n s b} :
    Enters host source ⟨n, .block b, s⟩ ⟨n, .body b, (Bracket.scope false).enter s⟩
  | statement {n s last x rest} :
    Enters host source ⟨n, .statements last (x :: rest), s⟩ ⟨n, .statement x, s⟩
  | statements {n s last x rest values t} :
    Eval.statement host n (run host n) source x s = (.ok values, t) → t.pending = none →
    Enters host source ⟨n, .statements last (x :: rest), s⟩ ⟨n, .statements last rest, t⟩
  | last {n s l} : Enters host source ⟨n, .statements (some l) [], s⟩ ⟨n, .leave l, s⟩
  | leave {n s token is span} :
    Enters host source ⟨n, .leave (.return token is span), s⟩ ⟨n, .items is, s⟩
  -- Statements
  | command {n s c} : Enters host source ⟨n, .statement (.command c), s⟩ ⟨n, .command c, s⟩
  | callStatement {n s c} : Enters host source ⟨n, .statement (.call c), s⟩ ⟨n, .behind c, s⟩
  | expression {n s e} : Enters host source ⟨n, .statement (.expression e), s⟩ ⟨n, .value e, s⟩
  | assigned {n s v equals e span} :
    Enters host source ⟨n, .statement (.assign v equals (some e) span), s⟩ ⟨n, .value e, s⟩
  | assign {n s v equals e span value t} : run host n source (.value e) s = (.ok value, t) →
    Enters host source ⟨n, .statement (.assign v equals (some e) span), s⟩ ⟨n, .assign v value, t⟩
  | conditional {n s token first others otherwise span} :
    Enters host source ⟨n, .statement (.conditional token first others otherwise span), s⟩
      ⟨n, .branches otherwise (first :: others.map (·.branch)), s⟩
  | condition {n s otherwise b rest c e} : b.condition = some c → c.inner = some e →
    Enters host source ⟨n, .branches otherwise (b :: rest), s⟩ ⟨n, .value e, s⟩
  | branch {n s otherwise b rest c e v t braced} : b.condition = some c → c.inner = some e →
    run host n source (.value e) s = (.ok v, t) → v.isTruthy = true → b.block = some braced →
    Enters host source ⟨n, .branches otherwise (b :: rest), s⟩ ⟨n, .block braced.block, t⟩
  | branches {n s otherwise b rest c e v t} : b.condition = some c → c.inner = some e →
    run host n source (.value e) s = (.ok v, t) → v.isTruthy = false →
    Enters host source ⟨n, .branches otherwise (b :: rest), s⟩ ⟨n, .branches otherwise rest, t⟩
  | otherwise {n s o braced} : o.block = some braced →
    Enters host source ⟨n, .branches (some o) [], s⟩ ⟨n, .block braced.block, s⟩
  -- Loops
  | whileLoop {n s token c b span} :
    Enters host source ⟨n, .statement (.whileLoop token (some c) (some b) span), s⟩
      ⟨n, .rounds c b.block n, s⟩
  | roundCondition {n s c b most e} : c.inner = some e →
    Enters host source ⟨n, .rounds c b (most + 1), s⟩ ⟨n, .value e, s⟩
  | round {n s c b most e v t} : c.inner = some e →
    run host n source (.value e) s = (.ok v, t) → v.isTruthy = true →
    Enters host source ⟨n, .rounds c b (most + 1), s⟩ ⟨n, .block b, t⟩
  | rounds {n s c b most e v t u w} : c.inner = some e →
    run host n source (.value e) s = (.ok v, t) → v.isTruthy = true →
    Eval.block (run host n) source b t = (.ok (), u) → goesOn u = (.ok true, w) →
    Enters host source ⟨n, .rounds c b (most + 1), s⟩ ⟨n, .rounds c b most, w⟩
  | subject {n s token c e body span} : c.inner = some e →
    Enters host source ⟨n, .statement (.forLoop token (some c) (some body) span), s⟩
      ⟨n, .value e, s⟩
  | loopBody {n s token c e body span v t} : c.inner = some e →
    run host n source (.value e) s = (.ok v, t) →
    Enters host source ⟨n, .statement (.forLoop token (some c) (some body) span), s⟩
      ⟨n, .value body, t⟩
  /-- The lambda stands in the loop. -/
  | forLoop {n s token c e body span v t a u} : c.inner = some e →
    run host n source (.value e) s = (.ok v, t) →
    run host n source (.value (.lambda body)) t = (.ok (.lambda a), u) →
    Enters host source ⟨n, .statement (.forLoop token (some c) (some (.lambda body)) span), s⟩
      ⟨n, .each a (u.heap.rounds v), u⟩
  | eachCall {n s a arguments rest closure b} : s.heap.lambdas[a]? = some closure →
    s.depth < s.maxDepth → closure.body.block = some b →
    Enters host source ⟨n + 1, .each a (arguments :: rest), s⟩ ⟨n, .body b.block,
      (Bracket.lambda closure.frame (Bracket.parameters closure.body.names arguments)).enter s⟩
  | each {n s a arguments rest values t u} :
    run host n source (.call a arguments true) s = (.ok values, t) → goesOn t = (.ok true, u) →
    Enters host source ⟨n, .each a (arguments :: rest), s⟩ ⟨n, .each a rest, u⟩

/-- A run that is at one point may come to another one, if it calls no lambda on the way but
those of its loops. -/
def Point.ComesTo (host : Host σ) (source : String) : Point σ → Point σ → Prop :=
  Relation.ReflTransGen (Point.Enters host source)

theorem Point.Enters.meets {host : Host σ} {source : String} {p q : Point σ}
    (h : p.Enters host source q) {op : Operation} {t : State σ}
    (hop : Meets host q.budget source q.stage q.state op t) :
    Meets host p.budget source p.stage p.state op t := by
  cases h with
  | left => exact .left hop
  | right hl hlook => exact .right hl hlook hop
  | unary => exact .unary hop
  | vector => exact .vector hop
  | table => exact .table hop
  | group => exact .group hop
  | var => exact .var hop
  | evaluate => exact .evaluate hop
  | item hi => exact .item hi hop
  | items hi hv => exact .items hi hv hop
  | noField hi => exact .noField hi hop
  | fieldKey hi => exact .fieldKey hi hop
  | fieldValue hi hk he => exact .fieldValue hi hk he hop
  | fields hi hk he hv => exact .fields hi hk he hv hop
  | root => exact .root hop
  | key => exact .key hop
  | stepKey => exact .stepKey hop
  | steps hk hw => exact .steps hk hw hop
  | chainRoot => exact .chainRoot hop
  | chainSteps hr => exact .chainSteps hr hop
  | targetRoot => exact .targetRoot hop
  | targetSteps hne hr => exact .targetSteps hne hr hop
  | targetKey hlast hr hw => exact .targetKey hlast hr hw hop
  | argument he => exact .argument he hop
  | arguments he hv => exact .arguments he hv hop
  | noArgument he => exact .noArgument he hop
  | callee => exact .callee hop
  | given hv => exact .given hv hop
  | behind hd => exact .behind hd hop
  | body => exact .body hop
  | block => exact .block hop
  | statement => exact .statement hop
  | statements hx hp => exact .statements hx hp hop
  | last => exact .last hop
  | leave => exact .leave hop
  | command => exact .command hop
  | callStatement => exact .callStatement hop
  | expression => exact .expression hop
  | assigned => exact .assigned hop
  | assign hv => exact .assign hv hop
  | conditional => exact .conditional hop
  | condition hc he => exact .condition hc he hop
  | branch hc he hv htrue hb => exact .branch hc he hv htrue hb hop
  | branches hc he hv hfalse => exact .branches hc he hv hfalse hop
  | otherwise ho => exact .otherwise ho hop
  | whileLoop => exact .whileLoop hop
  | roundCondition he => exact .roundCondition he hop
  | round he hv htrue => exact .round he hv htrue hop
  | rounds he hv htrue hb hg => exact .rounds he hv htrue hb hg hop
  | subject he => exact .subject he hop
  | loopBody he hv => exact .loopBody he hv hop
  | forLoop he hv ha => exact .forLoop he hv ha hop
  | eachCall hclosure hdepth hb => exact .eachCall (.call hclosure hdepth hb hop)
  | each hv hg => exact .each hv hg hop

/-- **A run that comes to a point comes to what is met from there.** So if it crashes there,
the whole run does. -/
theorem Point.ComesTo.meets {host : Host σ} {source : String} {p q : Point σ}
    (h : p.ComesTo host source q) {op : Operation} {t : State σ}
    (hop : Meets host q.budget source q.stage q.state op t) :
    Meets host p.budget source p.stage p.state op t := by
  induction h with
  | refl => exact hop
  | tail _ hstep ih => exact ih (hstep.meets hop)

/-! ## What is visited of a stage -/

/-- What the walk visits of a stage. The lambda of a `for` is the one that stands in the
loop: it was made in the current scope. -/
def Stage.Visited (s : State σ) (vs : List Visit) : Stage → Prop
  | .value e => vs = Visits.expression e
  | .body b => vs = Visits.block b
  | .call .. => False
  | .items is => vs = Visits.items is
  | .fields _ _ fs => vs = Visits.fields fs
  | .root r => vs = Visits.computedRoot r
  | .key x => ∃ v n, vs = Visits.step v n x
  | .steps xs _ => ∃ v n, vs = Visits.steps v n xs
  | .chain v => ∃ kind, vs = Visits.chain kind v
  | .assign target _ => ∃ e, vs = Visits.target e target
  | .arguments es => vs = Visits.arguments es
  | .command c => ∃ kind, vs = Visits.command kind c
  | .behind c => vs = Visits.call c
  | .block b => vs = .enter [] :: Visits.block b ++ [.leave]
  | .branches o bs => vs = bs.flatMap Visits.branch ++ Visits.otherwise o
  | .rounds c b _ => vs = Visits.condition c ++ (.enter [] :: Visits.block b ++ [.leave])
  | .each a _ => ∃ body source, s.heap.lambdas[a]? = some ⟨body, s.scope, source⟩ ∧
    vs = Visits.body body
  | .statement x => vs = Visits.statement x
  | .leave l => vs = Visits.last l
  | .statements last xs => vs = Visits.statements xs ++ last.elim [] Visits.last

/-- Between two states no other names have come into sight than some visits bring there, as
long as none of them is to an assignment to a computed name. -/
def Tracks (vs : List Visit) (s t : State σ) : Prop :=
  ∀ known next outer, ∃ known' next' outer',
    Visits.behind vs (known :: next :: outer) = known' :: next' :: outer' ∧
      ((∀ v ∈ vs, v.definesComputed = false) → s.SeesOnly known → t.SeesOnly known')

namespace Tracks

variable {s t u : State σ} {vs ws : List Visit} {os : List Outline} {names : List String}

theorem trans (h : Tracks vs s t) (h' : Tracks ws t u) : Tracks (vs ++ ws) s u := by
  intro known next outer
  obtain ⟨known', next', outer', hbehind, hsees⟩ := h known next outer
  obtain ⟨known'', next'', outer'', hbehind', hsees'⟩ := h' known' next' outer'
  refine ⟨known'', next'', outer'', ?_, fun hvs hs => ?_⟩
  · rw [Visits.behind_append, hbehind, hbehind']
  · have hboth := List.forall_mem_append.1 hvs
    exact hsees' hboth.2 (hsees hboth.1 hs)

/-- Visits to a part of a tree, in which no name is defined. -/
theorem of_row (hvs : Row os [] vs) (hst : s.Keeps t fun _ => True) : Tracks vs s t := by
  intro known next outer
  refine ⟨known, next, outer, ?_, fun _ hs => hs.keeps hst⟩
  rw [hvs.behind, Sight.with_nil]

/-- Nothing is visited, and no name comes into sight. -/
theorem of_keeps (hst : s.Keeps t fun _ => True) : Tracks [] s t := of_row (.nil []) hst

theorem refl (s : State σ) : Tracks [] s s := of_keeps (.refl s)

theorem scope (s : State σ) : Tracks [.enter []] s ((Bracket.scope false).enter s) := by
  intro known next outer
  refine ⟨known, known, next :: outer, ?_, fun _ hs => hs.scope false⟩
  rw [Visits.behind_cons, Visit.pass, Sight.with_nil, Visits.behind_nil]

theorem lambda (s : State σ) (names : List String) (arguments : List Value) :
    Tracks [.enter names] s
      ((Bracket.lambda s.scope (Bracket.parameters names arguments)).enter s) :=
  fun known next outer =>
    ⟨known.with names, known, next :: outer, rfl, fun _ hs => hs.lambda names arguments⟩

end Tracks

/-! ## One step -/

section Steps

open Eval Discipline

variable {host : Host σ} {n : Nat} {source : String} {s t : State σ} {vs : List Visit}

/-- For the discipline, nothing need be known of a tree. -/
theorem covers_keepingNames (s : State σ) : (keepingNames σ).Covers s fun _ => false :=
  fun _ _ => trivial

theorem permits_keepingNames (faults : List Fault) : (keepingNames σ).Permits faults :=
  fun _ _ => trivial

theorem keeps_of_calm {α : Type} {P : α → Prop} {step : Exec σ α} {a : α}
    (h : (keepingNames σ).Calm s P step) (hok : step s = (.ok a, t)) : s.Keeps t fun _ => True :=
  ((Exec.ends_of_ok hok).1 h).2.2

theorem keeps_of_tidy {α : Type} {P : α → Prop} {step : Exec σ α} {a : α}
    (h : (keepingNames σ).Tidy s P step) (hok : step s = (.ok a, t)) : s.Keeps t fun _ => True :=
  ((Exec.ends_of_ok hok).1 h).2.2

variable (hhost : host.LeavesNames)

include hhost

theorem keeps_value {e : Expression} {v : Value} (h : run host n source (.value e) s = (.ok v, t)) :
    s.Keeps t fun _ => True :=
  keeps_of_calm ((obeys_run (keepingNames_laws hhost) n).value trivial (covers_keepingNames s)
    (permits_keepingNames _)) h

/-- Behind a round that another one may follow. -/
theorem keeps_goesOn (h : (goesOn : Exec σ Bool) s = (.ok true, t)) : s.Keeps t fun _ => True := by
  have hgoes := ends_goesOn (keepingNames_laws hhost) (s := s) trivial
  exact (Exec.round_true.1 ((Exec.ends_of_ok h).1 hgoes)).2

theorem keeps_statement {x : Statement}
    (hx : ∀ target equals e span, x ≠ .assign target equals e span) {values : Option (List Value)}
    (h : Eval.statement host n (run host n) source x s = (.ok values, t)) :
    s.Keeps t fun _ => True := by
  have hK := keepingNames_laws hhost
  exact keeps_of_tidy (tidy_statement hK (obeys_run hK n) trivial (covers_keepingNames s) hx
    (permits_keepingNames _)) h

/-- What is shared has no names. -/
theorem keeps_setIndex {container key value : Value} {span : Span}
    (h : (Eval.setIndex container key value span : Exec σ Unit) s = (.ok (), t)) :
    s.Keeps t fun _ => True := by
  have hK := keepingNames_laws hhost
  have hheap : ∀ {u : State σ} (heap : Heap), heap.lambdas = u.heap.lambdas →
      u.Keeps { u with heap } fun _ => True :=
    fun heap hlambdas => .of_frames_eq rfl rfl rfl (hlambdas ▸ List.prefix_rfl)
  cases container with
  | nil =>
    obtain ⟨_, _, -, h⟩ := Exec.bind_eq_ok h
    cases h
  | table a =>
    obtain ⟨k, u, hk, h⟩ := Exec.bind_eq_ok h
    cases h
    exact (keeps_of_calm (calm_tableKey hK trivial key span) hk).trans (hheap _ rfl) fun _ => id
  | vector a =>
    obtain ⟨i, u, hi, h⟩ := Exec.bind_eq_ok h
    obtain ⟨_, _, hget, h⟩ := Exec.bind_eq_ok h
    cases hget
    have hindex := keeps_of_calm (calm_vectorIndex hK trivial key span) hi
    dsimp only at h
    split at h
    · cases h
      exact hindex.trans (hheap _ rfl) fun _ => id
    · split at h
      · cases h
        exact hindex.trans (hheap _ rfl) fun _ => id
      · cases hplace : Decimal.ofInt? i <;> rw [hplace] at h <;> cases h
  | _ => cases h

theorem keeps_assignStep {target : Var} {value : Value} {last : VarSuffix}
    (hlast : target.suffixes.getLast? = some last)
    (h : Eval.assign host (run host n) source target value s = (.ok (), t)) :
    s.Keeps t fun _ => True := by
  have hK := keepingNames_laws hhost
  have ho := obeys_run hK n
  unfold Eval.assign at h
  rw [hlast] at h
  obtain ⟨root, u, hroot, h⟩ := Exec.bind_eq_ok h
  obtain ⟨container, w, hcontainer, h⟩ := Exec.bind_eq_ok h
  obtain ⟨key, x, hkey, h⟩ := Exec.bind_eq_ok h
  have hsu := keeps_of_calm (calm_rootValue hK ho trivial (covers_keepingNames s)
    (permits_keepingNames _)) hroot
  have huw := keeps_of_calm (calm_followSuffixes hK ho trivial (covers_keepingNames u)
    (permits_keepingNames _) (Region.holds_all root)) hcontainer
  have hwx := keeps_of_calm (calm_suffixKey hK ho trivial (covers_keepingNames w)
    (permits_keepingNames _)) hkey
  exact ((hsu.trans huw fun _ => id).trans hwx fun _ => id).trans (keeps_setIndex hhost h)
    fun _ => id

/-- Behind a statement, what it defines is in sight as well. -/
theorem tracks_statement {x : Statement} {values : Option (List Value)}
    (h : Eval.statement host n (run host n) source x s = (.ok values, t)) :
    Tracks (Visits.statement x) s t := by
  intro known next outer
  refine ⟨known.with x.defined, next, outer, (Visits.row_statement x).behind known next outer,
    fun hvs hs => ?_⟩
  cases x with
  | assign target equals e span =>
    obtain ⟨v, u, hv, h⟩ := Exec.bind_eq_ok h
    obtain ⟨⟨⟩, w, hassign, hpure⟩ := Exec.bind_eq_ok h
    cases hpure
    obtain ⟨x, rfl, hv⟩ := exists_of_required hv
    have hsu := hs.keeps (keeps_value hhost hv)
    obtain ⟨r, xs, whole⟩ := target
    cases xs with
    | nil =>
      obtain ⟨name, z, hname, hmodify⟩ := Exec.bind_eq_ok hassign
      cases hmodify
      cases r with
      | bare token =>
        cases hname
        exact hsu.assign token.text v
      | named dollar token whole =>
        cases token with
        | none => cases hname
        | some token =>
          cases hname
          exact hsu.assign token.text v
      | computed dollar brackets inner whole =>
        have hmem : Visit.define (.computed dollar brackets inner whole) (some x) ∈
            Visits.statement (.assign (.mk (.computed dollar brackets inner whole) [] whole)
              equals (some x) span) := by simp [Visits.statement, Visits.target]
        exact absurd (hvs _ hmem) nofun
    | cons y ys =>
      have hlast : (Var.mk r (y :: ys) whole).suffixes.getLast? =
        some ((y :: ys).getLast (List.cons_ne_nil y ys)) := List.getLast?_eq_some_getLast _
      exact (hsu.keeps (keeps_assignStep hhost hlast hassign)).with_names
  | _ =>
    refine (hs.keeps (keeps_statement hhost (fun _ _ _ _ hx => ?_) h)).with_names
    cases hx

end Steps

/-- A point is come to among some visits that start in a state: its stage is visited among
them, and what has come into sight on the way is what the visits before bring there. -/
def Point.Among (q : Point σ) (vs : List Visit) (s : State σ) : Prop :=
  ∃ before ws behind, vs = before ++ ws ++ behind ∧ q.stage.Visited q.state ws ∧
    Tracks before s q.state

namespace Visits

/-- Only a computed root has something in it to come to. -/
theorem exists_root_eq (kind : Option SuggestionKind) (r : VarRoot) :
    ∃ behind, root kind r = computedRoot r ++ behind := by
  cases r with
  | bare | named =>
    simp only [computedRoot]
    exact ⟨_, rfl⟩
  | computed dollar brackets e span => exact ⟨[], by rw [root, computedRoot, List.append_nil]⟩

/-- Behind what comes before it, the value of a field is visited. -/
theorem exists_field_eq {f : TableField} {e : Expression} (h : f.value = some e) :
    ∃ before os, Row os [] before ∧ field f = before ++ expression e := by
  cases f with
  | named name equals value span =>
    cases h
    exact ⟨[], [], .nil [], by rw [field, optional, List.nil_append]⟩
  | keyed brackets key equals value span =>
    cases h
    exact ⟨_, _, row_optional key, by rw [field, optional]⟩
  | positional value span =>
    cases h
    exact ⟨[], [], .nil [], by rw [field, List.nil_append]⟩

theorem steps_append (v : Var) (n : Nat) (xs ys : List VarSuffix) :
    steps v n (xs ++ ys) = steps v n xs ++ steps v (n + xs.length) ys := by
  induction xs generalizing n with
  | nil =>
    rw [steps]
    rfl
  | cons x rest ih =>
    rw [List.cons_append, steps, ih, steps, List.length_cons, List.append_assoc,
      Nat.add_right_comm, Nat.add_assoc]

theorem exists_target_eq (e : Option Expression) {v : Var} {last : VarSuffix}
    (h : v.suffixes.getLast? = some last) :
    ∃ n, target e v =
      root (some .assign) v.root ++ (steps v 0 v.suffixes.dropLast ++ step v n last) := by
  obtain ⟨r, xs, span⟩ := v
  obtain ⟨ys, rfl⟩ := List.getLast?_eq_some_iff.1 h
  refine ⟨0 + ys.length, ?_⟩
  rw [target, steps_append, steps, steps, List.append_nil]
  · simp only [Var.root, Var.suffixes, List.dropLast_concat]
  · exact fun hys => List.append_ne_nil_of_right_ne_nil ys (List.cons_ne_nil last []) hys

theorem elseIfs_eq (es : List ElseIf) : elseIfs es = (es.map (·.branch)).flatMap branch := by
  induction es with
  | nil =>
    rw [elseIfs]
    rfl
  | cons e rest ih =>
    obtain ⟨token, b, span⟩ := e
    rw [elseIfs, ih, elseIf]
    rfl

theorem block_eq (b : Block) : block b = statements b.body ++ b.last.elim [] last := by
  obtain ⟨xs, last | l, span⟩ := b
  · rw [block]
    exact (List.append_nil _).symm
  · rw [block]
    rfl

end Visits

namespace Point.Among

variable {q : Point σ} {s : State σ} {ws before behind : List Visit} {os : List Outline}

theorem between (hrow : Row os [] before) (hst : s.Keeps q.state fun _ => True)
    (hws : q.stage.Visited q.state ws) : q.Among (before ++ ws ++ behind) s :=
  ⟨before, ws, behind, rfl, hws, .of_row hrow hst⟩

theorem last (hrow : Row os [] before) (hst : s.Keeps q.state fun _ => True)
    (hws : q.stage.Visited q.state ws) : q.Among (before ++ ws) s :=
  ⟨before, ws, [], (List.append_nil _).symm, hws, .of_row hrow hst⟩

theorem first (hst : s.Keeps q.state fun _ => True) (hws : q.stage.Visited q.state ws) :
    q.Among (ws ++ behind) s :=
  ⟨[], ws, behind, rfl, hws, .of_keeps hst⟩

theorem only (hst : s.Keeps q.state fun _ => True) (hws : q.stage.Visited q.state ws) :
    q.Among ws s :=
  ⟨[], ws, [], (List.append_nil _).symm, hws, .of_keeps hst⟩

end Point.Among

/-- The lambda of a loop is the one that stands there. -/
theorem getElem?_lambdas_of_run {host : Host σ} {n : Nat} {source : String} {body : FunctionBody}
    {s t : State σ} {a : Address}
    (h : Eval.run host n source (.value (.lambda body)) s = (.ok (.lambda a), t)) :
    t.heap.lambdas[a]? = some ⟨body, t.scope, source⟩ := by
  cases n with
  | zero => cases h
  | succ n =>
    cases h
    simp

open Eval Discipline in
/-- **One step**: what a run comes to is visited among what is visited where it is. -/
theorem Point.Enters.among {host : Host σ} (hhost : host.LeavesNames) {source : String}
    {p q : Point σ} (h : p.Enters host source q) {vs : List Visit}
    (hvs : p.stage.Visited p.state vs) : q.Among vs p.state := by
  have hK := keepingNames_laws hhost
  have ho := obeys_run hK
  have hstay := State.Keeps.refl (F := fun _ => True) p.state
  have hcovers := covers_keepingNames (σ := σ)
  have hpermits := permits_keepingNames (σ := σ)
  cases h with
  | left =>
    cases hvs
    rw [Visits.expression]
    exact .first hstay rfl
  | right hl =>
    cases hvs
    rw [Visits.expression]
    exact .last (Visits.row_expression _) (keeps_value hhost hl) rfl
  | unary | vector | table | group | evaluate =>
    cases hvs
    rw [Visits.expression]
    exact .only hstay rfl
  | var =>
    cases hvs
    rw [Visits.expression]
    exact .only hstay ⟨_, rfl⟩
  | @item _ _ i _ _ hi =>
    obtain ⟨e, separator, span⟩ := i
    cases hi
    cases hvs
    rw [Visits.items, Visits.item]
    exact .first hstay rfl
  | @items _ _ i _ _ _ _ hi hv =>
    obtain ⟨e, separator, span⟩ := i
    cases hi
    cases hvs
    rw [Visits.items, Visits.item]
    exact .last (Visits.row_expression _) (keeps_value hhost hv) rfl
  | @noField _ _ i _ _ _ hi =>
    obtain ⟨f, separator, span⟩ := i
    cases hi
    cases hvs
    rw [Visits.fields, Visits.fieldItem]
    exact .only hstay rfl
  | @fieldKey _ _ i _ _ _ _ _ _ _ _ hi =>
    obtain ⟨f, separator, span⟩ := i
    cases hi
    cases hvs
    rw [Visits.fields, Visits.fieldItem, Visits.field, List.append_assoc]
    exact .first hstay rfl
  | @fieldValue _ _ i _ _ _ _ _ _ _ hi hk he =>
    obtain ⟨f, separator, span⟩ := i
    cases hi
    cases hvs
    obtain ⟨before, os, hbefore, hfield⟩ := Visits.exists_field_eq he
    rw [Visits.fields, Visits.fieldItem, hfield]
    exact .between hbefore (keeps_of_calm (calm_fieldKey hK (ho _) trivial (hcovers _) _
      (hpermits _)) hk) rfl
  | @fields _ _ i rest _ _ _ _ _ _ _ _ hi hk he hv =>
    obtain ⟨f, separator, span⟩ := i
    cases hi
    cases hvs
    have hkey := keeps_of_calm (calm_fieldKey hK (ho _) trivial (hcovers _) _ (hpermits _)) hk
    rw [Visits.fields, Visits.fieldItem]
    exact .last (Visits.row_field _) (hkey.trans (keeps_value hhost hv) fun _ => id) rfl
  | root =>
    cases hvs
    rw [Visits.computedRoot]
    exact .only hstay rfl
  | key =>
    obtain ⟨v, n, rfl⟩ := hvs
    rw [Visits.step]
    exact .only hstay rfl
  | stepKey =>
    obtain ⟨v, n, rfl⟩ := hvs
    rw [Visits.steps]
    exact .first hstay ⟨_, _, rfl⟩
  | @steps _ _ x _ _ _ _ _ _ hk hw =>
    obtain ⟨v, n, rfl⟩ := hvs
    have hrow := Visits.row_steps v n [x]
    rw [Visits.steps, Visits.steps, List.append_nil] at hrow
    have hkey := keeps_of_calm (calm_suffixKey hK (ho _) trivial (hcovers _) (hpermits _)) hk
    have hindex := keeps_of_calm (calm_index hK trivial (Region.holds_all _) _ _) hw
    rw [Visits.steps]
    exact .last hrow (hkey.trans hindex fun _ => id) ⟨_, _, rfl⟩
  | @chainRoot _ _ v =>
    obtain ⟨r, xs, span⟩ := v
    obtain ⟨kind, rfl⟩ := hvs
    obtain ⟨behind, hroot⟩ := Visits.exists_root_eq kind r
    rw [Visits.chain, hroot, List.append_assoc]
    exact .first hstay rfl
  | @chainSteps _ _ v _ _ hr =>
    obtain ⟨r, xs, span⟩ := v
    obtain ⟨kind, rfl⟩ := hvs
    obtain ⟨os, -, hrow⟩ := Visits.row_root kind r
    rw [Visits.chain]
    exact .last hrow (keeps_of_calm (calm_rootValue hK (ho _) trivial (hcovers _)
      (hpermits _)) hr) ⟨_, _, rfl⟩
  | @targetRoot _ _ v =>
    obtain ⟨e, rfl⟩ := hvs
    obtain ⟨r, xs, span⟩ := v
    cases xs with
    | nil =>
      rw [Visits.target]
      exact ⟨[.target r], _, [.define r e], rfl, rfl, .of_row (.one [] (fun _ => rfl) rfl rfl)
        hstay⟩
    | cons x rest =>
      have hlast : (Var.mk r (x :: rest) span).suffixes.getLast? = some _ :=
        List.getLast?_eq_some_getLast (List.cons_ne_nil x rest)
      obtain ⟨n, htarget⟩ := Visits.exists_target_eq e hlast
      obtain ⟨behind, hroot⟩ := Visits.exists_root_eq (some .assign) r
      rw [htarget, Var.root, hroot, List.append_assoc]
      exact .first hstay rfl
  | @targetSteps _ _ v _ _ _ hne hr =>
    obtain ⟨e, rfl⟩ := hvs
    obtain ⟨n, htarget⟩ := Visits.exists_target_eq e (List.getLast?_eq_some_getLast hne)
    obtain ⟨os, -, hrow⟩ := Visits.row_root (some .assign) v.root
    rw [htarget, ← List.append_assoc]
    exact .between hrow (keeps_of_calm (calm_rootValue hK (ho _) trivial (hcovers _)
      (hpermits _)) hr) ⟨_, _, rfl⟩
  | @targetKey _ _ v _ _ _ _ _ _ hlast hr hw =>
    obtain ⟨e, rfl⟩ := hvs
    obtain ⟨n, htarget⟩ := Visits.exists_target_eq e hlast
    obtain ⟨os, -, hrow⟩ := Visits.row_root (some .assign) v.root
    have hroot := keeps_of_calm (calm_rootValue hK (ho _) trivial (hcovers _) (hpermits _)) hr
    have hsteps := keeps_of_calm (calm_followSuffixes hK (ho _) trivial (hcovers _) (hpermits _)
      (Region.holds_all _)) hw
    rw [htarget, ← List.append_assoc]
    exact .last (hrow.append (Visits.row_steps v 0 _)) (hroot.trans hsteps fun _ => id) ⟨_, _, rfl⟩
  | argument =>
    cases hvs
    rw [Visits.arguments]
    exact .first hstay rfl
  | arguments _ hv =>
    cases hvs
    rw [Visits.arguments]
    exact .last (Visits.row_expression _) (keeps_value hhost hv) rfl
  | noArgument =>
    cases hvs
    rw [Visits.arguments]
    exact .last (Visits.row_expression _) hstay rfl
  | @callee _ _ c =>
    obtain ⟨v, es, span⟩ := c
    obtain ⟨kind, rfl⟩ := hvs
    rw [Visits.command, List.append_assoc]
    exact .first hstay ⟨_, rfl⟩
  | @given _ _ c _ _ hv =>
    obtain ⟨v, es, span⟩ := c
    obtain ⟨kind, rfl⟩ := hvs
    obtain ⟨os, hos, hchain⟩ := Visits.row_chain kind v
    have hrow := (hchain.callee hos).append (Row.one [] (v := .arguments (.mk v es span))
      (fun _ => rfl) rfl rfl)
    have hvisits : Visits.command kind (.mk v es span) = Visits.chain kind v ++ [.callee v] ++
        [.arguments (.mk v es span)] ++ Visits.arguments es ++ [.review (.mk v es span)] := by
      simp [Visits.command]
    rw [hvisits]
    exact .between hrow (keeps_of_calm (calm_calleeValue hK (ho _) trivial (hcovers _)
      (hpermits _) (hpermits _)) hv) rfl
  | @behind _ _ c _ hd =>
    obtain ⟨ampersand, d, span⟩ := c
    cases hd
    cases hvs
    rw [Visits.call]
    exact .only hstay ⟨_, rfl⟩
  | body =>
    cases hvs
    exact .only hstay (Visits.block_eq _)
  | block =>
    cases hvs
    exact ⟨[.enter []], _, [.leave], rfl, rfl, .scope _⟩
  | statement =>
    cases hvs
    rw [Visits.statements, List.append_assoc]
    exact .first hstay rfl
  | statements hx _ =>
    cases hvs
    rw [Visits.statements, List.append_assoc]
    exact ⟨_, _, [], (List.append_nil _).symm, rfl, tracks_statement hhost hx⟩
  | last =>
    cases hvs
    rw [Visits.statements]
    exact .only hstay rfl
  | leave =>
    cases hvs
    rw [Visits.last]
    exact .only hstay rfl
  | command =>
    cases hvs
    rw [Visits.statement]
    exact .only hstay ⟨_, rfl⟩
  | callStatement | expression =>
    cases hvs
    rw [Visits.statement]
    exact .only hstay rfl
  | assigned =>
    cases hvs
    rw [Visits.statement, Visits.optional]
    exact .first hstay rfl
  | assign hv =>
    cases hvs
    rw [Visits.statement, Visits.optional]
    exact .last (Visits.row_expression _) (keeps_value hhost hv) ⟨_, rfl⟩
  | conditional =>
    cases hvs
    rw [Visits.statement, Visits.elseIfs_eq]
    exact .only hstay rfl
  | @condition _ _ _ b _ c _ hc he =>
    obtain ⟨_, block, span⟩ := b
    obtain ⟨brackets, e⟩ := c
    cases hc
    cases he
    cases hvs
    rw [List.flatMap_cons, Visits.branch, Visits.condition, Visits.optional]
    simp only [List.append_assoc]
    exact .first hstay rfl
  | @branch _ _ _ b _ c _ _ _ braced hc he hv _ hb =>
    obtain ⟨_, block, span⟩ := b
    obtain ⟨brackets, e⟩ := c
    obtain ⟨braces, inner⟩ := braced
    cases hc
    cases he
    cases hb
    cases hvs
    rw [List.flatMap_cons, Visits.branch, Visits.condition, Visits.optional, Visits.block?,
      Visits.braced, List.append_assoc]
    exact .between (Visits.row_expression _) (keeps_value hhost hv) rfl
  | branches hc he hv _ =>
    cases hvs
    rw [List.flatMap_cons, List.append_assoc]
    exact .last (Visits.row_branch _) (keeps_value hhost hv) rfl
  | @otherwise _ _ o braced hb =>
    obtain ⟨token, block, span⟩ := o
    obtain ⟨braces, inner⟩ := braced
    cases hb
    cases hvs
    rw [Visits.otherwise, Visits.block?, Visits.braced]
    exact .only hstay rfl
  | @whileLoop _ _ _ c b =>
    obtain ⟨braces, inner⟩ := b
    cases hvs
    rw [Visits.statement, Visits.block?, Visits.braced]
    exact .only hstay rfl
  | @roundCondition _ _ c _ _ _ he =>
    obtain ⟨brackets, e⟩ := c
    cases he
    cases hvs
    rw [Visits.condition, Visits.optional]
    exact .first hstay rfl
  | @round _ _ c _ _ _ _ _ he hv _ =>
    obtain ⟨brackets, e⟩ := c
    cases he
    cases hvs
    rw [Visits.condition, Visits.optional]
    exact .last (Visits.row_expression _) (keeps_value hhost hv) rfl
  | rounds _ hv _ hb hg =>
    cases hvs
    have hblock := keeps_of_tidy (tidy_block hK (ho _) trivial (hcovers _) (hpermits _)) hb
    have hround := (keeps_value hhost hv).trans hblock fun _ => id
    exact .only (hround.trans (keeps_goesOn hhost hg) fun _ => id) rfl
  | @subject _ _ _ c _ _ _ he =>
    obtain ⟨brackets, e⟩ := c
    cases he
    cases hvs
    rw [Visits.statement, Visits.condition, Visits.optional]
    exact .first hstay rfl
  | @loopBody _ _ _ c _ _ _ _ _ he hv =>
    obtain ⟨brackets, e⟩ := c
    cases he
    cases hvs
    rw [Visits.statement, Visits.condition, Visits.optional, Visits.optional]
    exact .last (Visits.row_expression _) (keeps_value hhost hv) rfl
  | @forLoop _ _ _ c _ _ _ _ _ _ _ he hv ha =>
    obtain ⟨brackets, e⟩ := c
    cases he
    cases hvs
    have hst := (keeps_value hhost hv).trans (keeps_value hhost ha) fun _ => id
    rw [Visits.statement, Visits.condition, Visits.optional, Visits.optional]
    exact .last (Visits.row_expression _) hst ⟨_, _, getElem?_lambdas_of_run ha,
      Visits.expression.eq_def _⟩
  | @eachCall _ _ _ arguments _ _ b hclosure _ hb =>
    obtain ⟨body, source, hlambda, rfl⟩ := hvs
    rw [hclosure] at hlambda
    cases hlambda
    obtain ⟨bars, ps, block, span⟩ := body
    obtain ⟨braces, inner⟩ := b
    cases hb
    rw [Visits.body, Visits.braced]
    exact ⟨[.enter _], _, [.leave], rfl, rfl, .lambda _ _ arguments⟩
  | each hvalues hg =>
    obtain ⟨body, source, hlambda, rfl⟩ := hvs
    have hcall := keeps_of_tidy ((ho _).loop trivial trivial fun v _ => Region.holds_all v) hvalues
    have hround := hcall.trans (keeps_goesOn hhost hg) fun _ => id
    refine .only hround ⟨body, source, ?_, rfl⟩
    rw [hround.scope]
    exact hround.getElem?_lambdas hlambda

open Eval in
/-- **A run**: what it comes to is visited among what is visited where it starts. -/
theorem Point.ComesTo.among {host : Host σ} (hhost : host.LeavesNames) {source : String}
    {p q : Point σ} (h : p.ComesTo host source q) {vs : List Visit}
    (hvs : p.stage.Visited p.state vs) : q.Among vs p.state := by
  induction h with
  | refl => exact .only (.refl p.state) hvs
  | tail _ hstep ih =>
    obtain ⟨before, ws, behind, rfl, hws, htracks⟩ := ih
    obtain ⟨before', ws', behind', rfl, hws', htracks'⟩ := hstep.among hhost hws
    exact ⟨before ++ before', ws', behind' ++ behind, by simp, hws', htracks.trans htracks'⟩

end CommandScript
