import CommandScript.Run.Host
import CommandScript.Token.Literal
import CommandScript.Value.Tuple
/-!
# CommandScript — evaluation

What each part of a tree does. Where a part has to be evaluated inside another
one, it is asked for through `self`, so the definitions here stand in no circle;
`CommandScript.Run.Basic` closes it under a budget. Lists of statements and of
arguments are walked along; only `while` has no bound of its own, and takes its
rounds from the budget.

Failures happen where the order of evaluation puts them: operands from left to
right, an assigned value before its target, a callee before its arguments.
-/

namespace CommandScript

/-- What an evaluation can ask for inside itself. -/
inductive Task (σ : Type) where
  /-- The value of an expression. -/
  | value (e : Expression)
  /-- The statements of a block, in the current scope. -/
  | body (b : Block)
  /-- A call of a lambda. A loop takes care itself of a statement that leaves the
  lambda. -/
  | call (lambda : Address) (arguments : List Value) (loop : Bool)
  /-- What follows from the reply of a command. -/
  | reply (r : Reply σ)

/-- What comes of a task. -/
@[reducible] def Task.Result {σ : Type} : Task σ → Type
  | .value _ | .reply _ => Value
  | .body _ => Unit
  | .call .. => List Value

namespace Eval

open Exec

section Steps

variable {σ : Type} (host : Host σ) (budget : Nat)
variable (self : String → (t : Task σ) → Exec σ t.Result) (source : String)

/-! ## Values and containers -/

/-- The text of a value in a message. -/
def shown (v : Value) : Exec σ String := do orCrash ((← get).heap.format v)

/-- What an operator gives, or the failure it is refused with. -/
def operated (span : Span) : Except OperatorFault Value → Exec σ Value
  | .ok v => pure v
  | .error (.refused r) => fail (.refused r) span
  | .error (.crashed c) => crash c

/-- The value of an expression that has to be there. -/
def required (e : Option Expression) (span : Span) : Exec σ Value :=
  match e with
  | some e => self source (.value e)
  | none => fail .missingExpression span

/-- A key that a table accepts. -/
def tableKey (key : Value) (span : Span) : Exec σ Value :=
  match key with
  | .nil => fail .nilKey span
  | k => if k.isKey then pure k else fail (.tableKey k.kind) span

/-- The index that a whole number is. -/
def vectorIndex (key : Value) (span : Span) : Exec σ Int :=
  match key with
  | .number n =>
    match n.toInt? with
    | some i => pure i
    | none => do fail (.vectorKey (← shown key)) span
  | k => do fail (.vectorKey (← shown k)) span

/-- What a container holds under a key. -/
def index (container key : Value) (span : Span) : Exec σ Value := do
  match container with
  | .nil => fail (.indexNil (← shown key)) span
  | .table a =>
    match key with
    | .nil => pure .nil
    | key => do
      let key ← tableKey key span
      return (((← get).heap.table a).get? key).getD .nil
  | .vector a =>
    let i ← vectorIndex key span
    if 1 ≤ i then return ((← get).heap.vector a)[(i - 1).toNat]?.getD .nil else return .nil
  | .string _ | .bool _ | .number _ => fail (.notIndexable container.kind) span
  | .tuple _ | .lambda _ | .command _ | .object _ | .method .. =>
    match key with
    | .string name =>
      if name.startsWith "_" then fail (.privateField name) span
      else match container with
        | .object o => return host.field o name (← get)
        | .tuple a => return ((TupleMethod.ofName? name).map (.method a)).getD .nil
        | _ => return .nil
    | key => fail (.objectKey key.kind) span

/-- Put a value into a container. A table takes nil as the wish to forget the key;
a vector grows by one place at a time. -/
def setIndex (container key value : Value) (span : Span) : Exec σ Unit := do
  match container with
  | .nil => fail (.indexNil (← shown key)) span
  | .table a =>
    let key ← tableKey key span
    modify fun s =>
      let t := s.heap.table a
      let t := match value with
        | .nil => t.erase key
        | v => t.insert key v
      { s with heap := s.heap.setTable a t }
  | .vector a =>
    let i ← vectorIndex key span
    let items := (← get).heap.vector a
    if 1 ≤ i ∧ i ≤ items.length then
      modify fun s => { s with heap := s.heap.setVector a (items.set (i - 1).toNat value) }
    else if i = items.length + 1 then
      modify fun s => { s with heap := s.heap.setVector a (items ++ [value]) }
    else match Decimal.ofInt? i with
      | some text => fail (.indexOutOfRange text) span
      | none => crash .tooManyDigits
  | c => fail (.notWritable c.kind) span

/-! ## Variables -/

/-- The name that a variable chain begins with. -/
def rootName (r : VarRoot) : Exec σ String :=
  match r with
  | .bare t => pure t.text
  | .named _ name span =>
    match name with
    | some t => pure t.text
    | none => fail .missingVariable span
  | .computed _ _ inner span => do
    match ← required self source inner span with
    | .string name => pure name
    | v => fail (.variableName v.kind) span

/-- The value that a variable chain begins with: a bare name is looked up among
the globals first. -/
def rootValue (r : VarRoot) : Exec σ Value := do
  let global ← match r with
    | .bare t => pure ((← get).globals.get? t.text)
    | _ => pure none
  match global with
  | some v => pure v
  | none =>
    let name ← rootName self source r
    return (← get).frames.get (← get).scope name

/-- The key of a step of a variable chain. -/
def suffixKey (s : VarSuffix) : Exec σ Value :=
  match s with
  | .field _ name span =>
    match name with
    | some t => pure (.string t.text)
    | none => fail .missingField span
  | .index _ _ inner span => required self source inner span

/-- Follow the steps of a variable chain. -/
def followSuffixes : List VarSuffix → Value → Exec σ Value
  | [], v => pure v
  | s :: rest, v => do
    let key ← suffixKey self source s
    followSuffixes rest (← index host v key s.span)

/-- The value of a variable chain. -/
def varValue (v : Var) : Exec σ Value := do
  followSuffixes host self source v.suffixes (← rootValue self source v.root)

/-- Assign a value that was evaluated to a variable chain. -/
def assign (target : Var) (value : Value) : Exec σ Unit := do
  match target.suffixes.getLast? with
  | none =>
    let name ← rootName self source target.root
    modify fun s => { s with frames := s.frames.assign s.scope name value }
  | some last =>
    let root ← rootValue self source target.root
    let container ← followSuffixes host self source target.suffixes.dropLast root
    let key ← suffixKey self source last
    setIndex container key value last.span

/-! ## Calls -/

/-- The line of a call, if the text is at hand. -/
def callLine (span : Span) : Option Nat :=
  if source.isEmpty then none else some (lineOf source.toList span.start)

/-- Call a lambda. The new frame is below the one it was made in. What left the
body is taken up here: the values of a `return` are the values of the call. -/
def callLambda (lambda : Address) (arguments : List Value) (loop : Bool) : Exec σ (List Value) := do
  let s ← get
  match s.heap.lambdas[lambda]? with
  | none => pure []
  | some closure =>
    if s.maxDepth ≤ s.depth then fail .callDepth closure.body.span
    let (frame, frames) := s.frames.child closure.frame true
    let given := closure.body.names.mapIdx fun i name => (name, arguments[i]?.getD .nil)
    let vars := given.foldl (fun vars e => vars.insert e.1 e.2) ({} : Names Value)
    set { s with frames := frames.setVars frame vars, depth := s.depth + 1 }
    let body : Exec σ Unit := match closure.body.block with
      | some b => self source (.body b.block)
      | none => pure ()
    finishing
      (tryCatch (within frame body) fun
        | .crashed .endless => fail .endless closure.body.span
        | e => throw e)
      fun s => { s with depth := s.depth - 1 }
    match (← get).pending with
    | none => pure []
    | some p =>
      if loop then return []
      modify fun s => { s with pending := none }
      match p.statement with
      | .return .. => return p.values
      | other => fail (.leavesLambda other.token.text) other.span

/-- Call a function for the host. A lambda counts lines in its own text, and its
values come as one. -/
def callForHost (f : Value) (arguments : List Value) : Exec σ Value := do
  match f with
  | .lambda a =>
    let origin := ((← get).heap.lambdas[a]?.map (·.source)).getD ""
    let values ← self origin (.call a arguments false)
    make fun h => h.unpacked values
  | .command name => self source (.reply (host.command name arguments (← get)))
  | .method a m => do orCrash (m.answer (← get).heap a arguments)
  | v => crash (.notCallable (Heap.className v))

/-- Call a function for a script. The call is open while it runs. An error of a
command is a failure of the script. -/
def invoke (callee : Value) (arguments : List Value) (name : String) (span : Span) :
    Exec σ (List Value) := do
  let origin := match callee with
    | .lambda _ => Origin.script
    | _ => Origin.host
  let entry : TraceEntry := ⟨origin, name, callLine source span⟩
  modify fun s => { s with calls := entry :: s.calls }
  finishing
    (match callee with
      | .lambda a => self source (.call a arguments false)
      | c => do
        let result ← tryCatch (callForHost host self source c arguments) fun
          | .crashed crash => fail (.commandFailed name crash.message) span
          | e => throw e
        return (← get).heap.packed result)
    fun s => { s with calls := s.calls.tail }

/-- The values of arguments; parentheses around nothing give none. -/
def argumentValues : List Expression → Exec σ (List Value)
  | [] => pure []
  | e :: rest =>
    if e.isEmptyGroup then argumentValues rest
    else do
      let v ← self source (.value e)
      return v :: (← argumentValues rest)

/-- What is called: a bare name has to be a global or a variable. -/
def calleeValue (v : Var) : Exec σ Value := do
  let s ← get
  match v.bareName? with
  | some name =>
    if s.globals.has name || s.frames.has s.scope name then varValue host self source v
    else fail (.unknownCommand name) v.span
  | none => varValue host self source v

/-- The values of a command. What cannot be called is its own value where it
stands alone. -/
def command (c : Command) : Exec σ (List Value) := do
  let callee ← calleeValue host self source c.callee
  let arguments ← argumentValues self source c.arguments
  if callee.isCallable then invoke host self source callee arguments c.callee.display c.span
  else if arguments.isEmpty then pure [callee]
  else fail (.notCallable c.callee.display callee.kind) c.callee.span

/-- The values of a command behind `&`. -/
def call (c : Call) : Exec σ (List Value) :=
  match c.command with
  | none => fail .missingCommand c.span
  | some command => Eval.command host self source command

/-! ## Expressions -/

/-- The values of the items of a vector. -/
def itemValues : Separated Expression → Exec σ (List Value)
  | [] => pure []
  | i :: rest => do
    let v ← required self source i.value i.span
    return v :: (← itemValues rest)

/-- The key of a table field; one without a key is numbered. -/
def fieldKey (position : Int) (f : TableField) : Exec σ Value :=
  match f with
  | .named name _ _ _ => pure (.string name.text)
  | .keyed _ key _ _ span => do tableKey (← required self source key span) span
  | .positional .. => pure (.int position)

/-- The entries of a table. A field whose value is nil makes no entry. -/
def fieldEntries (position : Int) (t : Table Value) : Separated TableField → Exec σ (Table Value)
  | [] => pure t
  | i :: rest =>
    match i.value with
    | none => fieldEntries position t rest
    | some f => do
      let key ← fieldKey self source position f
      let next := match f with
        | .positional .. => position + 1
        | _ => position
      match ← required self source f.value f.span with
      | .nil => fieldEntries next t rest
      | v => fieldEntries next (t.insert key v) rest

/-- The value of two operands and an operator; `and` and `or` look at the right
operand only where the left one leaves the answer open. -/
def binary (left : Expression) (operator : Token) (right : Option Expression) (span : Span) :
    Exec σ Value := do
  let l ← self source (.value left)
  match operator.kind with
  | .kwAnd => if l.isTruthy then required self source right span else pure l
  | .kwOr => if l.isTruthy then pure l else required self source right span
  | k =>
    let r ← required self source right span
    operated span (Operator.binary (← get).heap k l r)

/-- The failure of reaching skipped tokens. -/
def refuseSkipped {α : Type} (k : Skipped) : Exec σ α :=
  fail (.invalidSyntax (" ".intercalate (k.tokens.map (·.text)))) k.span

/-- The value of an expression. -/
def value (e : Expression) : Exec σ Value :=
  match e with
  | .nil _ => pure .nil
  | .boolean t => pure (.bool (t.kind == .kwTrue))
  | .number t =>
    match t.numberValue? with
    | some n => pure (.number n)
    | none => fail .literalDigits t.span
  | .string t => pure (.string t.stringValue)
  | .binary l o r s => binary self source l o r s
  | .unary o v s => do
    operated s (Operator.unary o.kind (← required self source v s))
  | .vector _ is _ => do
    let items ← itemValues self source is
    make fun h => h.newVector items
  | .table _ fs _ => do
    let t ← fieldEntries self source 1 {} fs
    make fun h => h.newTable t
  | .lambda body => do
    let frame := (← get).scope
    make fun h => h.newLambda ⟨body, frame, source⟩
  | .group _ inner _ =>
    match inner with
    | none => pure .nil
    | some e => self source (.value e)
  | .var v => varValue host self source v
  | .call c => return (← call host self source c).headD .nil
  | .skipped k => refuseSkipped k

/-! ## Statements and blocks -/

/-- Run a block in a new frame. -/
def block (b : Block) : Exec σ Unit := do
  let s ← get
  let (frame, frames) := s.frames.child s.scope false
  set { s with frames }
  within frame (self source (.body b))

/-- Run the first branch whose condition holds; none is left to say so. -/
def branches (otherwise : Exec σ Unit) : List Branch → Exec σ Unit
  | [] => otherwise
  | b :: rest => do
    match b.condition with
    | none => fail .incompleteCondition b.span
    | some c =>
      if (← required self source c.inner c.span).isTruthy then
        match b.block with
        | none => fail .missingBranchBlock b.span
        | some braced => block self source braced.block
      else branches otherwise rest

/-- Behind a round of a loop: the loop goes on unless something leaves it. A
`break` or `continue` is used up by the loop it is met in. -/
def goesOn : Exec σ Bool := do
  match (← get).pending with
  | none => pure true
  | some p =>
    match p.statement with
    | .break _ => modify fun s => { s with pending := none }; pure false
    | .continue _ => modify fun s => { s with pending := none }; pure true
    | .return .. => pure false

/-- Repeat a block while a condition holds. -/
def whileLoop (condition : Condition) (body : Block) : Exec σ Unit :=
  repeated (do
    if (← required self source condition.inner condition.span).isTruthy then
      block self source body
      goesOn
    else pure false) budget

/-- Call a lambda for each item of a vector or table, with its index or key, or for
each number up to one. -/
def forLoop (subject : Value) (span : Span) (lambda : Address) : Exec σ Unit := do
  let round (arguments : List Value) : Exec σ Bool := do
    let _ ← self source (.call lambda arguments true)
    goesOn
  match subject with
  | .vector a =>
    forEach round (((← get).heap.vector a).mapIdx fun i v => [v, .int (i + 1)])
  | .table a =>
    forEach round (((← get).heap.table a).entries.map fun e => [e.2, e.1])
  | .number n =>
    match n.toFloat? with
    | none => crash .beyondFloat
    | some _ =>
      match n.exact.truncate? with
      | none => do fail (.notIterable (← shown subject)) span
      | some last => forCount (fun i => round [.int i]) 1 last.toNat
  | v => fail (.notIterable v.kind.name) span

/-- Run a statement. Commands and expressions have values, other statements have
none. -/
def statement (s : Statement) : Exec σ (Option (List Value)) := do
  match s with
  | .command c => some <$> command host self source c
  | .call c => some <$> call host self source c
  | .expression e => return some [← self source (.value e)]
  | .assign target _ v span =>
    assign host self source target (← required self source v span)
    pure none
  | .conditional _ first others otherwise _ =>
    branches self source
      (match otherwise with
        | none => pure ()
        | some o =>
          match o.block with
          | none => fail .missingElseBlock o.span
          | some b => block self source b.block)
      (first :: others.map (·.branch))
    pure none
  | .whileLoop _ condition body span =>
    match condition, body with
    | some c, some b => whileLoop budget self source c b.block
    | _, _ => fail .incompleteWhile span
    pure none
  | .forLoop _ subject body span =>
    match subject, body with
    | some c, some e =>
      let v ← required self source c.inner c.span
      match ← self source (.value e) with
      | .lambda a => forLoop self source v c.span a
      | other => fail (.loopBody other.kind) e.span
    | _, _ => fail .incompleteFor span
    pure none
  | .skipped k => refuseSkipped k

/-- Put the statement that leaves a block on its way. -/
def leave (l : LastStatement) : Exec σ Unit := do
  let values ← match l with
    | .return _ vs _ => itemValues self source vs
    | _ => pure []
  modify fun s => { s with pending := some ⟨s.scope, l, values⟩ }

/-- Run statements up to one after which something is on its way out, and give the
values of the last one that was run. -/
def statements (last : Option LastStatement) (result : Option (List Value)) :
    List Statement → Exec σ (Option (List Value))
  | [] => do
    match last with
    | some l => leave self source l
    | none => pure ()
    pure result
  | s :: rest => do
    let values ← statement host budget self source s
    if (← get).pending.isSome then pure values else statements last values rest

/-- The rule of a task. -/
def rule : (t : Task σ) → Exec σ t.Result
  | .value e => value host self source e
  | .body b => do let _ ← statements host budget self source b.last none b.body
  | .call lambda arguments loop => callLambda self source lambda arguments loop
  | .reply r => r.follow (callForHost host self source)

end Steps

end Eval

end CommandScript
