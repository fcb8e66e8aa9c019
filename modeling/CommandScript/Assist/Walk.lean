import CommandScript.Assist.Static
import CommandScript.Assist.Rank
import CommandScript.Shape.Suggest
import CommandScript.Issue
/-!
# CommandScript — a walk over a half-typed text

The walk goes through a tree in the order of the text and keeps track of the
variables in sight. It notes two things on the way: what could stand at the caret
— the last place found counts — and what is wrong with commands, arguments and
variables.

An issue about the place where someone is typing would be noise, so some are held
back while the caret is there.
-/

namespace CommandScript

/-- What the walk knows from the start. -/
structure AssistContext where
  globals : Names Value
  globalShapes : Names SharedShape
  varShapes : Names SharedShape
  text : List Char
  /-- The caret; a negative one is nowhere. -/
  caret : Int
  /-- Unknown variables are reported. -/
  reportVariables : Bool := true

/-- What the walk finds out. -/
structure Findings where
  heap : Heap
  /-- The variables in sight, innermost frame first. -/
  frames : List (Names Known)
  /-- The issues found so far, newest first. -/
  issues : List Issue := []
  completion : Option Completion := none

/-- A step of the walk. -/
abbrev Walk := ExceptT Crash (StateM Findings)

namespace Walk

/-- Go on with a result, or crash. -/
def orCrash : Except Crash α → Walk α
  | .ok a => pure a
  | .error c => throw c

/-- Blanks and nothing else stand between two offsets in order. -/
def isBlankBetween (text : List Char) (start stop : Int) : Bool :=
  start ≤ stop && (((text.drop start.toNat).take (stop - start).toNat).all isBlank)

section Steps

variable (ctx : AssistContext)

/-- The empty span at the caret. -/
def atCaret : Span := .point ctx.caret.toNat

/-- Note an issue. -/
def note (k : Issue.Kind) (span : Span) (message : String) : Walk Unit :=
  modify fun f => { f with issues := .raise k span message :: f.issues }

/-- Note what could stand at the caret. -/
def offer (c : Completion) : Walk Unit := modify fun f => { f with completion := some c }

/-- Walk with a frame of variables around. -/
def framed (vars : Names Known) (step : Walk Unit) : Walk Unit := do
  modify fun f => { f with frames := vars :: f.frames }
  step
  modify fun f => { f with frames := f.frames.tail }

/-- What is known where the walk is. -/
def surround : Walk Surround :=
  return ⟨ctx.globals, ctx.globalShapes, ctx.varShapes, (← get).frames⟩

/-- Compute something known; what is built for it is in the heap that comes with it. -/
def glimpse (step : Surround → Static α) : Walk (α × Heap) := do
  let s ← surround ctx
  orCrash ((step s).run (← get).heap)

/-- Compute something known, and keep what is built for it. -/
def known (step : Surround → Static α) : Walk α := do
  let (a, heap) ← glimpse ctx step
  modify fun f => { f with heap }
  pure a

/-- The frames with a variable assigned: in the innermost frame that has it, or
else in the innermost one. -/
def defineIn (name : String) (v : Known) (frames : List (Names Known)) : List (Names Known) :=
  match frames.findIdx? (·.has name) with
  | some i => frames.modify i (·.insert name v)
  | none => frames.modify 0 (·.insert name v)

/-- A variable of the name is in sight. -/
def sees (name : String) : Walk Bool := return (← get).frames.any (·.has name)

/-- The names of variables, outer frames first, and those with a shape. -/
def variableNames : Walk (List String) := do
  let frames := (← get).frames.reverse.map fun f => f.names
  return (frames.flatten ++ ctx.varShapes.names).foldl
    (fun seen n => if seen.contains n then seen else seen ++ [n]) []

/-! ## What could stand at the caret -/

/-- What is known about a name from its shape. -/
def metadata (name : String) (shapes : Names SharedShape) : Walk (Option Metadata) := do
  match shapes.get? name with
  | none => pure none
  | some s =>
    let type ← orCrash (s.shape.describe (← get).heap)
    match s.shape.command? with
    | some c => return some ⟨c.name, c.description.getD "", type⟩
    | none => return some ⟨name, "", type⟩

/-- The shape of a command by its global name. -/
def commandShape (name : String) : Option CommandShape :=
  (ctx.globalShapes.get? name).bind (·.shape.command?)

/-- Globals as candidates. -/
def globalCandidates (kind : Option SuggestionKind) : Walk (List Suggestion) :=
  ctx.globals.names.mapM fun name => do
    return { text := name, display := name, kind, metadata := ← metadata name ctx.globalShapes }

/-- Offer globals. -/
def offerGlobals (replace : Span) (typed : String) (kind : Option SuggestionKind) : Walk Unit := do
  let candidates ← globalCandidates ctx kind
  let info ← match commandShape ctx typed with
    | none => pure none
    | some c => do
      let type ← orCrash (Shape.describeCommand (← get).heap c)
      pure (some (⟨c.name, c.description, type⟩ : PlaceInfo))
  offer { replace, candidates, typed, info }

/-- Offer variables. -/
def offerVariables (replace : Span) (typed : String) (kind : Option SuggestionKind) : Walk Unit := do
  let candidates ← (← variableNames ctx).mapM fun name => do
    return ({ text := name, display := "$" ++ name, kind,
              metadata := ← metadata name ctx.varShapes } : Suggestion)
  offer { replace, candidates, typed }

/-- The fields of a known table as candidates. -/
def tableCandidates (h : Heap) : Known → List Suggestion
  | some (.table a) => (h.table a).keys.filterMap fun
    | .string key => some { text := key, display := key, kind := some .expression }
    | _ => none
  | _ => []

/-- The fields that a shape declares as candidates. -/
def shapeCandidates : Option Shape → Walk (List Suggestion)
  | some (.table fields notes _ _) =>
    (fields.getD {}).entries.filterMapM fun e => do
      match e.1 with
      | .string key =>
        let type ← orCrash (e.2.describe (← get).heap)
        let note := ((notes.bind (·.get? (.string key))).bind fun n => n).getD ""
        return some { text := key, display := key, kind := some .expression,
                      metadata := some ⟨key, note, type⟩ }
      | _ => pure none
  | _ => pure []

/-- Offer the fields of what a chain is before a step. -/
def offerFields (v : Var) (step : Nat) (replace : Span) (typed : String) : Walk Unit := do
  let ((value, shape), heap) ← glimpse ctx (Static.chainBefore · v step)
  let fromValue := tableCandidates heap value
  let fromShape ← shapeCandidates shape
  offer { replace, candidates := fromValue ++ fromShape, typed }

/-- The token of a literal. -/
def literalToken? : Expression → Option Token
  | .string t | .number t | .boolean t | .nil t => some t
  | _ => none

/-- Offer values for an argument. -/
def offerArgument (command : Option CommandShape) (arguments : List Expression) (index : Nat) :
    Walk Unit := do
  let argument := arguments[index]?
  let token := argument.bind literalToken?
  let replace := (token.map (·.span)).getD (atCaret ctx)
  let typed := (token.map (·.text)).getD ""
  match command.bind (·.argument? index) with
  | none => offer { replace, candidates := [], typed }
  | some spec =>
    let type ← orCrash (Shape.describeOptional (← get).heap spec.shape)
    let candidates ← match spec.shape with
      | some s =>
        if argument.isNone || token.isSome then orCrash (s.suggest (← get).heap typed) else pure []
      | none => pure []
    offer { replace, candidates, typed, info := some ⟨spec.name, some spec.description, type⟩ }

/-! ## Arguments -/

/-- The argument that the caret is at, or would begin. -/
def argumentAtCaret (c : Command) (arguments : List Expression) : Option Nat :=
  if ctx.caret ≤ c.callee.span.stop then none
  else match arguments.findIdx? (·.span.touches ctx.caret) with
    | some i => some i
    | none =>
      if (c.span.stop : Int) < ctx.caret then
        if isBlankBetween ctx.text c.span.stop ctx.caret then some arguments.length else none
      else some (arguments.countP fun a => (a.span.stop : Int) < ctx.caret)

/-- Someone is still typing at the end of a span. -/
def typingBehind (span : Span) : Bool :=
  (span.start : Int) ≤ ctx.caret &&
    (ctx.caret ≤ span.stop || isBlankBetween ctx.text span.stop ctx.caret)

/-- The first argument that is required and not given. -/
def firstMissing (given : Nat) : Nat → List ArgumentShape → Walk (Option ArgumentShape)
  | _, [] => pure none
  | position, a :: rest => do
    let required ← if a.variadic then pure false
      else do pure !(← orCrash (Shape.acceptsNil (← get).heap a.shape))
    let later ← firstMissing given (position + 1) rest
    return if required && given ≤ position then some a else later

/-- Check one argument against its shape. -/
def checkArgument (command : CommandShape) (index : Nat) (argument : Expression) : Walk Unit := do
  match command.argument? index with
  | none => pure ()
  | some spec =>
    match spec.shape with
    | none => pure ()
    | some shape =>
      match ← known ctx (Static.value · argument) with
      | none => pure ()
      | some v =>
        let exact := !argument.span.touches ctx.caret
        let h := (← get).heap
        if (← orCrash (shape.matchWith h exact v)).isNone then
          let type ← orCrash (shape.describe h)
          let got ← orCrash (h.format v)
          note .typeMismatch argument.span
            ("Argument `" ++ spec.name ++ "` expects " ++ type ++ ", got " ++ got)

/-- Check arguments one after the other. -/
def checkEach (command : CommandShape) : Nat → List Expression → Walk Unit
  | _, [] => pure ()
  | index, a :: rest => do
    checkArgument ctx command index a
    checkEach command (index + 1) rest

/-- Check how many arguments there are, and each of them. -/
def checkArguments (c : Command) (command : CommandShape) (arguments : List Expression) :
    Walk Unit := do
  let expected := command.arguments.length
  if !command.isVariadic && expected < arguments.length then
    match Span.coverAll ((arguments.drop expected).map fun a => some a.span) with
    | none => pure ()
    | some span =>
      note .argumentCount span ("`" ++ command.name ++ "` takes " ++ toString expected ++
        " argument(s) but " ++ toString arguments.length ++ " were given")
  match ← firstMissing arguments.length 0 command.arguments with
  | none => pure ()
  | some a =>
    if !typingBehind ctx c.span then
      note .argumentCount c.callee.span ("Missing argument `" ++ a.name ++ "` for `" ++
        command.name ++ "`")
  checkEach ctx command 0 arguments

/-! ## Variables and commands, but for what is inside them -/

/-- What there is to say about where a chain begins, and about a variable there. -/
def visitRoot (kind : Option SuggestionKind) : VarRoot → Walk Unit
  | .bare t =>
    if t.span.touches ctx.caret then offerGlobals ctx t.span t.text kind else pure ()
  | .named dollar none _ =>
    if (dollar.span.stop : Int) = ctx.caret then offerVariables ctx (atCaret ctx) "" kind
    else pure ()
  | .named _ (some t) span => do
    if t.span.touches ctx.caret then offerVariables ctx t.span t.text kind
    else if ctx.reportVariables && !((← sees t.text) || ctx.varShapes.has t.text) then
      note .unknownVariable span ("Unknown variable `$" ++ t.text ++ "`")
  | .computed .. => pure ()

/-- What there is to say about a step of a chain. -/
def visitSuffix (v : Var) (step : Nat) : VarSuffix → Walk Unit
  | .field period none _ =>
    if (period.span.stop : Int) = ctx.caret then offerFields ctx v step (atCaret ctx) ""
    else pure ()
  | .field _ (some t) _ =>
    if t.span.touches ctx.caret then offerFields ctx v step t.span t.text else pure ()
  | .index .. => pure ()

/-- What there is to say about what is called: a bare name has to be known. -/
def reviewCallee (v : Var) : Walk Unit := do
  match v.bareName? with
  | some name =>
    if !(ctx.globals.has name || (← sees name)) then
      note .unknownCommand v.span ("Unknown command `" ++ name ++ "`")
  | none => pure ()

/-- What there is to say about the arguments before they are walked over. -/
def visitArguments (c : Command) : Walk Unit := do
  let arguments := c.arguments.filter (!·.isEmptyGroup)
  match argumentAtCaret ctx c arguments with
  | some index => offerArgument ctx (c.callee.bareName?.bind (commandShape ctx)) arguments index
  | none => pure ()

/-- What there is to say about the arguments after they are walked over. -/
def reviewArguments (c : Command) : Walk Unit := do
  match c.callee.bareName?.bind (commandShape ctx) with
  | some command => checkArguments ctx c command (c.arguments.filter (!·.isEmptyGroup))
  | none => pure ()

/-- The name that an assignment gives a value to. -/
def assignedToken? : VarRoot → Option Token
  | .bare t => some t
  | .named _ name _ => name
  | .computed .. => none

/-- What there is to say about the target of an assignment; whether that was
something. -/
def visitTarget (r : VarRoot) : Walk Bool := do
  match r, assignedToken? r with
  | _, some t =>
    if t.span.touches ctx.caret then do offerVariables ctx t.span t.text (some .assign); pure true
    else pure false
  | .named dollar _ _, none =>
    if (dollar.span.stop : Int) = ctx.caret then do
      offerVariables ctx (atCaret ctx) "" (some .assign)
      pure true
    else pure false
  | _, none => pure false

/-- Give a name the value that is known of an expression. -/
def define (r : VarRoot) (e : Option Expression) : Walk Unit := do
  match assignedToken? r with
  | none => pure ()
  | some t =>
    let v ← known ctx (Static.valueOptional · e)
    modify fun f => { f with frames := defineIn t.text v f.frames }

/-! ## The walk -/

mutual

def expression : Expression → Walk Unit
  | .binary l _ r _ => do expression l; optional r
  | .unary _ v _ => optional v
  | .vector _ is _ => items is
  | .table _ fs _ => fields fs
  | .lambda b => body b
  | .group _ e _ => optional e
  | .var v => chain (some .expression) v
  | .call c => call c
  | .nil _ | .boolean _ | .number _ | .string _ | .skipped _ => pure ()

def optional : Option Expression → Walk Unit
  | none => pure ()
  | some e => expression e

def item : SeparatedItem Expression → Walk Unit
  | ⟨v, _, _⟩ => optional v

def items : List (SeparatedItem Expression) → Walk Unit
  | [] => pure ()
  | i :: rest => do item i; items rest

def field : TableField → Walk Unit
  | .named _ _ v _ => optional v
  | .keyed _ k _ v _ => do optional k; optional v
  | .positional v _ => expression v

def fieldItem : SeparatedItem TableField → Walk Unit
  | ⟨none, _, _⟩ => pure ()
  | ⟨some f, _, _⟩ => field f

def fields : List (SeparatedItem TableField) → Walk Unit
  | [] => pure ()
  | i :: rest => do fieldItem i; fields rest

/-- A lambda is walked over where it stands, with parameters of unknown value. -/
def body : FunctionBody → Walk Unit
  | .mk _ _ none _ => pure ()
  | .mk bars ps (some b) span =>
    framed ((FunctionBody.mk bars ps none span).names.foldl (fun t n => t.insert n none) {})
      (bracedBody b)

def bracedBody : Braced → Walk Unit
  | .mk _ b => block b

def root (kind : Option SuggestionKind) : VarRoot → Walk Unit
  | .computed _ _ e _ => optional e
  | r => visitRoot ctx kind r

def chain (kind : Option SuggestionKind) : Var → Walk Unit
  | .mk r ss span => do
    root kind r
    steps (.mk r ss span) 0 ss

def step (v : Var) (n : Nat) : VarSuffix → Walk Unit
  | .index _ _ e _ => optional e
  | s => visitSuffix ctx v n s

def steps (v : Var) (n : Nat) : List VarSuffix → Walk Unit
  | [] => pure ()
  | s :: rest => do step v n s; steps v (n + 1) rest

def arguments : List Expression → Walk Unit
  | [] => pure ()
  | e :: rest => do expression e; arguments rest

def command (kind : Option SuggestionKind) : Command → Walk Unit
  | .mk v as span => do
    chain kind v
    reviewCallee ctx v
    visitArguments ctx (.mk v as span)
    arguments as
    reviewArguments ctx (.mk v as span)

def call : Call → Walk Unit
  | .mk ampersand none _ =>
    if (ampersand.span.stop : Int) = ctx.caret then
      offerGlobals ctx (atCaret ctx) "" (some .expression)
    else pure ()
  | .mk _ (some c) _ => command (some .expression) c

/-- The target of an assignment. Where a step follows, it is a chain like any
other; else its name comes into sight. -/
def target (e : Option Expression) : Var → Walk Unit
  | .mk r ss span => do
    if ss.isEmpty then
      if !(← visitTarget ctx r) then computedRoot r
      define ctx r e
    else
      root (some .assign) r
      steps (.mk r ss span) 0 ss

def computedRoot : VarRoot → Walk Unit
  | .computed _ _ e _ => optional e
  | _ => pure ()

def statement : Statement → Walk Unit
  | .command c => command none c
  | .call c => call c
  | .expression e => expression e
  | .assign v _ e _ => do optional e; target e v
  | .conditional _ first others o _ => do branch first; elseIfs others; otherwise o
  | .whileLoop _ c b _ => do condition c; braced b
  | .forLoop _ c b _ => do condition c; optional b
  | .skipped _ => pure ()

def condition : Option Condition → Walk Unit
  | none => pure ()
  | some (.mk _ e) => optional e

def branch : Branch → Walk Unit
  | .mk c b _ => do condition c; braced b

def elseIf : ElseIf → Walk Unit
  | .mk _ b _ => branch b

def elseIfs : List ElseIf → Walk Unit
  | [] => pure ()
  | e :: rest => do elseIf e; elseIfs rest

def otherwise : Option Otherwise → Walk Unit
  | none => pure ()
  | some (.mk _ b _) => braced b

/-- A block is walked over in a frame of its own. -/
def braced : Option Braced → Walk Unit
  | none => pure ()
  | some (.mk _ b) => framed {} (block b)

def statements : List Statement → Walk Unit
  | [] => pure ()
  | s :: rest => do statement s; statements rest

def last : LastStatement → Walk Unit
  | .return _ vs _ => items vs
  | _ => pure ()

def block : Block → Walk Unit
  | .mk ss none _ => statements ss
  | .mk ss (some l) _ => do statements ss; last l

end

end Steps

end Walk

end CommandScript
