import CommandScript.Assist.Walk
import CommandScript.Parser.Basic
/-!
# CommandScript — help for a text that is being typed

From a machine, a text and a caret: what could stand at the caret, and what is
wrong with the text as a whole. The machine is only looked at. What the walk
builds in the heap stays in a heap of its own, so nothing a script can see
changes.

Where the walk finds nothing to offer, there is one more place to know about: the
start of a statement, where any global could be called.
-/

namespace CommandScript

/-- What the host may choose. -/
structure AssistOptions where
  /-- How many candidates are offered at most; a negative limit leaves out so many
  from the end. -/
  limit : Int := 50
  /-- Unknown variables are reported. -/
  reportVariables : Bool := true

/-- What there is to say about a text and a caret. -/
structure Assistance where
  /-- What the suggestions replace. -/
  replace : Span
  suggestions : List Suggestion
  issues : List Issue
  info : Option PlaceInfo := none

namespace Assist

/-- The offset behind the last line break, `;` or opening brace of a text. -/
def statementStart (before : List Char) : Nat :=
  before.length - (before.reverse.takeWhile fun c => c != '\n' && c != ';' && c != '\x7b').length

/-- What could stand where a statement would begin. -/
def atStatementStart (ctx : AssistContext) : Walk (Option Completion) := do
  let before := ctx.text.take ctx.caret.toNat
  if (before.drop (statementStart before)).all isBlank then
    return some {
      replace := Walk.atCaret ctx
      candidates := ← Walk.globalCandidates ctx none
      typed := "" }
  else return none

/-- Walk over a tree; a walk that does not end is given up, and said to be too
deep. -/
def walked (ctx : AssistContext) (b : Block) : Walk Unit := fun f =>
  match Walk.framed {} (Walk.block ctx b) f with
  | (.error .endless, f') =>
    (.ok (), { f' with
      issues := .of .analysisTooDeep b.span :: f'.issues
      completion := none })
  | r => r

/-- What the walk knows about a machine. -/
def context (vm : Vm σ) (text : List Char) (caret : Int) (options : AssistOptions) : AssistContext where
  globals := vm.state.globals
  globalShapes := vm.globalShapes
  varShapes := vm.varShapes
  text
  caret
  reportVariables := options.reportVariables

/-- The variables in sight from where a machine stands, all of them known. -/
def varsInSight (vm : Vm σ) : Names Known :=
  (vm.state.frames.visible vm.state.scope).mapValues some

/-- The walk and what it finds. -/
def findings (vm : Vm σ) (ctx : AssistContext) (parsed : Parsed) :
    Except Crash (Option Completion × List Issue) :=
  let walk : Walk (Option Completion) := do
    match parsed.block with
    | some b => walked ctx b
    | none => pure ()
    match (← get).completion with
    | some c => pure (some c)
    | none => atStatementStart ctx
  match walk { heap := vm.state.heap, frames := [varsInSight vm] } with
  | (.ok completion, f) => .ok (completion, f.issues.reverse)
  | (.error c, _) => .error c

end Assist

/-- What there is to say about a text with the caret at a place in it. A caret
outside the text is taken to its nearer end. -/
def Vm.assist (vm : Vm σ) (text : String) (caret : Int) (options : AssistOptions := {}) :
    Except Crash Assistance := do
  let cs := text.toList
  let caret := max 0 (min caret cs.length)
  let parsed := parse text Limit.nesting
  let (completion, found) ← Assist.findings vm (Assist.context vm cs caret options) parsed
  let issues := Issue.sort (parsed.issues ++ found)
  match completion with
  | none => return { replace := .point caret.toNat, suggestions := [], issues }
  | some c => return { replace := c.replace, suggestions := c.rank options.limit, issues, info := c.info }

end CommandScript
