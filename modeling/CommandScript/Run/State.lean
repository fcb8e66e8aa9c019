import CommandScript.Run.Scope
import CommandScript.Run.Failure
import CommandScript.Value.Heap
import CommandScript.Limit
/-!
# CommandScript — the state of a running script

One record holds all that a run can change: shared values, frames, globals, open
calls, and the statement on its way out of a block. Steps of a run are functions
from a state to a state and an outcome, so what holds of all runs can be said of
one step.

Beside going well and failing, a step can crash, and it can come to the end of
the budget that makes the evaluator a total function.
-/

namespace CommandScript

/-- A `break`, `continue` or `return` on its way to what it leaves. -/
structure Pending where
  /-- The frame it was met in. -/
  frame : FrameId
  statement : LastStatement
  /-- The values behind `return`. -/
  values : List Value := []

/-- What a run can change. The host keeps what it wants of type `σ`. -/
structure State (σ : Type) where
  heap : Heap := {}
  frames : Frames := Frames.first
  /-- The frame that names are looked up from. -/
  scope : FrameId := 0
  globals : Names Value := {}
  /-- The open calls, innermost first. -/
  calls : List TraceEntry := []
  pending : Option Pending := none
  /-- How many lambdas are being called. -/
  depth : Nat := 0
  /-- How many lambdas may be called inside one another. -/
  maxDepth : Nat := Limit.calls
  host : σ

/-- Why a step did not go well. -/
inductive Stop where
  | failed (failure : Failure)
  | crashed (crash : Crash)
  /-- The budget is used up. -/
  | exhausted

/-- A step of a run. -/
abbrev Exec (σ : Type) := ExceptT Stop (StateM (State σ))

namespace Exec

variable {σ : Type} {α : Type}

/-- Fail at a place, with the calls that are open. -/
def fail (cause : Cause) (span : Span) : Exec σ α := do
  throw (.failed ⟨cause, some span, (← get).calls.reverse⟩)

def crash (c : Crash) : Exec σ α := throw (.crashed c)

/-- Go on with a result, or crash. -/
def orCrash : Except Crash α → Exec σ α
  | .ok a => pure a
  | .error c => crash c

/-- Run a step, and change the state behind it however it ends. -/
def finishing (step : Exec σ α) (cleanUp : State σ → State σ) : Exec σ α :=
  fun s => let (r, s') := step s; (r, cleanUp s')

/-- Run a step in another scope. -/
def within (scope : FrameId) (step : Exec σ α) : Exec σ α := do
  let outer := (← get).scope
  modify fun s => { s with scope }
  finishing step fun s => { s with scope := outer }

/-- Make a shared value. -/
def make (new : Heap → α × Heap) : Exec σ α := modifyGet fun s =>
  let (v, heap) := new s.heap
  (v, { s with heap })

/-- Repeat a step while it says so, in at most the given number of rounds. -/
def repeated (step : Exec σ Bool) : Nat → Exec σ Unit
  | 0 => throw .exhausted
  | n + 1 => fun s =>
    match step s with
    | (.ok true, s') => repeated step n s'
    | (.ok false, s') => (.ok (), s')
    | (.error e, s') => (.error e, s')

/-- Take a step for each item in turn while it says so. -/
def forEach (step : α → Exec σ Bool) : List α → Exec σ Unit
  | [] => pure ()
  | a :: rest => fun s =>
    match step a s with
    | (.ok true, s') => forEach step rest s'
    | (.ok false, s') => (.ok (), s')
    | (.error e, s') => (.error e, s')

/-- Take a step for each of so many whole numbers from one on while it says so. -/
def forCount (step : Int → Exec σ Bool) (next : Int) : Nat → Exec σ Unit
  | 0 => pure ()
  | n + 1 => fun s =>
    match step next s with
    | (.ok true, s') => forCount step (next + 1) n s'
    | (.ok false, s') => (.ok (), s')
    | (.error e, s') => (.error e, s')

end Exec

end CommandScript
