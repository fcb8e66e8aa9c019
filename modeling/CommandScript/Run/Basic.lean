import CommandScript.Run.Eval
/-!
# CommandScript — running a script

A script runs in a new frame below the current one, which is left again however
the run ends. A run ends in one of four ways: with values or none, with a
failure, with a crash, or at the end of its budget, which stands for a script that
never ends.

A failure takes everything back that was on its way: no call is open behind it,
and nothing is left pending.
-/

namespace CommandScript

variable {σ : Type}

namespace Eval

/-- Evaluation, closed: what a task asks for is done by the rule of that task. The
budget bounds how deep tasks nest and how often a loop goes round. -/
def run (host : Host σ) : Nat → String → (t : Task σ) → Exec σ t.Result
  | 0, _, _ => throw .exhausted
  | budget + 1, source, t => rule host budget (run host budget) source t

end Eval

/-- How a run ended. -/
inductive Outcome where
  /-- The values behind `return`, or else those of the last statement; none if it
  has none. -/
  | done (values : Option (List Value))
  | failed (failure : Failure)
  | crashed (crash : Crash)
  | exhausted

/-- Run the statements of a whole text. -/
def runBlock (host : Host σ) (budget : Nat) (source : String) (b : Block) :
    Exec σ (Option (List Value)) := do
  let values ← Eval.statements host budget (Eval.run host budget) source b.last none b.body
  match (← get).pending with
  | none => pure values
  | some p =>
    modify fun s => { s with pending := none }
    match p.statement with
    | .return .. => return some p.values
    | other => Exec.fail (.outsideLoop other.token.text) other.span

/-- Forget what was on its way. -/
def State.settled (s : State σ) : State σ := { s with calls := [], pending := none }

/-- Run a tree against a state. -/
def execute (host : Host σ) (budget : Nat) (source : String) (b : Block) (s : State σ) :
    Outcome × State σ :=
  let (frame, frames) := s.frames.child s.scope true
  match Exec.within frame (runBlock host budget source b) { s with frames } with
  | (.ok values, s') => (.done values, s')
  | (.error (.failed f), s') => (.failed f, s'.settled)
  | (.error (.crashed .endless), s') => (.failed { cause := .endless }, s'.settled)
  | (.error (.crashed c), s') => (.crashed c, s')
  | (.error .exhausted, s') => (.exhausted, s')

end CommandScript
