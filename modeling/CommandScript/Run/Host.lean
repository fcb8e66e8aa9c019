import CommandScript.Run.State
/-!
# CommandScript — the host

Scripts run inside a host, which gives them commands and objects. A command is
called with values and a state and answers with a reply: a value, an error, or a
wish to have a function called, together with what it does with the result. A
host can thus call lambdas, and can do nothing with a failure of one but let it
pass.
-/

namespace CommandScript

/-- What a command of the host answers. -/
inductive Reply (σ : Type) where
  /-- It is done. Nil stands for no value and a tuple for several. -/
  | value (v : Value) (s : State σ)
  /-- It gives up. -/
  | crash (c : Crash) (s : State σ)
  /-- It wants a function called, and goes on with the result. -/
  | call (function : Value) (arguments : List Value) (s : State σ)
    (resume : Value → State σ → Reply σ)

/-- What a host provides. -/
structure Host (σ : Type) where
  /-- The commands by name. -/
  command : String → List Value → State σ → Reply σ
  /-- The fields of its objects, by the name of the object; nil for one that is not
  there. -/
  field : String → String → State σ → Value

namespace Reply

variable {σ : Type}

/-- It gives up, with a text of its own. -/
def raise (text : String) (s : State σ) : Reply σ := .crash (.host text) s

/-- Follow a reply to its end, where functions are called by `call`. -/
def follow (call : Value → List Value → Exec σ Value) : Reply σ → Exec σ Value
  | .value v s => do set s; pure v
  | .crash c s => do set s; Exec.crash c
  | .call f args s resume => fun _ =>
    match call f args s with
    | (.ok v, s') => follow call (resume v s') s'
    | (.error e, s') => (.error e, s')

end Reply

end CommandScript
