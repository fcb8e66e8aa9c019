import CommandScript.Run.Basic
import CommandScript.Parser.Basic
import CommandScript.Shape.Describe
/-!
# CommandScript — the machine a host talks to

A machine is a state with the shapes that the host attached to its names. The
host registers commands and variables, attaches shapes and takes them off again,
and runs texts.

An attachment remembers which shape it attached. It can be taken off only while
that very shape stands under the name, so an old handle does no harm to what was
attached later.
-/

namespace CommandScript

/-- A shape with the identity of the thing that carries it: two shapes may look
alike and be two. -/
structure SharedShape where
  shape : Shape
  identity : Nat

/-- A state and what is known about its names. -/
structure Vm (σ : Type) where
  state : State σ
  /-- Shapes of globals. -/
  globalShapes : Names SharedShape := {}
  /-- Shapes of variables. -/
  varShapes : Names SharedShape := {}

/-- Why something cannot be registered. -/
inductive RegistrationFault where
  | invalidName (name : String)
  | notCallable (name className : String)
  | noShape (name text : String)
  deriving DecidableEq, Repr

namespace RegistrationFault

def message : RegistrationFault → String
  | invalidName name => "Invalid name " ++ Text.quoted name ++ ": expected an identifier"
  | notCallable name className => "Command `" ++ name ++ "` must be callable, got " ++ className
  | noShape name text => "Expected an analysis type for `" ++ name ++ "`, got " ++ text

end RegistrationFault

/-- What takes an attached shape off again. -/
structure Handle where
  name : String
  isVar : Bool
  identity : Nat
  deriving DecidableEq, Repr

/-- How a run of a text ended, as far as a host has to know. -/
inductive RunResult where
  /-- With values, or without any if the text has none. -/
  | ok (values : Option (List Value))
  | failed (why : List String)
  | crashed (crash : Crash)
  | exhausted

namespace Vm

variable {σ : Type}

/-- Names that are registered are identifiers. -/
def checkName (name : String) : Except RegistrationFault Unit :=
  if isIdentifier name.toList then .ok () else .error (.invalidName name)

/-- Put a value under a global name. -/
def setVariable (vm : Vm σ) (name : String) (v : Value) : Except RegistrationFault (Vm σ) := do
  checkName name
  return { vm with state := { vm.state with globals := vm.state.globals.insert name v } }

/-- Put something that can be called under a global name. -/
def setCommand (vm : Vm σ) (name : String) (v : Value) : Except RegistrationFault (Vm σ) := do
  checkName name
  if v.isCallable then vm.setVariable name v
  else .error (.notCallable name (Heap.className v))

/-- The shapes of globals or of variables. -/
def shapes (vm : Vm σ) (isVar : Bool) : Names SharedShape :=
  if isVar then vm.varShapes else vm.globalShapes

/-- Write the shapes of globals or of variables. -/
def withShapes (vm : Vm σ) (isVar : Bool) (shapes : Names SharedShape) : Vm σ :=
  if isVar then { vm with varShapes := shapes } else { vm with globalShapes := shapes }

/-- Attach a shape to a name. -/
def attach (vm : Vm σ) (name : String) (s : SharedShape) (isVar : Bool) :
    Except RegistrationFault (Handle × Vm σ) := do
  checkName name
  if s.shape.isShape then
    return (⟨name, isVar, s.identity⟩, vm.withShapes isVar ((vm.shapes isVar).insert name s))
  else match s.shape.debug vm.state.heap with
    | .ok text => .error (.noShape name text)
    | .error c => .error (.noShape name c.message)

/-- Take an attached shape off, unless something else stands in its place. -/
def detach (vm : Vm σ) (handle : Handle) : Vm σ :=
  match (vm.shapes handle.isVar).get? handle.name with
  | some s =>
    if s.identity = handle.identity then
      vm.withShapes handle.isVar ((vm.shapes handle.isVar).erase handle.name)
    else vm
  | none => vm

/-- Read a text and run it. Issues alone do not keep a text from running: where
its tree has nothing to run, the run fails when it gets there. -/
def run (vm : Vm σ) (host : Host σ) (budget : Nat) (text : String)
    (limit : Nat := Limit.nesting) : RunResult × Vm σ :=
  let parsed := parse text limit
  match parsed.block with
  | none =>
    if parsed.issues.isEmpty then (.ok none, vm)
    else (.failed (parsed.issues.map (·.message)), vm)
  | some block =>
    let (outcome, state) := execute host budget text block vm.state
    let vm := { vm with state }
    match outcome with
    | .done values => (.ok values, vm)
    | .failed f => (.failed [f.describe], vm)
    | .crashed c => (.crashed c, vm)
    | .exhausted => (.exhausted, vm)

/-- Call a value that the host has kept. -/
def call (vm : Vm σ) (host : Host σ) (budget : Nat) (f : Value) (arguments : List Value) :
    Except Stop Value × Vm σ :=
  let (result, state) := Eval.callForHost host (Eval.run host budget) "" f arguments vm.state
  (result, { vm with state })

end Vm

end CommandScript
