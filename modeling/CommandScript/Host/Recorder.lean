import CommandScript.Run.Basic
/-!
# CommandScript — a recording host

A host for trying scripts out. Its commands do simple things — print, add, hand
values through, call functions back, fail — and what matters about their calls is
noted in a log. It has one object, with fields that scripts may read and a vector
that they may change.
-/

namespace CommandScript

/-- A note about a call. Values are noted together with the heap they are read
in. -/
inductive LogEntry where
  | printed (text : String)
  | received (command : String) (values : List Value) (heap : Heap)
  | traced (calls : List TraceEntry)

/-- What the recording host keeps. -/
structure Recorder where
  /-- The notes, newest first. -/
  log : List LogEntry := []
  /-- Values kept under names. -/
  stored : Names Value := {}
  /-- The vector that the object shares. -/
  tags : Value := .nil

namespace Recorder

/-- The name of the host's object. -/
def player : String := "Player"

/-- A state with the host's object in it. -/
def start (maxDepth : Nat) : State Recorder :=
  let (tags, heap) := ({} : Heap).newVector [.string "a", .string "b"]
  { heap, maxDepth, host := { tags } }

/-- Add a note. -/
def note (entry : LogEntry) (s : State Recorder) : State Recorder :=
  { s with host := { s.host with log := entry :: s.host.log } }

/-- The sum of numbers, from the left; the first value that is no number ends it. -/
def sum (total : Number) : List Value → Except Crash Number
  | [] => .ok total
  | .number n :: rest =>
    match total.add n with
    | .ok t => sum t rest
    | .error _ => .error .beyondFloat
  | _ :: _ => .error (.host "add expects numbers")

/-- The results of calling a function with the items of a vector, one after the
other. Items that the calls add are called with too. -/
def mapFrom (vector : Address) (f : Value) : Nat → List Value → State Recorder → Reply Recorder
  | 0, _, s => .crash .endless s
  | rounds + 1, done, s =>
    match (s.heap.vector vector)[done.length]? with
    | some item => .call f [item] s fun r s' => mapFrom vector f rounds (done ++ [r]) s'
    | none =>
      let (v, heap) := s.heap.newVector done
      .value v { s with heap }

/-- How many characters, items or entries a value has. -/
def lengthOf (s : State Recorder) : Value → Option Nat
  | .string t => some t.length
  | .vector a => some (s.heap.vector a).length
  | .table a => some (s.heap.table a).size
  | _ => none

/-- Answer with a new shared value. -/
def make (new : Heap → Value × Heap) (s : State Recorder) : Reply Recorder :=
  let (v, heap) := new s.heap
  .value v { s with heap }

/-- The commands of the host; `rounds` bounds how many items `map` goes through. -/
def command (rounds : Nat) (name : String) (vs : List Value) (s : State Recorder) :
    Reply Recorder :=
  match name, vs with
  | "print", vs =>
    match s.heap.displayAll vs with
    | .ok text => .value .nil (note (.printed text) s)
    | .error c => .crash c s
  | "record", vs => .value .nil (note (.received "record" vs s.heap) s)
  | "greet", vs => .value (.string "hello") (note (.received "greet" vs s.heap) s)
  | "add", vs =>
    match sum (.int 0) vs with
    | .ok n => .value (.number n) s
    | .error c => .crash c s
  | "id", vs => .value (vs.headD .nil) s
  | "many", vs => make (·.newTuple vs) s
  | "vec", vs => make (·.newVector vs) s
  | "fail", vs =>
    match s.heap.displayAll vs with
    | .ok text => .raise text s
    | .error c => .crash c s
  | "call", f :: rest =>
    if f.isCallable then .call f rest s fun r s' => .value r s'
    else .raise "call expects a function" s
  | "call", [] => .raise "call expects a function" s
  | "map", .vector a :: f :: _ =>
    if f.isCallable then mapFrom a f rounds [] s
    else .raise "map expects a vector and a function" s
  | "map", _ => .raise "map expects a vector and a function" s
  | "trace", _ => .value .nil (note (.traced s.calls.reverse) s)
  | "store", [.string key, v] =>
    .value .nil { s with host := { s.host with stored := s.host.stored.insert key v } }
  | "store", _ => .raise "store expects a name and a value" s
  | "length", v :: _ =>
    match lengthOf s v with
    | some n => .value (.int n) s
    | none => .raise "length expects a string, vector or table" s
  | "length", [] => .raise "length expects a string, vector or table" s
  | "player", _ => .value (.object player) s
  | _, _ => .raise "unknown command" s

/-- The fields of the host's object. -/
def field (object name : String) (s : State Recorder) : Value :=
  if object != player then .nil
  else match name with
    | "name" => .string "alice"
    | "score" => .int 10
    | "tags" => s.host.tags
    | "greet" => .command "greet"
    | _ => .nil

/-- The recording host. -/
def host (rounds : Nat) : Host Recorder := ⟨command rounds, field⟩

/-- The commands registered where nothing else is said. -/
def defaults : List String :=
  ["print", "record", "add", "id", "many", "vec", "fail", "call", "map", "trace", "store", "length",
   "player"]

/-- A state with these commands under their names. -/
def ready : State Recorder :=
  { start Limit.calls with globals := ⟨defaults.map fun name => (name, .command name)⟩ }

end Recorder

end CommandScript
