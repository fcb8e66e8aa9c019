import CommandScript.Assist.Assistance
/-!
# CommandScript — the console

A small host to try scripts in, line by line. A line is run against what earlier
lines left behind, and its values are shown; a line that begins with `?` is not
run, but looked at with the caret at its end. There are three commands and one
variable, and two of the commands say what arguments they take.

Nothing is printed here. What the console writes is collected in a transcript,
which only ever grows, and printed by whoever runs it.
-/

namespace CommandScript

/-- A piece of what the console writes. -/
inductive Chunk where
  | output (text : String)
  | complaint (text : String)
  deriving DecidableEq, Repr

/-- What the console wrote, newest first. -/
structure Transcript where
  chunks : List Chunk := []
  deriving DecidableEq, Repr

namespace Transcript

/-- What was written as output. -/
def output (t : Transcript) : String :=
  String.join (t.chunks.reverse.filterMap fun
    | .output text => some text
    | .complaint _ => none)

/-- What was written as complaints. -/
def complaints (t : Transcript) : String :=
  String.join (t.chunks.reverse.filterMap fun
    | .complaint text => some text
    | .output _ => none)

end Transcript

/-- A machine with a transcript. -/
abbrev Console := Vm Transcript

namespace Console

/-! ## Commands -/

/-- Write something. -/
def writeTo (c : Chunk) (s : State Transcript) : State Transcript :=
  { s with host := ⟨c :: s.host.chunks⟩ }

/-- A line of output. -/
def line (text : String) : Chunk := .output (text ++ "\n")

/-- The sum of numbers from the left, where `true` counts as one and `false` as
nothing. -/
def sum (total : Number) : List Value → Except Crash Number
  | [] => .ok total
  | v :: rest =>
    let next := match v with
      | .number n => some n
      | .bool b => some (.int (if b then 1 else 0))
      | _ => none
    match next.map total.add with
    | some (.ok t) => sum t rest
    | some (.error _) => .error .beyondFloat
    | none => .error (.host ("unsupported operand type(s) for +: '" ++
        Heap.className (.number total) ++ "' and '" ++ Heap.className v ++ "'"))

/-- The names of levels that can be set, in capitals. -/
def levels : List String :=
  ["CRITICAL", "FATAL", "ERROR", "WARN", "WARNING", "INFO", "DEBUG", "NOTSET"]

/-- Check a level; case does not matter. -/
def checkLevel : List Value → Except Crash Value
  | [.string level] =>
    let capitals := Text.upper level
    if levels.contains capitals then .ok (.string level)
    else .error (.host ("Unknown level: " ++ Text.quoted capitals))
  | [v] => .error (.host ("'" ++ Heap.className v ++ "' object has no attribute 'upper'"))
  | [] => .error (.host ("build_vm.<locals>.log_level() missing 1 required positional argument: " ++
      "'level'"))
  | vs => .error (.host ("build_vm.<locals>.log_level() takes 1 positional argument but " ++
      toString vs.length ++ " were given"))

/-- The commands, by the names of the functions behind them. -/
def command (name : String) (vs : List Value) (s : State Transcript) : Reply Transcript :=
  let result : Except Crash (Value × State Transcript) := match name with
    | "print_command" => do return (.nil, writeTo (line (← s.heap.displayAll vs)) s)
    | "add" => do return (.number (← sum (.int 0) vs), s)
    | _ => do return (← checkLevel vs, s)
  match result with
  | .ok (v, s') => .value v s'
  | .error c => .crash c s

/-- The host; there are no objects. -/
def host : Host Transcript := ⟨command, fun _ _ _ => .nil⟩

/-- The shapes of commands. -/
def shapes : Names SharedShape :=
  let level := Shape.union (["debug", "info", "warning", "error"].map fun l => .literal (.string l))
  ⟨[("print", ⟨.command (.mk "print" (some "Print values to the console")
      [.mk "values" "" none true]), 0⟩),
    ("loglevel", ⟨.command (.mk "loglevel" (some "Change the root log level")
      [.mk "level" "" (some level) false]), 1⟩)]⟩

/-- The console before its first line. -/
def start : Console where
  state := {
    globals := ⟨[("print", .command "print_command"), ("add", .command "add"),
      ("loglevel", .command "log_level"), ("version", .string "0.1.0")]⟩
    host := {} }
  globalShapes := shapes

/-! ## Lines -/

/-- How a line went. -/
inductive LineResult where
  | fine
  | failed
  | crashed (crash : Crash)
  | exhausted
  deriving DecidableEq, Repr

namespace LineResult

/-- Another line can follow. -/
def goesOn : LineResult → Bool
  | fine | failed => true
  | crashed _ | exhausted => false

/-- The exit code of a console that was given one line. -/
def exitCode : LineResult → Nat
  | fine => 0
  | _ => 1

end LineResult

/-- Write pieces, one after the other. -/
def write (chunks : List Chunk) (c : Console) : Console :=
  { c with state := chunks.foldl (fun s chunk => writeTo chunk s) c.state }

/-- The bound on what a single line may do. -/
def budget : Nat := 1000000000

/-- Run a line and show its values, or say why it failed. -/
def evaluate (text : String) (c : Console) : LineResult × Console :=
  let (result, c) := c.run host budget text
  match result with
  | .ok values =>
    match (values.getD []).mapM c.state.heap.format with
    | .ok [] => (.fine, c)
    | .ok texts => (.fine, write [line (", ".intercalate texts)] c)
    | .error crash => (.crashed crash, c)
  | .failed why => (.failed, write (why.map fun m => .complaint ("error: " ++ m ++ "\n")) c)
  | .crashed crash => (.crashed crash, c)
  | .exhausted => (.exhausted, c)

/-- What is shown about the place of the caret. -/
def infoText (i : PlaceInfo) : String :=
  let note := match i.description with
    | some d => if d.isEmpty then "" else "  (" ++ d ++ ")"
    | none => ""
  "  " ++ i.name ++ ": " ++ i.type ++ note

/-- Show what could follow a line, and what is wrong with it. -/
def help (text : String) (c : Console) : LineResult × Console :=
  match c.assist text text.length with
  | .ok a =>
    let shown := a.info.toList.map infoText ++ a.suggestions.map (fun s => "  " ++ s.display) ++
      a.issues.map (fun i => "  ! " ++ i.format)
    (.fine, write (shown.map line) c)
  | .error crash => (.crashed crash, c)

/-- Take a line. -/
def respond (text : String) (c : Console) : LineResult × Console :=
  match text.toList with
  | '?' :: rest => help (String.ofList rest) c
  | _ => evaluate text c

/-- What is written before a line is read. -/
def prompt : Chunk := .output "> "

/-- Take lines until there are no more, with a prompt before each of them and a
last one where they end. -/
def respondAll : List String → Console → LineResult × Console
  | [], c => (.fine, write [prompt, line ""] c)
  | text :: rest, c =>
    let (result, c) := respond text (write [prompt] c)
    if result.goesOn then respondAll rest c else (result, c)

end Console

end CommandScript
