import CommandScript.Value.Heap
import CommandScript.Value.Crash
import CommandScript.Text.Quoted
/-!
# CommandScript — values as text

Two ways to show a value. `Heap.format` is how scripts write values, so that what
it prints can be typed in again. `Heap.debug` is how the host shows what it was
given, with its own names for nil and booleans.

A container that contains itself has no text of the first sort; the second marks
the place where it comes back to itself.
-/

namespace CommandScript

/-- A double-quoted string literal for a text. -/
def stringLiteral (s : String) : String :=
  let escape := fun c : Char => if c = '\\' || c = '"' then ['\\', c] else [c]
  "\"" ++ String.ofList (s.toList.flatMap escape) ++ "\""

/-- How a lambda is shown. -/
def lambdaText (names : List String) : String :=
  "<lambda |" ++ ", ".intercalate names ++ "|>"

/-- How a function of the host is shown. -/
def functionText (name : String) : String := "<function " ++ name ++ ">"

namespace Heap

/-- A container between its signs. -/
def enclosed (left right : String) (items : List String) : String :=
  left ++ ", ".intercalate items ++ right

/-- The host's text of a value inside the given containers. -/
def debugWithin (h : Heap) : Nat → List Value → Value → Except Crash String
  | _, _, .nil => .ok "None"
  | _, _, .bool b => .ok (if b then "True" else "False")
  | _, _, .number n => n.exactText?.elim (.error .tooManyDigits) .ok
  | _, _, .string s => .ok (Text.quoted s)
  | _, _, .lambda a => .ok (lambdaText (h.parameterNames a))
  | _, _, .command name => .ok (functionText name)
  | _, _, .method _ m => .ok (functionText m.name)
  | _, _, .object name => .ok name
  | 0, _, .vector _ => .ok "[...]"
  | 0, _, .table _ => .ok "\x7b...\x7d"
  | 0, _, .tuple _ => .ok "(...)"
  | budget + 1, inside, .vector a => do
    if inside.any (·.same (.vector a)) then return "[...]"
    return enclosed "[" "]"
      (← (h.vector a).mapM (debugWithin h budget (.vector a :: inside)))
  | budget + 1, inside, .table a => do
    if inside.any (·.same (.table a)) then return "\x7b...\x7d"
    return enclosed "\x7b" "\x7d" (← (h.table a).entries.mapM fun e => do
      return (← debugWithin h budget (.table a :: inside) e.1) ++ ": " ++
        (← debugWithin h budget (.table a :: inside) e.2))
  | budget + 1, inside, .tuple a => do
    if inside.any (·.same (.tuple a)) then return "(...)"
    match ← (h.tuple a).mapM (debugWithin h budget (.tuple a :: inside)) with
    | [item] => return "(" ++ item ++ ",)"
    | items => return enclosed "(" ")" items

/-- The text of a value whose containers nest less deep than the budget. -/
def formatWithin (h : Heap) : Nat → Value → Except Crash String
  | _, .nil => .ok "nil"
  | _, .bool b => .ok (if b then "true" else "false")
  | _, .number n => .ok (n.text?.getD (match n.toInt? with
      | some i => "<" ++ toString (Decimal.bitLength i.natAbs) ++ "-bit integer>"
      | none => ""))
  | _, .string s => .ok (stringLiteral s)
  | _, .lambda a => .ok (lambdaText (h.parameterNames a))
  | _, .command name => .ok (functionText name)
  | _, .method _ m => .ok (functionText m.name)
  | _, .object name => .ok name
  | _, .tuple a => h.debugWithin (h.containers + 1) [] (.tuple a)
  | 0, .vector _ | 0, .table _ => .error .endless
  | budget + 1, .vector a => do
    return enclosed "[" "]" (← (h.vector a).mapM (formatWithin h budget))
  | budget + 1, .table a => do
    return enclosed "\x7b" "\x7d" (← (h.table a).entries.mapM fun e => do
      let key ← match e.1 with
        | .string s => pure (if Text.isWord s.toList then s else "[" ++ stringLiteral s ++ "]")
        | k => do pure ("[" ++ (← formatWithin h budget k) ++ "]")
      return key ++ " = " ++ (← formatWithin h budget e.2))

/-- How scripts write a value. -/
def format (h : Heap) (v : Value) : Except Crash String := formatWithin h (h.containers + 1) v

/-- How the host shows a value. -/
def debug (h : Heap) (v : Value) : Except Crash String :=
  h.debugWithin (h.containers + 1) [] v

/-- A value as a piece of output: a string is itself, and a number needs its
digits. -/
def display (h : Heap) : Value → Except Crash String
  | .string s => .ok s
  | .number n => n.text?.elim (.error .tooManyDigits) .ok
  | v => h.format v

/-- Values as one piece of output, with blanks between them. -/
def displayAll (h : Heap) (vs : List Value) : Except Crash String := do
  return " ".intercalate (← vs.mapM h.display)

/-- The host's name for the class of a value. -/
def className : Value → String
  | .nil => "NoneType"
  | .bool _ => "bool"
  | .number (.int _) => "int"
  | .number (.float _) => "float"
  | .string _ => "str"
  | .vector _ => "list"
  | .table _ => "dict"
  | .tuple _ => "tuple"
  | .lambda _ => "Lambda"
  | .command _ => "function"
  | .method .. => "builtin_function_or_method"
  | .object name => name

end Heap

end CommandScript
