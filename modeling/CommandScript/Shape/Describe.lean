import CommandScript.Shape.Match
/-!
# CommandScript — shapes as writers of scripts see them

The short text of a shape, for the details of what is offered: alternatives with
bars between them, fields in braces, and commands with their arguments, those in
brackets that may be left out.
-/

namespace CommandScript.Shape

/-- A key in front of the shape of its field. -/
def keyText (h : Heap) : Value → Except Crash String
  | .string s => .ok s
  | k => h.format k

/-- An argument in the text of its command. -/
def signature (h : Heap) : ArgumentShape → Except Crash String
  | .mk name _ shape variadic => do
    let name := if variadic then name ++ "..." else name
    return if ← acceptsNil h shape then "[" ++ name ++ "]" else "<" ++ name ++ ">"

/-- The text of a command with its arguments. -/
def describeCommand (h : Heap) (c : CommandShape) : Except Crash String := do
  return " ".intercalate (c.name :: (← c.arguments.mapM (signature h)))

mutual

/-- The text of a shape. -/
def describe (h : Heap) : Shape → Except Crash String
  | .literal v => h.format v
  | .table (some ⟨e :: rest⟩) _ _ _ => do
    return "\x7b" ++ ", ".intercalate (← describeFields h (e :: rest)) ++ "\x7d"
  | .table _ _ _ none => .ok "table"
  | .table _ _ _ (some s) => do return "\x7b" ++ (← describe h s) ++ "\x7d"
  | .function names => .ok ("function(" ++ ", ".intercalate names ++ ")")
  | .command c => describeCommand h c
  | .union members => do
    let text := " | ".intercalate (← describeAll h members)
    return if text.isEmpty then "never" else text
  | .intersection members => do
    let text := " & ".intercalate (← describeAll h members)
    return if text.isEmpty then "any" else text
  | .strange name _ _ _ => .ok name
  | .argument a => describeArgument h a
  | .foreign .nil => .ok "any"
  | .foreign v => .error (refuse h (.foreign v))

def describeFields (h : Heap) : List (Value × Shape) → Except Crash (List String)
  | [] => .ok []
  | (k, s) :: rest => do
    return ((← keyText h k) ++ ": " ++ (← describe h s)) :: (← describeFields h rest)

def describeAll (h : Heap) : List Shape → Except Crash (List String)
  | [] => .ok []
  | s :: rest => do return (← describe h s) :: (← describeAll h rest)

def describeArgument (h : Heap) : ArgumentShape → Except Crash String
  | .mk _ _ none _ => .ok "any"
  | .mk _ _ (some s) _ => describe h s

end

/-- The text of a shape that may be missing: anything goes then. -/
def describeOptional (h : Heap) : Option Shape → Except Crash String
  | none => .ok "any"
  | some s => s.describe h

end CommandScript.Shape
