import CommandScript.Shape.Basic
import CommandScript.Value.Format
/-!
# CommandScript — shapes as the host shows them

The text of a shape with all its parts, for messages about something that stands
where a shape belongs.
-/

namespace CommandScript.Shape

/-- Items between parentheses; one item keeps a comma. -/
def tupleText : List String → String
  | [item] => "(" ++ item ++ ",)"
  | items => "(" ++ ", ".intercalate items ++ ")"

/-- A text that may be missing. -/
def optionalText (s : Option String) : String := (s.map Text.quoted).getD "None"

/-- Entries between braces. -/
def entriesText (entries : List String) : String := "\x7b" ++ ", ".intercalate entries ++ "\x7d"

/-- Notes on fields. -/
def notesText (h : Heap) : Option (Table (Option String)) → Except Crash String
  | none => .ok "None"
  | some notes => do
    return entriesText (← notes.entries.mapM fun e => do
      return (← h.debug e.1) ++ ": FieldMetadata(description=" ++ optionalText e.2 ++ ")")

mutual

/-- The text of a shape. -/
def debug (h : Heap) : Shape → Except Crash String
  | .literal v => do return "LiteralType(value=" ++ (← h.debug v) ++ ", kind='literal')"
  | .table fields notes indexer value => do
    return "TableType(fields=" ++ (← debugDeclared h fields) ++ ", fields_metadata=" ++
      (← notesText h notes) ++ ", indexer=" ++ (← debugOptional h indexer) ++ ", value=" ++
      (← debugOptional h value) ++ ", kind='table')"
  | .function names =>
    .ok ("FunctionType(argument_names=" ++ tupleText (names.map Text.quoted) ++ ", kind='function')")
  | .command (.mk name description arguments) => do
    return "CommandType(name=" ++ Text.quoted name ++ ", description=" ++ optionalText description ++
      ", arguments=" ++ tupleText (← debugArguments h arguments) ++ ", kind='command')"
  | .union members => do
    return "UnionType(fields=" ++ tupleText (← debugAll h members) ++ ", kind='union')"
  | .intersection members => do
    return "IntersectionType(fields=" ++ tupleText (← debugAll h members) ++ ", kind='intersection')"
  | .strange name test exactTest offers => do
    return "StrangeType(type=" ++ Text.quoted name ++ ", id=" ++ Text.quoted name ++ ", match=" ++
      (← debugTest h test) ++ ", exact_match=" ++ (← debugTest h exactTest) ++ ", suggestions=" ++
      (← debugOffers h offers) ++ ", convert=None, kind='strange')"
  | .argument a => debugArgument h a
  | .foreign v => h.debug v

def debugOptional (h : Heap) : Option Shape → Except Crash String
  | none => .ok "None"
  | some s => debug h s

def debugAll (h : Heap) : List Shape → Except Crash (List String)
  | [] => .ok []
  | s :: rest => do return (← debug h s) :: (← debugAll h rest)

def debugDeclared (h : Heap) : Option (Table Shape) → Except Crash String
  | none => .ok "None"
  | some ⟨fields⟩ => do return entriesText (← debugFields h fields)

def debugFields (h : Heap) : List (Value × Shape) → Except Crash (List String)
  | [] => .ok []
  | (k, s) :: rest => do
    return ((← h.debug k) ++ ": " ++ (← debug h s)) :: (← debugFields h rest)

def debugArgument (h : Heap) : ArgumentShape → Except Crash String
  | .mk name description shape variadic => do
    return "CommandArgument(name=" ++ Text.quoted name ++ ", description=" ++ Text.quoted description ++
      ", type=" ++ (← debugOptional h shape) ++ ", varargs=" ++ (if variadic then "True" else "False") ++
      ", kind='argument')"

def debugArguments (h : Heap) : List ArgumentShape → Except Crash (List String)
  | [] => .ok []
  | a :: rest => do return (← debugArgument h a) :: (← debugArguments h rest)

def debugTest (h : Heap) : Option ShapeTest → Except Crash String
  | none => .ok "None"
  | some (.shape s) => debug h s
  | some (.predicate _) => .ok "<function>"

def debugOffers (h : Heap) : Option Offers → Except Crash String
  | none => .ok "None"
  | some (.shape s) => debug h s
  | some (.callback _) => .ok "<function>"

end

/-- The crash of calling something that stands where a test or a callback belongs. -/
def refuseCall : Shape → Crash
  | .foreign v => .notCallable (Heap.className v)
  | _ => .notCallable "CommandArgument"

/-- The crash of finding something else where a shape belongs. -/
def refuse (h : Heap) (s : Shape) : Crash :=
  match s.debug h with
  | .ok text => .noShape text
  | .error c => c

end CommandScript.Shape
