import CommandScript.Shape.Match
import CommandScript.Value.Operator
import CommandScript.Token.Literal
import CommandScript.Vm
/-!
# CommandScript — values known before a script runs

What an expression will be worth, as far as that can be told from the text and
from what the host has set up. A value is known or not; nothing is guessed, and
what is known is computed with the operators that the run will use. Commands are
not called, lambdas not made, and powers not taken, which could be huge.

Vectors and tables are built in the heap, so a known value is a value like any
other.
-/

namespace CommandScript

/-- A value, where it is known. -/
abbrev Known := Option Value

/-- What is known around an expression. -/
structure Surround where
  globals : Names Value
  globalShapes : Names SharedShape
  varShapes : Names SharedShape
  /-- The variables in sight, innermost frame first; some have a value that is not
  known. -/
  frames : List (Names Known)

namespace Surround

/-- The value of a variable, where one of the name is in sight. -/
def find? (s : Surround) (name : String) : Option Known := s.frames.findSome? (·.get? name)

/-- The value of a variable as far as it is known. -/
def lookup (s : Surround) (name : String) : Known := (s.find? name).getD none

end Surround

/-- A computation with known values: it may build containers and it may crash. -/
abbrev Static := StateT Heap (Except Crash)

namespace Static

/-- A value under a key of a container, as far as it is known. -/
def index (h : Heap) (container key : Known) : Known :=
  match container, key with
  | some (.table a), some k => if k.isKey then (h.table a).get? k else none
  | some (.vector a), some (.number (.int i)) =>
    if 1 ≤ i then (h.vector a)[(i - 1).toNat]? else none
  | _, _ => none

/-- The shape of what stands under a key. -/
def fieldShape (shape : Option Shape) (key : Known) : Option Shape :=
  match shape with
  | some (.table fields _ _ value) =>
    match key with
    | some k => if k.isKey then (fields.bind (·.get? k)).or value else value
    | none => value
  | _ => none

/-- What an operator gives; a refusal leaves the value unknown. -/
def operated : Except OperatorFault Value → Static Known
  | .ok v => pure (some v)
  | .error (.refused _) => pure none
  | .error (.crashed c) => throw c

/-- The operators that are computed beforehand. -/
def folds (k : TokenKind) : Bool := k != .kwAnd && k != .kwOr && k != .caret

/-- Known items make a known vector. -/
def vectorOf (items : List Known) : Static Known :=
  match items.mapM id with
  | some vs => do modifyGet fun h => let (v, h) := h.newVector vs; (some v, h)
  | none => pure none

/-- The value and the shape that a variable chain begins with. -/
def root (s : Surround) : VarRoot → Known × Option Shape
  | .bare t =>
    let value := match s.globals.get? t.text with
      | some v => some v
      | none => s.lookup t.text
    (value, (s.globalShapes.get? t.text).map (·.shape))
  | .named _ (some t) _ => (s.lookup t.text, (s.varShapes.get? t.text).map (·.shape))
  | _ => (none, none)

mutual

/-- The value of an expression, as far as it is known. -/
def value (s : Surround) : Expression → Static Known
  | .nil _ => pure (some .nil)
  | .boolean t => pure (some (.bool (t.kind == .kwTrue)))
  | .number t => pure (t.numberValue?.map .number)
  | .string t => pure (some (.string t.stringValue))
  | .unary o v _ => do
    match ← valueOptional s v with
    | some v => operated (Operator.unary o.kind v)
    | none => pure none
  | .binary l o r _ =>
    if folds o.kind && r.isSome then do
      let left ← value s l
      let right ← valueOptional s r
      match left, right with
      | some a, some b => do operated (Operator.binary (← get) o.kind a b)
      | _, _ => pure none
    else pure none
  | .vector _ is _ => do vectorOf (← valueItems s is)
  | .table _ fs _ => valueFields s 1 {} fs
  | .group _ none _ => pure (some .nil)
  | .group _ (some e) _ => value s e
  | .var v => do return (← chain s v).1
  | .lambda _ | .call _ | .skipped _ => pure none

def valueOptional (s : Surround) : Option Expression → Static Known
  | none => pure none
  | some e => value s e

def valueItem (s : Surround) : SeparatedItem Expression → Static Known
  | ⟨v, _, _⟩ => valueOptional s v

def valueItems (s : Surround) : List (SeparatedItem Expression) → Static (List Known)
  | [] => pure []
  | i :: rest => do
    let v ← valueItem s i
    return v :: (← valueItems s rest)

/-- The key and the value of a table field; none where the field is incomplete. -/
def valueField (s : Surround) (position : Int) : TableField → Static (Option (Known × Known))
  | .named _ _ none _ | .keyed _ _ _ none _ => pure none
  | .named n _ (some e) _ => do return some (some (.string n.text), ← value s e)
  | .keyed _ k _ (some e) _ => do
    let key ← valueOptional s k
    return some (key, ← value s e)
  | .positional e _ => do return some (some (.int position), ← value s e)

def valueFieldItem (s : Surround) (position : Int) :
    SeparatedItem TableField → Static (Option (Known × Known))
  | ⟨none, _, _⟩ => pure none
  | ⟨some f, _, _⟩ => valueField s position f

/-- The table that fields make, where all of them are known. -/
def valueFields (s : Surround) (position : Int) (t : Table Value) :
    List (SeparatedItem TableField) → Static Known
  | [] => modifyGet fun h => let (v, h) := h.newTable t; (some v, h)
  | i :: rest => do
    let next := match i.value with
      | some (.positional ..) => position + 1
      | _ => position
    match ← valueFieldItem s position i with
    | some (some k, some v) =>
      if !k.isKey then pure none
      else match v with
        | .nil => valueFields s next t rest
        | v => valueFields s next (t.insert k v) rest
    | _ => pure none

/-- The value and the shape of a variable chain. -/
def chain (s : Surround) : Var → Static (Known × Option Shape)
  | .mk r ss _ => suffixes s ss ss.length (root s r)

/-- The key of a step of a variable chain. -/
def suffixKey (s : Surround) : VarSuffix → Static Known
  | .field _ name _ => pure (name.map fun t => .string t.text)
  | .index _ _ i _ => valueOptional s i

/-- Follow the first steps of a variable chain. -/
def suffixes (s : Surround) :
    List VarSuffix → Nat → Known × Option Shape → Static (Known × Option Shape)
  | [], _, r => pure r
  | _, 0, r => pure r
  | x :: rest, n + 1, r => do
    let key ← suffixKey s x
    suffixes s rest n (index (← get) r.1 key, fieldShape r.2 key)

end

/-- The value and the shape that a variable chain has before its step of a number. -/
def chainBefore (s : Surround) (v : Var) (step : Nat) : Static (Known × Option Shape) :=
  suffixes s v.suffixes step (root s v.root)

end Static

end CommandScript
