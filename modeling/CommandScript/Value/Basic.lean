import CommandScript.Number.Basic
/-!
# CommandScript — values

What scripts compute with. Vectors, tables, tuples and lambdas are shared: such a
value is an address, and what stands there is in the heap. All other values are
themselves.

Tuples come from the host alone, where a command hands over several values as
one. A script cannot take a tuple apart, but it can ask two things of it: how often
a value is in it, and where a value comes first.
-/

namespace CommandScript

/-- A place in one of the stores of a heap. -/
abbrev Address := Nat

/-- What can be asked of a tuple. -/
inductive TupleMethod where
  /-- How often a value is in it. -/
  | count
  /-- Where a value comes first. -/
  | index
  deriving DecidableEq, Repr

namespace TupleMethod

def name : TupleMethod → String
  | .count => "count"
  | .index => "index"

/-- The question of a name. -/
def ofName? (name : String) : Option TupleMethod :=
  [count, index].find? (·.name == name)

end TupleMethod

/-- A value of a script. -/
inductive Value where
  | nil
  | bool (b : Bool)
  | number (n : Number)
  | string (s : String)
  | vector (address : Address)
  | table (address : Address)
  | tuple (address : Address)
  | lambda (address : Address)
  /-- A command of the host. -/
  | command (name : String)
  /-- An object of the host. -/
  | object (name : String)
  /-- What can be asked of a tuple, as a function. -/
  | method (tuple : Address) (method : TupleMethod)
  deriving Repr, Inhabited

/-- The kinds of value that scripts tell apart. -/
inductive ValueKind where
  | nil
  | boolean
  | number
  | string
  | table
  | vector
  | function
  | object
  deriving DecidableEq, Repr

namespace ValueKind

def name : ValueKind → String
  | .nil => "nil"
  | .boolean => "boolean"
  | .number => "number"
  | .string => "string"
  | .table => "table"
  | .vector => "vector"
  | .function => "function"
  | .object => "object"

end ValueKind

namespace Value

/-- A whole number. -/
def int (n : Int) : Value := .number (.int n)

/-- A floating-point number. -/
def float (x : Float) : Value := .number (.float x)

/-- The kind of a value; to a script a tuple is an object of the host. -/
def kind : Value → ValueKind
  | nil => .nil
  | bool _ => .boolean
  | number _ => .number
  | string _ => .string
  | vector _ => .vector
  | table _ => .table
  | lambda _ | command _ | method .. => .function
  | tuple _ | object _ => .object

/-- Everything but nil and `false` counts as true. -/
def isTruthy : Value → Bool
  | nil | bool false => false
  | _ => true

def isNumber : Value → Bool
  | number _ => true
  | _ => false

/-- Strings, numbers and booleans are keys of tables; nil and what is shared are
not. -/
def isKey : Value → Bool
  | string _ | number _ | bool _ => true
  | _ => false

def isCallable : Value → Bool
  | lambda _ | command _ | method .. => true
  | _ => false

/-- The number that a number or a boolean stands for as a key. -/
def asNumber? : Value → Option Number
  | number n => some n
  | bool b => some (.int (if b then 1 else 0))
  | _ => none

/-- Both are the same thing: equal where values are themselves, with numbers and
booleans told apart by the number they stand for alone, and at one address where
they are shared. It is what makes two keys one key. -/
def same (a b : Value) : Bool :=
  match a.asNumber?, b.asNumber? with
  | some m, some n => m.equal n
  | _, _ =>
    match a, b with
    | nil, nil => true
    | string s, string t => s == t
    | vector i, vector j | table i, table j | tuple i, tuple j | lambda i, lambda j => i == j
    | command m, command n | object m, object n => m == n
    | method i m, method j n => i == j && m == n
    | _, _ => false

end Value

end CommandScript
