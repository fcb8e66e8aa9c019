import CommandScript.Value.Heap
import CommandScript.Text.Span
/-!
# CommandScript — shapes

A shape says what a value should look like. The host attaches shapes to its
commands and to variables, and they guide what is offered while a script is typed
and what is said about its arguments.

A strange shape is one of the host's own: it brings its own test and its own
offers, or passes either on to another shape.
-/

namespace CommandScript

/-- What an offer would be used as. -/
inductive SuggestionKind where
  | expression
  | assign
  deriving DecidableEq, Repr

namespace SuggestionKind

def name : SuggestionKind → String
  | .expression => "expression"
  | .assign => "assign"

end SuggestionKind

/-- What is known about the thing offered. -/
structure Metadata where
  name : String
  description : String
  type : String
  deriving DecidableEq, Repr

/-- One thing to offer: the text to insert, how it is shown, and the span it
replaces. -/
structure Suggestion where
  text : String
  display : String
  replace : Option Span := none
  kind : Option SuggestionKind := none
  metadata : Option Metadata := none
  deriving DecidableEq, Repr

namespace Suggestion

/-- A text offered as it is. -/
def plain (text : String) : Suggestion := { text, display := text }

end Suggestion

mutual

/-- What a value should look like. -/
inductive Shape where
  /-- One value. -/
  | literal (value : Value)
  /-- A table or vector: shapes of known keys, with notes on them, and shapes for
  all other keys and what stands under them. That nothing is said about known keys
  is shown differently from there being none, and means the same. -/
  | table (fields : Option (Table Shape)) (notes : Option (Table (Option String)))
    (indexer value : Option Shape)
  | function (names : List String)
  | command (command : CommandShape)
  | union (members : List Shape)
  | intersection (members : List Shape)
  /-- A shape of the host's own. The exact test, where there is one, takes the
  place of the test when a value has to match exactly. -/
  | strange (name : String) (test exactTest : Option ShapeTest) (offers : Option Offers)
  /-- An argument where a shape belongs; it can be described and nothing else. -/
  | argument (argument : ArgumentShape)
  /-- A value where a shape belongs. -/
  | foreign (value : Value)

/-- A command of the host, as it is announced. -/
inductive CommandShape where
  | mk (name : String) (description : Option String) (arguments : List ArgumentShape)

/-- An argument of a command. -/
inductive ArgumentShape where
  | mk (name description : String) (shape : Option Shape) (variadic : Bool)

/-- How a strange shape tests a value. -/
inductive ShapeTest where
  | shape (shape : Shape)
  | predicate (holds : Heap → Value → Bool)

/-- What a strange shape offers. -/
inductive Offers where
  | shape (shape : Shape)
  | callback (offer : String → List Suggestion)

end

namespace ArgumentShape

def name : ArgumentShape → String | mk n _ _ _ => n
def description : ArgumentShape → String | mk _ d _ _ => d
def shape : ArgumentShape → Option Shape | mk _ _ s _ => s

/-- The argument stands for any number of them. -/
def variadic : ArgumentShape → Bool | mk _ _ _ v => v

end ArgumentShape

namespace CommandShape

def name : CommandShape → String | mk n _ _ => n
def description : CommandShape → Option String | mk _ d _ => d
def arguments : CommandShape → List ArgumentShape | mk _ _ as => as

/-- The last argument stands for any number of them. -/
def isVariadic (c : CommandShape) : Bool := c.arguments.getLast?.any (·.variadic)

/-- The argument at a position. -/
def argument? (c : CommandShape) (index : Nat) : Option ArgumentShape :=
  match c.arguments[index]? with
  | some a => some a
  | none => c.arguments.getLast?.filter (·.variadic)

end CommandShape

namespace Shape

/-- It is a shape indeed. -/
def isShape : Shape → Bool
  | argument _ | foreign _ => false
  | _ => true

def command? : Shape → Option CommandShape
  | command c => some c
  | _ => none

end Shape

end CommandScript
