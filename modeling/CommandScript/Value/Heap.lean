import CommandScript.Value.Table
import CommandScript.Tree.Basic
/-!
# CommandScript — the heap

What stands at the addresses of shared values. Each sort of shared value has a
store of its own, so an address never leads to the wrong sort. Nothing is ever
taken out of a store, and an address beyond the end reads as empty.
-/

namespace CommandScript

/-- A lambda: what it runs, the frame it was made in, and the text it was made
from, which tells the lines of its calls. -/
structure Closure where
  body : FunctionBody
  frame : Nat
  source : String

/-- The stores of shared values. -/
structure Heap where
  vectors : Array (List Value) := #[]
  tables : Array (Table Value) := #[]
  tuples : Array (List Value) := #[]
  lambdas : Array Closure := #[]

namespace Heap

/-- The items of a vector. -/
def vector (h : Heap) (a : Address) : List Value := h.vectors[a]?.getD []

/-- The entries of a table. -/
def table (h : Heap) (a : Address) : Table Value := h.tables[a]?.getD {}

/-- The items of a tuple. -/
def tuple (h : Heap) (a : Address) : List Value := h.tuples[a]?.getD []

/-- The names of the parameters of a lambda. -/
def parameterNames (h : Heap) (a : Address) : List String :=
  (h.lambdas[a]?.map (·.body.names)).getD []

/-- A new vector. -/
def newVector (h : Heap) (items : List Value) : Value × Heap :=
  (.vector h.vectors.size, { h with vectors := h.vectors.push items })

/-- A new table. -/
def newTable (h : Heap) (t : Table Value) : Value × Heap :=
  (.table h.tables.size, { h with tables := h.tables.push t })

/-- A tuple of some items. It is a new one, but for the empty tuple, of which there
is only one. -/
def newTuple (h : Heap) (items : List Value) : Value × Heap :=
  match items, h.tuples.findIdx? List.isEmpty with
  | [], some a => (.tuple a, h)
  | items, _ => (.tuple h.tuples.size, { h with tuples := h.tuples.push items })

/-- A new lambda. -/
def newLambda (h : Heap) (c : Closure) : Value × Heap :=
  (.lambda h.lambdas.size, { h with lambdas := h.lambdas.push c })

/-- Put items at the address of a vector. -/
def setVector (h : Heap) (a : Address) (items : List Value) : Heap :=
  { h with vectors := h.vectors.setIfInBounds a items }

/-- Put entries at the address of a table. -/
def setTable (h : Heap) (a : Address) (t : Table Value) : Heap :=
  { h with tables := h.tables.setIfInBounds a t }

/-- How many vectors, tables and tuples there are: no path through them is longer
without coming back to where it was. -/
def containers (h : Heap) : Nat := h.vectors.size + h.tables.size + h.tuples.size

/-- The values that the result of a command stands for: none for nil, several for
a tuple. -/
def packed (h : Heap) : Value → List Value
  | .nil => []
  | .tuple a => h.tuple a
  | v => [v]

/-- One value for the values of a lambda: nil for none, a tuple for several. -/
def unpacked (h : Heap) : List Value → Value × Heap
  | [] => (.nil, h)
  | [v] => (v, h)
  | vs => h.newTuple vs

end Heap

end CommandScript
