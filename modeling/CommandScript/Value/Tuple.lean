import CommandScript.Value.Equality
/-!
# CommandScript — what tuples answer

Two things can be asked of a tuple: how often a value is in it, and where a value
comes first. Values are compared as they are inside containers, without regard to
their kinds.

Positions count from zero. The search for a place can be narrowed to the places
from one position on and before another one; a negative position counts from the
end, and one that lies outside means the nearer end.
-/

namespace CommandScript

namespace Heap

/-- How often a value is among some items. -/
def occurrences (h : Heap) (v : Value) (items : List Value) : Except Crash Nat := do
  return (← items.filterM (h.alike · v)).length

/-- The first item, of some with their positions, that is a value. -/
def placeOf (h : Heap) (v : Value) (items : List (Value × Nat)) : Except Crash Nat := do
  match ← items.findM? fun item => h.alike item.1 v with
  | some item => return item.2
  | none => throw (.tuple .absent)

end Heap

namespace TupleMethod

/-- The position that a value stands for among so many items, counted from the
front; a boolean stands for the number it stands for as a key. -/
def position (size : Nat) (v : Value) : Except Crash Nat :=
  match v.asNumber? with
  | some (.int i) => .ok (if i < 0 then i + size else i).toNat
  | _ => .error (.tuple .position)

/-- What a tuple answers. -/
def answer (h : Heap) (tuple : Address) : TupleMethod → List Value → Except Crash Value
  | .count, [v] => do return .int (← h.occurrences v (h.tuple tuple))
  | .count, vs => .error (.tuple (.countOf vs.length))
  | .index, v :: bounds => do
    let items := h.tuple tuple
    if 2 < bounds.length then throw (.tuple (.placeOf (bounds.length + 1)))
    let bounds ← bounds.mapM (position items.length)
    let within := (items.zipIdx.take (bounds[1]?.getD items.length)).drop (bounds[0]?.getD 0)
    return .int (← h.placeOf v within)
  | .index, [] => .error (.tuple .placeOfNothing)

end TupleMethod

end CommandScript
