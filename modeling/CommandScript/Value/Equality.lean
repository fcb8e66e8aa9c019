import CommandScript.Value.Heap
import CommandScript.Value.Crash
/-!
# CommandScript — equality of values

`==` holds of values of one kind that are the same or, for vectors and tables,
that hold equal things. Inside containers kinds are not compared: what makes two
keys one key makes two numbers or booleans equal there too.

Shared values at one address are equal without a look inside. Two containers that
contain themselves and differ nowhere are compared without end.
-/

namespace CommandScript

/-- Every pair of a list satisfies a test that may crash; the test stops at the
first pair that does not. -/
def allPairs (test : Value → Value → Except Crash Bool) : List (Value × Value) → Except Crash Bool
  | [] => .ok true
  | (a, b) :: rest => do if ← test a b then allPairs test rest else return false

namespace Heap

/-- Entries of a table in order, compared under their keys with those of another
table; a key that is missing there ends the comparison. -/
def sameEntries (test : Value → Value → Except Crash Bool) (right : Table Value) :
    List (Value × Value) → Except Crash Bool
  | [] => .ok true
  | (k, v) :: rest =>
    match right.get? k with
    | none => .ok false
    | some w => do if ← test v w then sameEntries test right rest else return false

/-- Equality without regard to kinds, to a depth of nesting. -/
def equalWithin (h : Heap) : Nat → Value → Value → Except Crash Bool
  | budget, a, b =>
    if a.same b then .ok true
    else match budget, a, b with
      | 0, .vector _, .vector _ | 0, .table _, .table _ | 0, .tuple _, .tuple _ => .error .endless
      | budget + 1, .vector i, .vector j =>
        let (xs, ys) := (h.vector i, h.vector j)
        if xs.length ≠ ys.length then .ok false
        else allPairs (equalWithin h budget) (xs.zip ys)
      | budget + 1, .tuple i, .tuple j => do
        let (xs, ys) := (h.tuple i, h.tuple j)
        return (← allPairs (equalWithin h budget) (xs.zip ys)) && xs.length == ys.length
      | budget + 1, .table i, .table j =>
        if (h.table i).size ≠ (h.table j).size then .ok false
        else sameEntries (equalWithin h budget) (h.table j) (h.table i).entries
      | _, _, _ => .ok false

/-- Equality without regard to kinds. Two containers of finite depth are told apart
or found equal before as many levels are passed as there are pairs of containers. -/
def alike (h : Heap) (a b : Value) : Except Crash Bool :=
  h.equalWithin (h.containers * h.containers + 1) a b

/-- The equality of scripts. -/
def equal (h : Heap) (a b : Value) : Except Crash Bool :=
  if a.kind ≠ b.kind then .ok false else h.alike a b

end Heap

end CommandScript
