/-!
# CommandScript — limits

Reading and running a script are bounded by limits that the host chooses. A limit
of less than one would refuse everything, so it is refused itself.
-/

namespace CommandScript.Limit

/-- How deep expressions and blocks may nest, where the host does not say. -/
def nesting : Nat := 64

/-- How deep calls of lambdas may nest, where the host does not say. -/
def calls : Nat := 64

/-- The limit that a number stands for, under the name it is set by. -/
def check (name : String) (n : Int) : Except String Nat :=
  if n < 1 then .error (name ++ " must be positive") else .ok n.toNat

theorem check_eq_ok {name : String} {n : Int} {k : Nat} (h : check name n = .ok k) :
    0 < k ∧ (k : Int) = n := by
  unfold check at h
  split at h
  · cases h
  · cases h
    omega

end CommandScript.Limit
