import CommandScript.Proofs.Accounted
/-!
# CommandScript — what holds of each part of a tree

A property of trees is often one of each part by itself: nothing is missing in it, its
place is a span, it is no loop of a certain kind. A tree has it if the part at its root
does and the trees below it do, and tokens and brackets are no matter.
-/

namespace CommandScript

namespace Outline

/-- All parts in an outline have a property. -/
def Each (P : Node → Prop) (o : Outline) : Prop := ∀ p ∈ o.parts, P p

/-- All parts in outlines have a property. -/
def EachOf (P : Node → Prop) (os : List Outline) : Prop := ∀ p ∈ partsOfAll os, P p

variable {P : Node → Prop} {o : Outline} {os os' : List Outline}

@[simp] theorem eachOf_nil : EachOf P [] := fun _ hp => absurd hp List.not_mem_nil

@[simp] theorem eachOf_cons : EachOf P (o :: os) ↔ o.Each P ∧ EachOf P os := by
  unfold EachOf
  rw [partsOfAll, List.forall_mem_append]
  rfl

@[simp] theorem eachOf_append : EachOf P (os ++ os') ↔ EachOf P os ∧ EachOf P os' := by
  unfold EachOf
  rw [partsOfAll_append, List.forall_mem_append]

@[simp] theorem each_token (t : Token) : (token t).Each P := fun _ hp => absurd hp List.not_mem_nil

@[simp] theorem each_node (p : Node) : (node p os).Each P ↔ P p ∧ EachOf P os := by
  unfold Each
  rw [parts, List.forall_mem_cons]
  rfl

@[simp] theorem eachOf_map_token (ts : List Token) : EachOf P (ts.map token) := by
  induction ts with
  | nil => exact eachOf_nil
  | cons t rest ih => exact eachOf_cons.2 ⟨each_token t, ih⟩

@[simp] theorem eachOf_ofTokens (ts : List (Option Token)) : EachOf P (ofTokens ts) := by
  induction ts with
  | nil => exact eachOf_nil
  | cons t rest ih => exact eachOf_append.2 ⟨eachOf_map_token t.toList, ih⟩

@[simp] theorem eachOf_bracketed (b : Brackets) : EachOf P (bracketed b os) ↔ EachOf P os := by
  simp [bracketed]

end Outline

end CommandScript
