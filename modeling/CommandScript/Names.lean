/-!
# CommandScript — things under names

Globals, the variables of a frame and attached shapes are all kept under names,
in the order in which the names came. A name that is given something new keeps
its place; one that was taken away and comes back is last.
-/

namespace CommandScript

/-- Things of one type under names, in order. -/
structure Names (α : Type) where
  entries : List (String × α) := []
  deriving Repr, Inhabited

namespace Names

variable {α : Type}

/-- What stands under a name. -/
def get? (t : Names α) (name : String) : Option α :=
  (t.entries.find? fun e => e.1 == name).map (·.2)

/-- Something stands under the name. -/
def has (t : Names α) (name : String) : Bool := (t.get? name).isSome

/-- Entries with something put under a name. -/
def insertInto (name : String) (a : α) : List (String × α) → List (String × α)
  | [] => [(name, a)]
  | e :: rest => if e.1 == name then (e.1, a) :: rest else e :: insertInto name a rest

/-- Put something under a name. -/
def insert (t : Names α) (name : String) (a : α) : Names α := ⟨insertInto name a t.entries⟩

/-- Take a name away. -/
def erase (t : Names α) (name : String) : Names α := ⟨t.entries.filter fun e => e.1 != name⟩

/-- Put everything of a second collection on top of a first one. -/
def update (t u : Names α) : Names α := u.entries.foldl (fun t e => t.insert e.1 e.2) t

/-- The names in order. -/
def names (t : Names α) : List String := t.entries.map (·.1)

/-- Other things under the same names. -/
def mapValues {β : Type} (f : α → β) (t : Names α) : Names β :=
  ⟨t.entries.map fun e => (e.1, f e.2)⟩

/-- **What was put under a name is there, and other names are as they were.** -/
@[simp] theorem get?_insert (t : Names α) (name other : String) (a : α) :
    (t.insert name a).get? other = if other = name then some a else t.get? other := by
  obtain ⟨es⟩ := t
  simp only [get?, insert]
  induction es with
  | nil =>
    by_cases h : other = name
    · simp [insertInto, h]
    · simp [insertInto, h, Ne.symm h]
  | cons e rest ih =>
    by_cases he : e.1 = name
    · by_cases h : other = name
      · simp [insertInto, he, h]
      · simp [insertInto, he, h, Ne.symm h]
    · by_cases h : e.1 = other
      · have hn : other ≠ name := fun ho => he (h.trans ho)
        simp [insertInto, h, hn]
      · simpa [insertInto, he, h] using ih

end Names

end CommandScript
