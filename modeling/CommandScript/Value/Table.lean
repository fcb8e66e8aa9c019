import CommandScript.Value.Basic
/-!
# CommandScript — tables

A table is a list of entries in the order in which their keys were first put in.
Putting something under a key that is there keeps the key and its place; a key
that was taken out and is put in again comes last. The tables of scripts hold
values; tables of other things describe them.
-/

namespace CommandScript

/-- Entries by key, in order of insertion. -/
structure Table (α : Type) where
  entries : List (Value × α) := []
  deriving Repr, Inhabited

namespace Table

variable {α : Type}

/-- What stands under a key. -/
def get? (t : Table α) (key : Value) : Option α :=
  (t.entries.find? fun e => e.1.same key).map (·.2)

/-- A key is there. -/
def has (t : Table α) (key : Value) : Bool := t.entries.any fun e => e.1.same key

/-- Entries with something put under a key. -/
def insertInto (key : Value) (value : α) :
    List (Value × α) → List (Value × α)
  | [] => [(key, value)]
  | e :: rest => if e.1.same key then (e.1, value) :: rest else e :: insertInto key value rest

/-- Put something under a key. -/
def insert (t : Table α) (key : Value) (value : α) : Table α := ⟨insertInto key value t.entries⟩

/-- Take a key out, if it is there. -/
def erase (t : Table α) (key : Value) : Table α := ⟨t.entries.filter fun e => !e.1.same key⟩

/-- Put entries in one after another. -/
def ofList (entries : List (Value × α)) : Table α :=
  entries.foldl (fun t e => t.insert e.1 e.2) {}

/-- The number of entries. -/
def size (t : Table α) : Nat := t.entries.length

/-- The keys in order. -/
def keys (t : Table α) : List Value := t.entries.map (·.1)

end Table

end CommandScript
