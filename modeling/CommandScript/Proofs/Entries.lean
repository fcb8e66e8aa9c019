import CommandScript.Value.Heap
/-!
# CommandScript — what stands in a table

A table of a script is lawful if its keys are strings, numbers and booleans and nothing
in it is nil: to put nil under a key means to take the key out. All a script does to a
table is to put something under such a key or to take a key out, and both keep it lawful.
-/

namespace CommandScript

namespace Table

variable {t : Table Value} {key v : Value}

/-- Every key is a string, a number or a boolean, and nothing stands there as nil. -/
def Lawful (t : Table Value) : Prop := ∀ e ∈ t.entries, e.1.isKey = true ∧ e.2 ≠ .nil

/-- What is done to a table in one go. -/
inductive Write (t : Table Value) : Table Value → Prop where
  | put {key v : Value} : key.isKey = true → v ≠ .nil → Write t (t.insert key v)
  | forget (key : Value) : Write t (t.erase key)

theorem lawful_empty : ({} : Table Value).Lawful := nofun

/-- Only what was put under a key can be new: where the key was there, it stays as it was. -/
theorem Lawful.insert (h : t.Lawful) (hkey : key.isKey = true) (hv : v ≠ .nil) :
    (t.insert key v).Lawful := by
  have hentries {es : List (Value × Value)} (hes : ∀ e ∈ es, e.1.isKey = true ∧ e.2 ≠ .nil) :
      ∀ e ∈ insertInto key v es, e.1.isKey = true ∧ e.2 ≠ .nil := by
    induction es with
    | nil => exact List.forall_mem_singleton.2 ⟨hkey, hv⟩
    | cons d rest ih =>
      obtain ⟨hd, hrest⟩ := List.forall_mem_cons.1 hes
      unfold insertInto
      split
      · exact List.forall_mem_cons.2 ⟨⟨hd.1, hv⟩, hrest⟩
      · exact List.forall_mem_cons.2 ⟨hd, ih hrest⟩
  exact hentries h

theorem Lawful.erase (h : t.Lawful) (key : Value) : (t.erase key).Lawful :=
  fun e he => h e (List.mem_filter.1 he).1

/-- **What a script does to a table keeps it lawful.** -/
theorem Write.lawful {t' : Table Value} (hw : t.Write t') (h : t.Lawful) : t'.Lawful := by
  cases hw with
  | put hkey hv => exact h.insert hkey hv
  | forget key => exact h.erase key

end Table

end CommandScript
