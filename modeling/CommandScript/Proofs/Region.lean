import CommandScript.Proofs.Crash
import CommandScript.Value.Tuple
import CommandScript.Names
/-!
# CommandScript — regions of shared values

A region is a set of addresses, one for each sort of shared value. A value is in a
region if it is not shared or stands at one of these addresses. The lemmas here
say that values stay in a region on their way through lists, tables, names and
operators.
-/

namespace CommandScript

/-- Shared values, by their addresses. -/
structure Region where
  vector : Address → Prop
  table : Address → Prop
  tuple : Address → Prop
  lambda : Address → Prop

namespace Region

/-- Everything. -/
def all : Region := ⟨fun _ => True, fun _ => True, fun _ => True, fun _ => True⟩

variable (R : Region)

/-- A value is in the region; one that is not shared always is. -/
def Holds : Value → Prop
  | .vector a => R.vector a
  | .table a => R.table a
  | .tuple a | .method a _ => R.tuple a
  | .lambda a => R.lambda a
  | _ => True

/-- All of some values are in the region. -/
def Held (vs : List Value) : Prop := ∀ v ∈ vs, R.Holds v

/-- Keys and values of a table are in the region. -/
def HeldTable (t : Table Value) : Prop := ∀ e ∈ t.entries, R.Holds e.1 ∧ R.Holds e.2

/-- What stands under names is in the region. -/
def HeldNames (vars : Names Value) : Prop := ∀ name v, vars.get? name = some v → R.Holds v

@[simp] theorem holds_all (v : Value) : all.Holds v := by
  cases v <;> trivial

theorem holds_all_eq : all.Holds = fun _ => True :=
  funext fun v => eq_true (holds_all v)

variable {R} {v : Value} {vs ws : List Value} {t : Table Value}

/-- A key of a table is not shared. -/
theorem holds_of_isKey (h : v.isKey = true) : R.Holds v := by
  cases v <;> trivial

/-! ## Lists -/

@[simp] theorem held_nil : R.Held [] := nofun

@[simp] theorem held_cons : R.Held (v :: vs) ↔ R.Holds v ∧ R.Held vs := List.forall_mem_cons

theorem Held.append (hv : R.Held vs) (hw : R.Held ws) : R.Held (vs ++ ws) :=
  List.forall_mem_append.2 ⟨hv, hw⟩

/-- What is read at a place is in the region, also where there is none. -/
theorem Held.getD (h : R.Held vs) (i : Nat) : R.Holds (vs[i]?.getD .nil) := by
  cases hi : vs[i]? with
  | none => trivial
  | some v => exact h v (List.mem_of_getElem? hi)

theorem Held.headD (h : R.Held vs) : R.Holds (vs.headD .nil) := by
  cases vs with
  | nil => trivial
  | cons v rest => exact h v List.mem_cons_self

theorem Held.set (h : R.Held vs) (i : Nat) (hv : R.Holds v) : R.Held (vs.set i v) := by
  intro w hw
  obtain hw | rfl := List.mem_or_eq_of_mem_set hw
  · exact h w hw
  · exact hv

/-! ## Tables -/

theorem heldTable_empty : R.HeldTable {} := nofun

theorem HeldTable.get (h : R.HeldTable t) (key : Value) : R.Holds ((t.get? key).getD .nil) := by
  unfold Table.get?
  cases he : t.entries.find? fun e => e.1.same key with
  | none => trivial
  | some e => exact (h e (List.mem_of_find?_eq_some he)).2

/-- An entry of a table into which something was put was there before, or is new, or
has the key of one that was there. -/
theorem mem_insertInto {key value : Value} {es : List (Value × Value)} {e : Value × Value}
    (h : e ∈ Table.insertInto key value es) :
    e ∈ es ∨ e = (key, value) ∨ ∃ d ∈ es, e = (d.1, value) := by
  induction es with
  | nil => exact .inr (.inl (List.mem_singleton.1 h))
  | cons d rest ih =>
    unfold Table.insertInto at h
    split at h
    · obtain rfl | h := List.mem_cons.1 h
      · exact .inr (.inr ⟨d, List.mem_cons_self, rfl⟩)
      · exact .inl (List.mem_cons_of_mem d h)
    · obtain rfl | h := List.mem_cons.1 h
      · exact .inl List.mem_cons_self
      · obtain h | h | ⟨d', hd', rfl⟩ := ih h
        · exact .inl (List.mem_cons_of_mem d h)
        · exact .inr (.inl h)
        · exact .inr (.inr ⟨d', List.mem_cons_of_mem d hd', rfl⟩)

theorem HeldTable.insert (h : R.HeldTable t) {key : Value} (hk : R.Holds key) (hv : R.Holds v) :
    R.HeldTable (t.insert key v) := by
  intro e he
  obtain he | rfl | ⟨d, hd, rfl⟩ := mem_insertInto he
  · exact h e he
  · exact ⟨hk, hv⟩
  · exact ⟨(h d hd).1, hv⟩

theorem HeldTable.erase (h : R.HeldTable t) (key : Value) : R.HeldTable (t.erase key) :=
  fun e he => h e (List.mem_filter.1 he).1

/-! ## Names -/

theorem heldNames_empty : R.HeldNames {} := nofun

theorem HeldNames.insert {vars : Names Value} (h : R.HeldNames vars) (name : String)
    (hv : R.Holds v) : R.HeldNames (vars.insert name v) := by
  intro other w hw
  rw [Names.get?_insert] at hw
  split at hw
  · cases hw
    exact hv
  · exact h other w hw

theorem HeldNames.foldl_insert {l : List (String × Value)} {vars : Names Value}
    (h : R.HeldNames vars) (hl : ∀ e ∈ l, R.Holds e.2) :
    R.HeldNames (l.foldl (fun vars e => vars.insert e.1 e.2) vars) := by
  induction l generalizing vars with
  | nil => exact h
  | cons e rest ih =>
    exact ih (h.insert e.1 (hl e List.mem_cons_self)) fun d hd => hl d (List.mem_cons_of_mem e hd)

/-! ## Operators

What an operator gives is never shared, nor is what a tuple answers. -/

theorem holds_binary {h : Heap} {k : TokenKind} {left right : Value}
    (ho : Operator.binary h k left right = .ok v) : R.Holds v := by
  unfold Operator.binary at ho
  split at ho
  · unfold Operator.compute at ho
    split at ho
    · split at ho
      · cases ho
      · split at ho <;> first
        | (cases ho <;> trivial)
        | (split at ho <;> cases ho)
    · cases ho
  · unfold Operator.compare at ho
    split at ho <;> cases ho <;> trivial
  · have hequality : ∀ {wanted}, Operator.equality h left right wanted = .ok v → R.Holds v := by
      intro wanted he
      unfold Operator.equality at he
      split at he <;> cases he
      trivial
    split at ho
    · exact hequality ho
    · exact hequality ho
    · exact hequality ho
    · unfold Operator.concat at ho
      split at ho
      · cases ho
      · split at ho
        · cases ho
        · split at ho <;> cases ho
          trivial
    · cases ho

theorem holds_unary {k : TokenKind} {w : Value} (ho : Operator.unary k w = .ok v) :
    R.Holds v := by
  unfold Operator.unary at ho
  split at ho <;> cases ho <;> trivial

theorem holds_answer {h : Heap} {a : Address} {m : TupleMethod}
    (ho : m.answer h a vs = .ok v) : R.Holds v := by
  unfold TupleMethod.answer at ho
  split at ho
  · obtain ⟨n, -, hn⟩ := ok_of_bind ho
    cases hn
    trivial
  · cases ho
  · split at ho
    · cases ho
    · obtain ⟨bounds, -, hb⟩ := ok_of_bind ho
      obtain ⟨n, -, hn⟩ := ok_of_bind hb
      cases hn
      trivial
  · cases ho

end Region

end CommandScript
