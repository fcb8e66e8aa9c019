import CommandScript.Proofs.Matching
import CommandScript.Proofs.Structural
/-!
# CommandScript — what matched matches again

The answer of matching is a path: it leads from a shape through unions, and through nothing else,
to the member that took the value (`Shape.member?`). Asked on its own and in the same way, this
member takes the value again, and then it is itself the answer.

A value that matches exactly matches loosely as well: loose matching asks for less, and in a shape
whose literals can be compared it always comes back (`MadeOf.answers`).
-/

namespace CommandScript

/-- **Any value can be compared with a literal in which nothing contains itself**: the depth to
which values are compared is more than such a literal has. -/
theorem Heap.comparable_of_apart {h : Heap} {l : Value}
    (hl : ∀ w, Relation.ReflTransGen h.Contains l w → ¬ Relation.TransGen h.Contains w w) :
    h.Comparable l := by
  intro v
  unfold equal
  split
  · exact ⟨false, rfl⟩
  · have hdepth : h.containers + 1 ≤ h.containers * h.containers + 1 :=
      Nat.succ_le_succ (Nat.le_mul_self _)
    exact (nestsWithin_of_apart hl).equalWithin_answers hdepth v

namespace Shape

variable {h : Heap} {exact : Bool} {s : Shape} {v : Value}

/-- The member of a union, of a union in it and so on, at the given positions. -/
def member? : Shape → List Nat → Option Shape
  | s, [] => some s
  | .union members, i :: path => members[i]?.bind (member? · path)
  | _, _ :: _ => none

theorem succeeds_eq_true {r : MatchResult} :
    r.succeeds = .ok true ↔ ∃ path, r = .ok (some path) := by
  rcases r with c | _ | path
  · exact iff_of_false (by rintro ⟨⟩) (by simp)
  · exact iff_of_false (by rintro ⟨⟩) (by simp)
  · exact iff_of_true rfl ⟨path, rfl⟩

/-- A test names no member. -/
theorem path_eq_nil_of_ofTest {x : Except Crash Bool} {path : List Nat}
    (hpath : x >>= MatchResult.ofTest = .ok (some path)) : path = [] := by
  rcases x with c | _ | _ <;> cases hpath
  rfl

/-- Where a member matches, it is at the position that the path begins with. -/
theorem exists_member_of_matchAny {members : List Shape} {position : Nat} {path : List Nat}
    (hpath : matchAny h exact position members v = .ok (some path)) :
    ∃ i m rest, path = (position + i) :: rest ∧ members[i]? = some m ∧
      matchWith h exact m v = .ok (some rest) := by
  induction members generalizing position with
  | nil => cases hpath
  | cons s others ih =>
    rw [matchAny] at hpath
    cases hs : matchWith h exact s v with
    | error c => rw [hs] at hpath; cases hpath
    | ok r =>
      rw [hs] at hpath
      cases r with
      | some rest =>
        cases hpath
        exact ⟨0, s, rest, rfl, rfl, hs⟩
      | none =>
        obtain ⟨i, m, rest, rfl, hm, hrest⟩ := ih hpath
        exact ⟨i + 1, m, rest, by rw [Nat.add_right_comm, Nat.add_assoc], hm, hrest⟩

/-- Only a union hands the value on; all other shapes match themselves. -/
theorem path_cases {path : List Nat} (hpath : matchWith h exact s v = .ok (some path)) :
    path = [] ∨ ∃ members, s = .union members := by
  cases s with
  | union members => exact .inr ⟨members, rfl⟩
  | literal l =>
    rw [matchWith] at hpath
    exact .inl (path_eq_nil_of_ofTest hpath)
  | table fields notes indexer value =>
    rw [matchWith] at hpath
    split at hpath
    · cases hpath
    · dsimp only at hpath
      generalize everyEntry _ _ = present at hpath
      rcases present with c | _ | _
      · cases hpath
      · cases hpath
      · cases exact with
        | true => exact .inl (path_eq_nil_of_ofTest (x := matchAbsent h _ fields) hpath)
        | false => exact .inl (path_eq_nil_of_ofTest (x := .ok true) hpath)
  | function | command =>
    rw [matchWith] at hpath
    exact .inl (path_eq_nil_of_ofTest (x := .ok _) hpath)
  | intersection members =>
    rw [matchWith] at hpath
    exact .inl (path_eq_nil_of_ofTest hpath)
  | strange =>
    rw [matchWith] at hpath
    split at hpath <;> exact .inl (path_eq_nil_of_ofTest hpath)
  | argument | foreign =>
    rw [matchWith] at hpath
    cases hpath

/-- **The member that matched matches again**, and then by itself. -/
theorem exists_member_of_match {path : List Nat}
    (hpath : matchWith h exact s v = .ok (some path)) :
    ∃ m, s.member? path = some m ∧ matchWith h exact m v = .ok (some []) := by
  -- every position of the path is one of a union, and the rest of it leads on from that member
  induction path generalizing s with
  | nil => exact ⟨s, by rw [member?], hpath⟩
  | cons i path ih =>
    obtain hnil | ⟨members, rfl⟩ := path_cases hpath
    · cases hnil
    rw [matchWith] at hpath
    obtain ⟨j, m, rest, hcons, hm, hrest⟩ := exists_member_of_matchAny hpath
    obtain ⟨rfl, rfl⟩ : i = j ∧ path = rest := by simpa using hcons
    obtain ⟨n, hn, hmatch⟩ := ih hrest
    refine ⟨n, ?_, hmatch⟩
    rw [member?, hm]
    exact hn

/-- **What matches exactly matches loosely, and what matched matches again.** Let no strange shape
in a shape bring a test of its own for an exact match; the predicates of the host may be any. When a
value matches the shape exactly, loose matching never says that it does not. Where the shape is made
of shapes and its literals can be compared, loose matching always comes back, and so the value
matches loosely. In either way of matching, the answer is the shape itself or a member of unions,
and this one takes the value in the same way, with itself for an answer. -/
theorem match_steady (hplain : s.isPlain = true) (v : Value) :
    (∀ path, matchWith h true s v = .ok (some path) →
      matchWith h false s v ≠ .ok none ∧
      (s.MadeOf h.Comparable (fun _ => True) →
        ∃ path, matchWith h false s v = .ok (some path))) ∧
    ∀ exact path, matchWith h exact s v = .ok (some path) →
      ∃ m, s.member? path = some m ∧ matchWith h exact m v = .ok (some []) := by
  refine ⟨fun path hexact => ?_, fun exact path hpath => exists_member_of_match hpath⟩
  have hfollows (b : Bool) (hloose : (matchWith h false s v).succeeds = .ok b) : b = true :=
    follows_matchWith s v hplain (succeeds_eq_true.2 ⟨path, hexact⟩) b hloose
  refine ⟨fun hnone => ?_, fun hs => ?_⟩
  · cases hfollows false (by rw [hnone]; rfl)
  · obtain ⟨b, hloose⟩ := hs.answers false v
    exact succeeds_eq_true.1 (hfollows b hloose ▸ hloose)

/-- A table that matches the second of two shapes exactly: the first one misses a field, and it is a
union inside the second one that takes what is there. Loosely, the first shape matches already. -/
theorem match_steady_fields :
    let h : Heap := {
      vectors := #[[.string "a", .int 1], [.string "b", .int 1], [.string "a", .int 1]]
      tables := #[⟨[(.string "tags", .vector 0)]⟩] }
    let tags : Shape := .union [.literal (.vector 1), .literal (.vector 2)]
    let wider : Shape :=
      .table (some ⟨[(.string "tags", tags), (.string "size", .literal (.int 3))]⟩) none none none
    let narrower : Shape := .table (some ⟨[(.string "tags", tags)]⟩) none none none
    let s : Shape := .union [wider, .union [.function [], narrower]]
    s.MadeOf h.Comparable (fun _ => True) ∧ s.isPlain = true ∧
      matchWith h true s (.table 0) = .ok (some [1, 1]) ∧
      matchWith h false s (.table 0) = .ok (some [0]) ∧
      s.member? [1, 1] = some narrower ∧
      matchWith h true narrower (.table 0) = .ok (some []) := by
  intro h tags wider narrower s
  have hscalar {l : Value} (hl : l.isContainer = false) (hn : ¬ l.IsNaN) : h.Plain l :=
    Heap.plain_of_not_isContainer hl hn
  have hfirst : h.Plain (.vector 1) := by
    refine .intro (by decide) (by rintro _ ⟨⟩) fun w hw => ?_
    obtain rfl | rfl : w = .string "b" ∨ w = .int 1 := by
      simpa [h, Heap.contents, Heap.vector] using hw
    · exact hscalar rfl (by decide)
    · exact hscalar rfl (by decide)
  have hsecond : h.Plain (.vector 2) := by
    refine .intro (by decide) (by rintro _ ⟨⟩) fun w hw => ?_
    obtain rfl | rfl : w = .string "a" ∨ w = .int 1 := by
      simpa [h, Heap.contents, Heap.vector] using hw
    · exact hscalar rfl (by decide)
    · exact hscalar rfl (by decide)
  have hliteral {l : Value} (hl : h.Plain l) :
      (Shape.literal l).MadeOf h.Comparable fun _ => True :=
    .literal (Heap.comparable_of_apart hl.apart)
  have htags : tags.MadeOf h.Comparable fun _ => True :=
    .union (List.forall_mem_cons.2
      ⟨hliteral hfirst, List.forall_mem_singleton.2 (hliteral hsecond)⟩)
  have hwider : wider.MadeOf h.Comparable fun _ => True := by
    refine .table ?_ (by rintro t ⟨⟩; decide) (by simp) (by simp)
    rintro t ⟨⟩
    exact List.forall_mem_cons.2
      ⟨htags, List.forall_mem_singleton.2 (hliteral (hscalar rfl (by decide)))⟩
  have hnarrower : narrower.MadeOf h.Comparable fun _ => True := by
    refine .table ?_ (by rintro t ⟨⟩; decide) (by simp) (by simp)
    rintro t ⟨⟩
    exact List.forall_mem_singleton.2 htags
  have hs : s.MadeOf h.Comparable fun _ => True :=
    .union (List.forall_mem_cons.2 ⟨hwider, List.forall_mem_singleton.2
      (.union (List.forall_mem_cons.2 ⟨.function [], List.forall_mem_singleton.2 hnarrower⟩))⟩)
  have hexact : matchWith h true s (.table 0) = .ok (some [1, 1]) := by rfl
  obtain ⟨hfollows, hagain⟩ := match_steady (h := h) (s := s) rfl (.table 0)
  obtain ⟨m, hm, hmatch⟩ := hagain true [1, 1] hexact
  obtain rfl : narrower = m := Option.some.inj hm
  obtain ⟨path, hloose⟩ := (hfollows _ hexact).2 hs
  obtain rfl : path = [0] :=
    Option.some.inj (Except.ok.inj (hloose.symm.trans (by rfl : _ = Except.ok (some [0]))))
  exact ⟨hs, rfl, hexact, hloose, rfl, hmatch⟩

end Shape

end CommandScript
