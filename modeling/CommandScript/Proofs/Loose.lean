import CommandScript.Shape.Match
/-!
# CommandScript — what matches exactly matches loosely

Loose matching asks for less: a text may be the begin of a literal, and a field may be
missing. So a value that matches a shape exactly is not turned down when it is matched
loosely, as long as no strange shape brings a test of its own for exact matching.

Loose matching may look at more of a value, since it goes on where exact matching stops, and
so it can crash where exact matching does not. Of that nothing is said here.
-/

namespace CommandScript

namespace Shape

mutual

/-- No strange shape that a value is matched against has an exact test. -/
def isPlain : Shape → Bool
  | .literal _ | .function _ | .argument _ | .foreign _ => true
  | .table fields _ indexer value => plainFields fields && plainOptional indexer && plainOptional value
  | .command c => plainCommand c
  | .union members | .intersection members => plainAll members
  | .strange _ test exactTest _ => exactTest.isNone && plainTest test

/-- So it is with the shapes of all arguments of a command. -/
def plainCommand : CommandShape → Bool
  | .mk _ _ arguments => plainArguments arguments

def plainArguments : List ArgumentShape → Bool
  | [] => true
  | .mk _ _ s _ :: rest => plainOptional s && plainArguments rest

def plainFields : Option (Table Shape) → Bool
  | none => true
  | some ⟨fields⟩ => plainEntries fields

def plainEntries : List (Value × Shape) → Bool
  | [] => true
  | (_, s) :: rest => isPlain s && plainEntries rest

def plainOptional : Option Shape → Bool
  | none => true
  | some s => isPlain s

def plainAll : List Shape → Bool
  | [] => true
  | s :: rest => isPlain s && plainAll rest

def plainTest : Option ShapeTest → Bool
  | none | some (.predicate _) => true
  | some (.shape s) => isPlain s

end

/-- Where one test passes, another one does not fail, if it comes back. -/
def Follows (x y : Except Crash Bool) : Prop := x = .ok true → ∀ b, y = .ok b → b = true

namespace Follows

variable {x x' y y' : Except Crash Bool}

theorem refl (x : Except Crash Bool) : Follows x x := by
  intro hx b hb
  rw [hx] at hb
  cases hb
  rfl

theorem of_eq (h : x = y) : Follows x y := h ▸ refl x

/-- Both have to pass. -/
theorem and (hx : Follows x x') (hy : Follows y y') :
    Follows (do if ← x then y else return false) (do if ← x' then y' else return false) := by
  intro h b hb
  cases hx' : x with
  | error c => simp [hx', bind, Except.bind] at h
  | ok t =>
    cases t with
    | false => simp [hx', bind, Except.bind, pure, Except.pure] at h
    | true =>
      simp only [hx', bind, Except.bind, if_true] at h
      cases hb' : x' with
      | error c => simp [hb', bind, Except.bind] at hb
      | ok t' =>
        obtain rfl := hx hx' t' hb'
        simp only [hb', bind, Except.bind, if_true] at hb
        exact hy h b hb

/-- One of two has to pass. -/
theorem or (hx : Follows x x') (hy : Follows y y') :
    Follows (do if ← x then return true else y) (do if ← x' then return true else y') := by
  intro h b hb
  cases hb' : x' with
  | error c => simp [hb', bind, Except.bind] at hb
  | ok t' =>
    cases t' with
    | true =>
      simp only [hb', bind, Except.bind, if_true, pure, Except.pure, Except.ok.injEq] at hb
      exact hb.symm
    | false =>
      simp only [hb', bind, Except.bind, Bool.false_eq_true, if_false] at hb
      refine hy ?_ b hb
      cases hx' : x with
      | error c => simp [hx', bind, Except.bind] at h
      | ok t =>
        cases t with
        | true => exact absurd (hx hx' false hb') (by simp)
        | false => simpa [hx', bind, Except.bind] using h

end Follows

/-! ## Results of matching as tests -/

variable {h : Heap} {exact : Bool}

@[simp] theorem succeeds_ofTest (x : Except Crash Bool) :
    MatchResult.succeeds (x >>= MatchResult.ofTest) = x := by
  cases x with
  | error c => rfl
  | ok b => cases b <;> rfl

/-- A test behind another one. -/
theorem succeeds_ite (x y : Except Crash Bool) :
    MatchResult.succeeds (do
      let present ← x
      if present then MatchResult.ofTest (← y) else return none) =
      (do if ← x then y else return false) := by
  cases x with
  | error c => rfl
  | ok present =>
    cases present with
    | false => rfl
    | true => exact succeeds_ofTest y

theorem succeeds_matchAny_cons (position : Nat) (s : Shape) (rest : List Shape) (v : Value) :
    (matchAny h exact position (s :: rest) v).succeeds = (do
      if ← (matchWith h exact s v).succeeds then return true
      else (matchAny h exact (position + 1) rest v).succeeds) := by
  rw [matchAny]
  cases matchWith h exact s v with
  | error c => rfl
  | ok r => cases r <;> rfl

theorem follows_literalMatches (v l : Value) :
    Follows (literalMatches h true v l) (literalMatches h false v l) := by
  cases v with
  | string s =>
    cases l with
    | string t =>
      intro hexact b hloose
      have heq : s = t := by
        by_cases hst : s = t
        · exact hst
        · simp [literalMatches, Heap.equal, Value.kind, Heap.alike, Heap.equalWithin, Value.same,
            Value.asNumber?, hst] at hexact
      subst heq
      simp only [literalMatches, Except.ok.injEq] at hloose
      exact hloose.symm.trans (List.isPrefixOf_iff_prefix.2 List.prefix_rfl)
    | _ => exact .refl _
  | _ => exact .refl _

theorem follows_everyEntry {test test' : Value → Value → Except Crash Bool}
    (htest : ∀ k v, Follows (test k v) (test' k v)) (entries : List (Value × Value)) :
    Follows (everyEntry test entries) (everyEntry test' entries) := by
  induction entries with
  | nil => exact .refl _
  | cons e rest ih => exact (htest e.1 e.2).and ih

mutual

/-- **What matches exactly matches loosely**, if loose matching comes back. -/
theorem follows_matchWith : ∀ (s : Shape) (v : Value), s.isPlain = true →
    Follows (matchWith h true s v).succeeds (matchWith h false s v).succeeds
  | .literal l, v, _ => by
    simp only [matchWith, succeeds_ofTest]
    exact follows_literalMatches v l
  | .table fields notes indexer value, v, hs => by
    simp only [isPlain, Bool.and_eq_true] at hs
    obtain ⟨⟨hfields, hindexer⟩, hvalue⟩ := hs
    simp only [matchWith]
    cases entriesOf h v with
    | none => exact .refl _
    | some entries =>
      -- that no field is missing has to be shown for an exact match only
      have habsent : Follows (matchAbsent h entries fields) (pure true) := fun _ b hb => by
        cases hb
        rfl
      simp only [if_true, Bool.false_eq_true, if_false, succeeds_ite]
      refine (follows_everyEntry (fun k item => ?_) _).and habsent
      have hfield := follows_matchField fields k item hfields
        ((follows_matchOptional indexer k hindexer).and (follows_matchOptional value item hvalue))
      cases hexact : matchField h true fields k item <;>
        cases hloose : matchField h false fields k item <;>
          simpa only [hexact, hloose, Option.getD_none, Option.getD_some] using hfield
  | .function _, v, _ | .command _, v, _ => by
    simp only [matchWith]
    exact .refl _
  | .union members, v, hs => by
    simp only [matchWith]
    exact follows_matchAny members 0 v hs
  | .intersection members, v, hs => by
    simp only [matchWith, succeeds_ofTest]
    exact follows_matchAll members v hs
  | .strange _ test exactTest _, v, hs => by
    simp only [isPlain, Bool.and_eq_true, Option.isNone_iff_eq_none] at hs
    obtain ⟨rfl, htest⟩ := hs
    simp only [matchWith, Option.isSome_none, Bool.and_false, Bool.false_eq_true, if_false,
      succeeds_ofTest]
    exact follows_matchOptionalTest test v htest
  | .argument _, v, _ | .foreign _, v, _ => by
    simp only [matchWith]
    exact .refl _

theorem follows_matchField : ∀ (fields : Option (Table Shape)) (key item : Value)
    {x y : Except Crash Bool}, plainFields fields = true → Follows x y →
      Follows ((matchField h true fields key item).getD x)
        ((matchField h false fields key item).getD y)
  | none, _, _, _, _, _, hxy => hxy
  | some ⟨fields⟩, key, item, _, _, hs, hxy => follows_matchFieldIn fields key item hs hxy

theorem follows_matchFieldIn : ∀ (fields : List (Value × Shape)) (key item : Value)
    {x y : Except Crash Bool}, plainEntries fields = true → Follows x y →
      Follows ((matchFieldIn h true fields key item).getD x)
        ((matchFieldIn h false fields key item).getD y)
  | [], _, _, _, _, _, hxy => hxy
  | (k, s) :: rest, key, item, _, _, hs, hxy => by
    rw [plainEntries, Bool.and_eq_true] at hs
    rw [matchFieldIn, matchFieldIn]
    split
    · exact follows_matchWith s item hs.1
    · exact follows_matchFieldIn rest key item hs.2 hxy

theorem follows_matchOptional : ∀ (s : Option Shape) (v : Value), plainOptional s = true →
    Follows (matchOptional h true s v) (matchOptional h false s v)
  | none, _, _ => .refl _
  | some s, v, hs => follows_matchWith s v hs

theorem follows_matchAny : ∀ (members : List Shape) (position : Nat) (v : Value),
    plainAll members = true →
      Follows (matchAny h true position members v).succeeds
        (matchAny h false position members v).succeeds
  | [], _, _, _ => .refl _
  | s :: rest, position, v, hs => by
    rw [plainAll, Bool.and_eq_true] at hs
    rw [succeeds_matchAny_cons, succeeds_matchAny_cons]
    exact (follows_matchWith s v hs.1).or (follows_matchAny rest (position + 1) v hs.2)

theorem follows_matchAll : ∀ (members : List Shape) (v : Value), plainAll members = true →
    Follows (matchAll h true members v) (matchAll h false members v)
  | [], _, _ => .refl _
  | s :: rest, v, hs => by
    rw [plainAll, Bool.and_eq_true] at hs
    rw [matchAll, matchAll]
    exact (follows_matchWith s v hs.1).and (follows_matchAll rest v hs.2)

theorem follows_matchOptionalTest : ∀ (test : Option ShapeTest) (v : Value),
    plainTest test = true →
      Follows (matchOptionalTest h true test v) (matchOptionalTest h false test v)
  | none, _, _ => .refl _
  | some (.predicate holds), _, _ => .refl _
  | some (.shape s), v, hs => by
    simp only [matchOptionalTest, matchTest]
    split
    · exact follows_matchWith s v hs
    · exact .refl _

end

end Shape

end CommandScript
