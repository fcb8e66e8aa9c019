import CommandScript.Shape.Debug
import CommandScript.Value.Equality
/-!
# CommandScript — matching values against shapes

A value matches a shape exactly or loosely. Loose matching is for what is still
being typed: a text then matches every literal text that begins with it, and
fields that are not there yet are not missed.

The answer names the shape that matched. That is the shape itself, or inside
unions the member that matched first, and it is given as the path of positions
that leads to it.
-/

namespace CommandScript

/-- The path to the shape that matched, if one did. -/
abbrev MatchResult := Except Crash (Option (List Nat))

namespace MatchResult

/-- The shape itself matched, if a test holds. -/
def ofTest (b : Bool) : MatchResult := .ok (if b then some [] else none)

/-- Something matched. -/
def succeeds (r : MatchResult) : Except Crash Bool := return (← r).isSome

end MatchResult

namespace Shape

/-- The test of a literal shape. -/
def literalMatches (h : Heap) (exact : Bool) (value literal : Value) : Except Crash Bool :=
  match exact, value, literal with
  | false, .string s, .string t => .ok (s.toList.isPrefixOf t.toList)
  | _, v, l => h.equal v l

/-- What a table or vector holds, by key. -/
def entriesOf (h : Heap) : Value → Option (Table Value)
  | .vector a => some ⟨(h.vector a).mapIdx fun i v => (.int (i + 1), v)⟩
  | .table a => some (h.table a)
  | _ => none

/-- Every entry passes a test; the first one that does not ends the search. -/
def everyEntry (test : Value → Value → Except Crash Bool) :
    List (Value × Value) → Except Crash Bool
  | [] => .ok true
  | (k, v) :: rest => do if ← test k v then everyEntry test rest else return false

mutual

/-- Match a value against a shape. -/
def matchWith (h : Heap) (exact : Bool) : Shape → Value → MatchResult
  | .literal l, v => do MatchResult.ofTest (← literalMatches h exact v l)
  | .table fields _ indexer value, v =>
    match entriesOf h v with
    | none => .ok none
    | some entries => do
      let declared := matchField h exact fields
      let onIndexer := matchOptional h exact indexer
      let onValue := matchOptional h exact value
      let present ← everyEntry (fun k item =>
        match declared k item with
        | some r => r
        | none => do if ← onIndexer k then onValue item else return false) entries.entries
      if present then
        MatchResult.ofTest (← if exact then matchAbsent h entries fields else pure true)
      else return none
  | .function _, v | .command _, v => MatchResult.ofTest v.isCallable
  | .union members, v => matchAny h exact 0 members v
  | .intersection members, v => do MatchResult.ofTest (← matchAll h exact members v)
  | .strange _ test exactTest _, v => do
    MatchResult.ofTest (← if exact && exactTest.isSome then matchOptionalTest h exact exactTest v
      else matchOptionalTest h exact test v)
  | .argument a, _ => .error (refuse h (.argument a))
  | .foreign w, _ => .error (refuse h (.foreign w))

/-- Match what stands under a key against the shape declared for the key. -/
def matchField (h : Heap) (exact : Bool) :
    Option (Table Shape) → Value → Value → Option (Except Crash Bool)
  | none, _, _ => none
  | some ⟨fields⟩, key, item => matchFieldIn h exact fields key item

def matchFieldIn (h : Heap) (exact : Bool) :
    List (Value × Shape) → Value → Value → Option (Except Crash Bool)
  | [], _, _ => none
  | (k, s) :: rest, key, item =>
    if k.same key then some (matchWith h exact s item).succeeds
    else matchFieldIn h exact rest key item

/-- A shape that is not there is matched by everything. -/
def matchOptional (h : Heap) (exact : Bool) : Option Shape → Value → Except Crash Bool
  | none, _ => .ok true
  | some s, v => (matchWith h exact s v).succeeds

/-- A declared field that is missing has to allow nil. -/
def matchAbsent (h : Heap) (entries : Table Value) : Option (Table Shape) → Except Crash Bool
  | none => .ok true
  | some ⟨fields⟩ => matchAbsentIn h entries fields

def matchAbsentIn (h : Heap) (entries : Table Value) : List (Value × Shape) → Except Crash Bool
  | [] => .ok true
  | (k, s) :: rest => do
    if entries.has k then matchAbsentIn h entries rest
    else if ← (matchWith h true s .nil).succeeds then matchAbsentIn h entries rest
    else return false

/-- The first member that matches, with its position in front of its path. -/
def matchAny (h : Heap) (exact : Bool) (position : Nat) : List Shape → Value → MatchResult
  | [], _ => .ok none
  | s :: rest, v => do
    match ← matchWith h exact s v with
    | some path => return some (position :: path)
    | none => matchAny h exact (position + 1) rest v

def matchAll (h : Heap) (exact : Bool) : List Shape → Value → Except Crash Bool
  | [], _ => .ok true
  | s :: rest, v => do
    if ← (matchWith h exact s v).succeeds then matchAll h exact rest v else return false

/-- Everything passes a test that is not there. -/
def matchOptionalTest (h : Heap) (exact : Bool) : Option ShapeTest → Value → Except Crash Bool
  | none, _ => .ok true
  | some t, v => matchTest h exact t v

def matchTest (h : Heap) (exact : Bool) : ShapeTest → Value → Except Crash Bool
  | .shape s, v => if s.isShape then (matchWith h exact s v).succeeds else .error (refuseCall s)
  | .predicate holds, v => .ok (holds h v)

end

/-- Nil is allowed; where nothing is declared it is not. -/
def acceptsNil (h : Heap) : Option Shape → Except Crash Bool
  | none => .ok false
  | some s => (matchWith h true s .nil).succeeds

end Shape

end CommandScript
