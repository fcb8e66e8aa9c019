/-!
# CommandScript — spans of a source text

A span is a half-open range of code-point offsets. Everything the reader of a
script says about a place in it — tokens, tree nodes, issues, failures — is
said with spans, so the order of the two ends matters: `Span.Ordered` holds of
every span the library builds, and `Span.ofEnds` is the gate for ends that come
from outside.
-/

namespace CommandScript

/-- The range `[start, stop)` of code points. -/
structure Span where
  start : Nat
  stop : Nat
  deriving DecidableEq, Repr, Inhabited

namespace Span

/-- The ends are in order. -/
def Ordered (s : Span) : Prop := s.start ≤ s.stop

instance (s : Span) : Decidable s.Ordered := inferInstanceAs (Decidable (_ ≤ _))

/-- Why two ends make no span. -/
inductive Fault where
  | negative
  | reversed
  deriving DecidableEq, Repr

/-- The wording of a fault. -/
def Fault.message : Fault → String
  | .negative => "TextRange positions cannot be negative"
  | .reversed => "TextRange invariant violated: start > end"

/-- The span with the given ends; a negative end is reported before ends in the
wrong order. -/
def ofEnds (start stop : Int) : Except Fault Span :=
  if start < 0 ∨ stop < 0 then .error .negative
  else if start > stop then .error .reversed
  else .ok ⟨start.toNat, stop.toNat⟩

/-- The empty span at an offset. -/
def point (offset : Nat) : Span := ⟨offset, offset⟩

/-- No text lies in the span. -/
def isEmpty (s : Span) : Bool := s.start == s.stop

/-- The offset lies in the span or right after its last character: a caret
behind a word is still on that word. -/
def touches (s : Span) (offset : Int) : Bool := s.start ≤ offset && offset ≤ s.stop

/-- Every character of `inner` is one of `outer`. -/
def encloses (outer inner : Span) : Bool := outer.start ≤ inner.start && inner.stop ≤ outer.stop

/-- The least span over both. -/
def cover (a b : Span) : Span := ⟨min a.start b.start, max a.stop b.stop⟩

/-- The least span over all those present. -/
def coverAll : List (Option Span) → Option Span
  | [] => none
  | none :: rest => coverAll rest
  | some s :: rest => some ((coverAll rest).elim s s.cover)

/-- Spans in order of their start, then of their end. -/
def before (a b : Span) : Bool := a.start < b.start || (a.start == b.start && a.stop ≤ b.stop)

/-- The written form of the pair of ends. -/
def pair (s : Span) : String := "(" ++ toString s.start ++ ", " ++ toString s.stop ++ ")"

/-- The written form of the range in messages: the start is in, the end is out. -/
def halfOpen (s : Span) : String := "[" ++ toString s.start ++ ", " ++ toString s.stop ++ ")"

/-- The name under which a span shows itself. -/
def display (s : Span) : String := "TextRange" ++ s.pair

/-- The text under a span; what lies beyond the text is cut off. -/
def slice (source : List Char) (s : Span) : List Char :=
  (source.drop s.start).take (s.stop - s.start)

theorem point_ordered (n : Nat) : (point n).Ordered := Nat.le_refl n

theorem cover_ordered {a b : Span} (h : a.Ordered) : (a.cover b).Ordered := by
  simp only [Ordered, cover] at h ⊢
  omega

/-- **The gate lets exactly the spans through.** -/
theorem ofEnds_eq_ok {a b : Int} {s : Span} (h : ofEnds a b = .ok s) :
    s.Ordered ∧ (s.start : Int) = a ∧ (s.stop : Int) = b := by
  unfold ofEnds at h
  split at h
  · cases h
  · split at h
    · cases h
    · cases h
      simp only [Ordered]
      omega

end Span

/-- The line of an offset, counted from one: line feeds before it, plus one. -/
def lineOf (source : List Char) (offset : Nat) : Nat :=
  (source.take offset).count '\n' + 1

end CommandScript
