import CommandScript.Proofs.Onward
import Mathlib.Logic.Basic
/-!
# CommandScript — a larger limit on nesting

The limit is looked at in two places, before an operand and behind the brace that opens a
block. Under a larger limit a rule does there what it does under a smaller one, unless the
smaller one is passed and the text is said to be nested too deeply. That is said by the
parser once and never taken back, so it is enough to follow two runs up to there
(`Parse.Extends`).
-/

namespace CommandScript

variable {α β : Type}

namespace Parse

/-- A step does what another one does, wherever that one does not find the nesting too
deep. -/
class Extends (q p : Parse α) : Prop where
  moves : Moves p
  same : ∀ c, (p c).2.deepReported = true ∨ q c = p c

instance Extends.refl (p : Parse α) [h : Moves p] : Extends p p := ⟨h, fun _ => .inr rfl⟩

instance Extends.bind (q p : Parse α) (g f : α → Parse β) [hp : Extends q p]
    [hf : ∀ a, Extends (g a) (f a)] : Extends (q >>= g) (p >>= f) where
  moves := @Moves.bind _ _ p f hp.moves fun a => (hf a).moves
  same c := by
    change (f (p c).1 (p c).2).2.deepReported = true ∨ g (q c).1 (q c).2 = f (p c).1 (p c).2
    obtain hdeep | hsame := hp.same c
    · exact .inl (((hf _).moves.onward _).deep hdeep)
    · rw [hsame]
      exact (hf _).same _

/-- A step, and what follows on its result. -/
theorem Extends.andThen {q p : Parse α} {g f : α → Parse β} (h : Extends q p)
    (hf : ∀ a, Extends (g a) (f a)) : Extends (q >>= g) (p >>= f) :=
  bind q p g f

instance (f : α → β) (q p : Parse α) [h : Extends q p] : Extends (f <$> q) (f <$> p) where
  moves := ⟨h.moves.onward⟩
  same c := (h.same c).imp_right fun hsame => by
    change (f (q c).1, (q c).2) = (f (p c).1, (p c).2)
    rw [hsame]

instance (P : Prop) [Decidable P] (q p q' p' : Parse α) [h : Extends q p] [h' : Extends q' p'] :
    Extends (if P then q else q') (if P then p else p') := by
  split
  · exact h
  · exact h'

/-- Past the limit it is said that the nesting is too deep. -/
theorem deepReported_tooDeep (c : Cursor) : (tooDeep c).2.deepReported = true := by
  have hreport : (reportTooDeep c).2.deepReported = true := by
    rw [reportTooDeep, modify_snd]
    split
    · assumption
    · rfl
  have hskip : Moves (do
      let c ← get
      if c.atEnd then pure none
      else
        let tokens ← bumpWhile fun _ => true
        return some ⟨tokens, ← spanFrom c.offset⟩ : Parse (Option Skipped)) := inferInstance
  exact (hskip.onward _).deep hreport

/-- Where the smaller limit is not passed, neither is the larger one. -/
instance Extends.guarded {limit limit' depth : Nat} [hle : Fact (limit ≤ limit')]
    (q p : Parse α) (f : Option Skipped → Parse α) [hf : ∀ k, Moves (f k)] [h : Extends q p] :
    Extends (if limit' < depth then tooDeep >>= f else q)
      (if limit < depth then tooDeep >>= f else p) := by
  by_cases hdepth : limit < depth
  · rw [if_pos hdepth]
    refine ⟨inferInstance, fun c => .inl ?_⟩
    exact ((hf _).onward _).deep (deepReported_tooDeep c)
  · have hdepth' : ¬ limit' < depth := fun h => hdepth (Nat.lt_of_le_of_lt hle.out h)
    rw [if_neg hdepth, if_neg hdepth']
    exact h

end Parse

/-! ## The rules of the grammar -/

namespace Grammar

open Parse

/-- Whatever is asked for, the one reads what the other one reads. -/
class Extending (rules' rules : (n : Nonterminal) → Parse n.Result) : Prop where
  extend : ∀ n, Extends (rules' n) (rules n)

-- A rule is a long term, and the search goes through all of it on both sides.
set_option synthInstance.maxSize 10000

/-- A list whose elements are read in another way. -/
theorem extends_read (l : Listing α) {q : Parse (Option α)} (hq : Extends q l.element) :
    Extends (Listing.read ⟨q, l.starts, l.ends, l.what⟩) l.read := by
  have hrounds (before : Option Nat) (n : Nat) :
      Extends (Listing.rounds ⟨q, l.starts, l.ends, l.what⟩ before n) (l.rounds before n) := by
    induction n generalizing before with
    | zero => unfold Listing.rounds; infer_instance
    | succ n ih =>
      unfold Listing.rounds
      dsimp only
      infer_instance
  unfold Listing.read
  infer_instance

section Rules

variable {limit limit' depth : Nat} {self self' : (n : Nonterminal) → Parse n.Result}
variable [he : Extending self' self]

instance (argument : Bool) : @Extends (Option Expression) (self' (.operand depth argument))
    (self (.operand depth argument)) := he.1 _

instance (precedence : Nat) : @Extends (Option Expression) (self' (.expression depth precedence))
    (self (.expression depth precedence)) := he.1 _

instance : @Extends (Option Expression) (self' (.value depth)) (self (.value depth)) := he.1 _

instance (stop : List TokenKind) (start : Nat) : @Extends Block (self' (.block depth stop start))
    (self (.block depth stop start)) := he.1 _

instance (m : String) : Extends (required self' depth m) (required self depth m) := by
  unfold required
  refine .andThen inferInstance fun r => ?_
  cases r <;> infer_instance

instance : Extends (varRoot self' depth) (varRoot self depth) := by
  unfold varRoot
  dsimp only
  infer_instance

instance : Extends (varSuffix self' depth) (varSuffix self depth) := by
  unfold varSuffix
  dsimp only
  infer_instance

instance extends_varSuffixes (n : Nat) :
    Extends (varSuffixes self' depth n) (varSuffixes self depth n) := by
  induction n with
  | zero => unfold varSuffixes; infer_instance
  | succ n ih => unfold varSuffixes; infer_instance

instance : Extends (var self' depth) (var self depth) := by
  unfold var
  infer_instance

instance extends_arguments (before : Option Nat) (n : Nat) :
    Extends (arguments self' depth before n) (arguments self depth before n) := by
  induction n generalizing before with
  | zero => unfold arguments; infer_instance
  | succ n ih =>
    unfold arguments
    refine .andThen inferInstance fun c => ?_
    split
    · infer_instance
    refine .andThen inferInstance fun goes => ?_
    split
    · infer_instance
    refine .andThen inferInstance fun r => ?_
    cases r <;> infer_instance

instance (v : Var) : Extends (command self' depth v) (command self depth v) := by
  unfold command
  infer_instance

instance : Extends (call self' depth) (call self depth) := by
  unfold call
  dsimp only
  infer_instance

instance extends_operators (precedence chain : Nat) (left : Expression) (n : Nat) :
    Extends (operators self' depth precedence chain left n)
      (operators self depth precedence chain left n) := by
  induction n generalizing chain left with
  | zero => unfold operators; infer_instance
  | succ n ih =>
    unfold operators
    refine .andThen inferInstance fun c => ?_
    cases c.kind.precedence? <;> (dsimp only; infer_instance)

instance (precedence : Nat) (left : Expression) :
    Extends (operatorChain self' depth precedence left)
      (operatorChain self depth precedence left) := by
  unfold operatorChain
  infer_instance

instance (precedence : Nat) :
    Extends (expression self' depth precedence) (expression self depth precedence) := by
  unfold expression
  refine .andThen inferInstance fun r => ?_
  cases r <;> infer_instance

instance : Extends (value self' depth) (value self depth) := by
  unfold value
  infer_instance

instance : Extends (tableField self' depth) (tableField self depth) := by
  unfold tableField
  refine .andThen inferInstance fun c => ?_
  dsimp only
  split
  · infer_instance
  split
  · infer_instance
  · refine .andThen inferInstance fun r => ?_
    cases r <;> infer_instance

instance : Extends (items self' depth).read (items self depth).read :=
  extends_read (items self depth) (he.1 (.value depth))

instance : Extends (fields self' depth).read (fields self depth).read :=
  extends_read (fields self depth)
    (inferInstanceAs (Extends (tableField self' depth) (tableField self depth)))

instance : Extends (returned self' depth).read (returned self depth).read :=
  extends_read (returned self depth) (he.1 (.value depth))

instance : Extends (unary self' depth) (unary self depth) := by
  unfold unary
  dsimp only
  infer_instance

instance : Extends (group self' depth) (group self depth) := by
  unfold group
  dsimp only
  infer_instance

instance : Extends (vector self' depth) (vector self depth) := by
  unfold vector
  infer_instance

instance : Extends (table self' depth) (table self depth) := by
  unfold table
  infer_instance

section Limit

variable [hle : Fact (limit ≤ limit')]

instance : Extends (braced limit' self' depth) (braced limit self depth) := by
  unfold braced
  dsimp only
  infer_instance

instance : Extends (lambda limit' self' depth) (lambda limit self depth) := by
  unfold lambda
  infer_instance

instance (argument : Bool) :
    Extends (operand limit' self' depth argument) (operand limit self depth argument) := by
  unfold operand
  refine @Extends.guarded _ _ _ _ _ _ _ _ _ ?_
  refine .andThen inferInstance fun c => ?_
  split <;> infer_instance

instance (behind : Option Token) :
    Extends (requiredBlock limit' self' depth behind) (requiredBlock limit self depth behind) := by
  unfold requiredBlock
  infer_instance

instance : Extends (condition self' depth) (condition self depth) := by
  unfold condition
  infer_instance

instance : Extends (branch limit' self' depth) (branch limit self depth) := by
  unfold branch
  infer_instance

instance extends_elseIfs (n : Nat) :
    Extends (elseIfs limit' self' depth n) (elseIfs limit self depth n) := by
  induction n with
  | zero => unfold elseIfs; infer_instance
  | succ n ih => unfold elseIfs; dsimp only; infer_instance

instance : Extends (otherwise limit' self' depth) (otherwise limit self depth) := by
  unfold otherwise
  infer_instance

instance : Extends (conditional limit' self' depth) (conditional limit self depth) := by
  unfold conditional
  infer_instance

instance : Extends (whileLoop limit' self' depth) (whileLoop limit self depth) := by
  unfold whileLoop
  infer_instance

instance : Extends (forLoop self' depth) (forLoop self depth) := by
  unfold forLoop
  dsimp only
  infer_instance

instance : Extends (varStatement self' depth) (varStatement self depth) := by
  unfold varStatement
  dsimp only
  refine .andThen inferInstance fun start => .andThen inferInstance fun v => ?_
  refine .andThen inferInstance fun c => ?_
  split
  · refine .andThen inferInstance fun equals => ?_
    split <;> infer_instance
  · infer_instance

instance : Extends (statement limit' self' depth) (statement limit self depth) := by
  unfold statement
  refine .andThen inferInstance fun c => ?_
  split <;> infer_instance

instance : Extends (lastStatement self' depth) (lastStatement self depth) := by
  unfold lastStatement
  refine .andThen inferInstance fun t => ?_
  split <;> infer_instance

instance (stop : List TokenKind) :
    Extends (someStatements limit' self' depth stop) (someStatements limit self depth stop) := by
  unfold someStatements
  refine .andThen inferInstance fun c => ?_
  split
  · infer_instance
  · refine .andThen inferInstance fun r => ?_
    cases r <;> infer_instance

instance extends_statements (stop : List TokenKind) (before : Option Nat) (n : Nat) :
    Extends (statements limit' self' depth stop before n)
      (statements limit self depth stop before n) := by
  induction n generalizing before with
  | zero => unfold statements; infer_instance
  | succ n ih => unfold statements; infer_instance

instance (stop : List TokenKind) (start : Nat) :
    Extends (block limit' self' depth stop start) (block limit self depth stop start) := by
  unfold block
  dsimp only
  infer_instance

theorem extends_rule (n : Nonterminal) : Extends (rule limit' self' n) (rule limit self n) := by
  cases n with
  | operand d a =>
    exact inferInstanceAs (Extends (operand limit' self' d a) (operand limit self d a))
  | expression d p => exact inferInstanceAs (Extends (expression self' d p) (expression self d p))
  | value d => exact inferInstanceAs (Extends (value self' d) (value self d))
  | block d stop start =>
    exact inferInstanceAs
      (Extends (block limit' self' d stop start) (block limit self d stop start))

end Limit

end Rules

/-- **Under a larger limit is read what is read under a smaller one.** -/
instance extending_read (limit limit' budget : Nat) [Fact (limit ≤ limit')] :
    Extending (read limit' budget) (read limit budget) := by
  induction budget with
  | zero => exact ⟨fun n => by cases n <;> (unfold read; infer_instance)⟩
  | succ budget ih => exact ⟨fun n => extends_rule n⟩

instance (limit limit' : Nat) [Fact (limit ≤ limit')] : Extends (source limit') (source limit) := by
  unfold source readHere
  infer_instance

end Grammar

/-- **The limit on nesting is only a limit.** A text that is not nested too deeply for one
limit has the same tree, issues and tokens under every larger one. -/
theorem parse_of_limit_le (text : String) {limit limit' : Nat} (hle : limit ≤ limit')
    (hdeep : ∀ i ∈ (parse text limit).issues, i.code ≠ Issue.Kind.tooDeep.code) :
    parse text limit' = parse text limit := by
  have hfact : Fact (limit ≤ limit') := ⟨hle⟩
  have hextends : (Grammar.source limit').Extends (Grammar.source limit) := inferInstance
  by_cases hnil : (Cursor.ofTokens (Token.tokenize text)).upcoming = []
  · rw [parse_of_nil limit' hnil, parse_of_nil limit hnil]
  · rw [parse_of_ne_nil limit hnil] at hdeep ⊢
    rw [parse_of_ne_nil limit' hnil]
    obtain hfound | hsame := hextends.same (Cursor.ofTokens (Token.tokenize text))
    · obtain hstart | ⟨i, hi, hcode⟩ := (hextends.moves.onward _).deepFound hfound
      · cases hstart
      · have hissue := List.mem_append_right (Token.issues (Token.tokenize text))
          (List.mem_reverse.2 hi)
        exact absurd hcode (hdeep i (List.mem_mergeSort.2 hissue))
    · rw [hsame]

/-- There is just room for the operand that is missing here, so more room makes no
difference. -/
theorem parse_of_limit_le_missing :
    3 ≤ Limit.nesting ∧
      (∀ i ∈ (parse "x = [\x7ba = 1 +\x7d]" 3).issues, i.code ≠ Issue.Kind.tooDeep.code) ∧
      parse "x = [\x7ba = 1 +\x7d]" Limit.nesting = parse "x = [\x7ba = 1 +\x7d]" 3 := by
  have hdeep : ∀ i ∈ (parse "x = [\x7ba = 1 +\x7d]" 3).issues,
      i.code ≠ Issue.Kind.tooDeep.code := by decide +kernel
  exact ⟨by decide, hdeep, parse_of_limit_le "x = [\x7ba = 1 +\x7d]" (by decide) hdeep⟩

/-- With room for one level less it is the nesting that is reported. -/
example : (parse "x = [\x7ba = 1 +" 2).issues.any (·.code == Issue.Kind.tooDeep.code) = true := by
  decide +kernel

end CommandScript
