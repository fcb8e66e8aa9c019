import CommandScript.Proofs.Progress
/-!
# CommandScript — what no step of the parser takes back

Whatever a step does, what was reported stays reported, a parser that found no way on has
found none, nothing comes back that was read, and the end of the text stays where it is.
That is so from any cursor and under any budget, so it is a matter of how a step is put
together, and instances find it (`Parse.Moves`).
-/

namespace CommandScript

variable {α β : Type}

namespace Issue

/-- The grammar raises issues of this kind. -/
class Kind.OfParser (k : Kind) : Prop where
  category : k.category = "parser"

instance : Kind.OfParser .expectedToken := ⟨rfl⟩

instance : Kind.OfParser .expectedExpression := ⟨rfl⟩

instance : Kind.OfParser .unexpectedToken := ⟨rfl⟩

instance : Kind.OfParser .missingSeparator := ⟨rfl⟩

instance : Kind.OfParser .unreachableStatement := ⟨rfl⟩

instance : Kind.OfParser .invalidAssignment := ⟨rfl⟩

instance : Kind.OfParser .tooDeep := ⟨rfl⟩

/-- The issue is one that the grammar raises. -/
class OfParser (i : Issue) : Prop where
  kind : ∃ k : Kind, k.category = "parser" ∧ i.code = k.code

instance (k : Kind) (span : Span) (message : String) [h : k.OfParser] :
    OfParser (.raise k span message) := ⟨k, h.category, rfl⟩

instance (k : Kind) (span : Span) [h : k.OfParser] : OfParser (.of k span) := ⟨k, h.category, rfl⟩

end Issue

/-- What a cursor keeps on its way, wherever it comes from. -/
structure Cursor.Onward (c d : Cursor) : Prop where
  found : c.found <:+ d.found
  raised : ∀ i ∈ d.found, i ∈ c.found ∨ i.OfParser
  deep : c.deepReported = true → d.deepReported = true
  /-- Nesting is not said to be too deep without an issue that says so. -/
  deepFound : d.deepReported = true → c.deepReported = true ∨ d.TooDeep
  stalled : c.stalled = true → d.stalled = true
  spent : c.upcoming = [] → d.upcoming = []
  last : c.last.isSome = true → d.last.isSome = true
  ending : d.ending = c.ending

namespace Cursor.Onward

variable {c d e : Cursor} {ts : List Token}

theorem refl (c : Cursor) : c.Onward c :=
  ⟨List.suffix_rfl, fun _ => .inl, id, .inl, id, id, id, rfl⟩

theorem trans (h : c.Onward d) (h' : d.Onward e) : c.Onward e where
  found := h.found.trans h'.found
  raised i hi := (h'.raised i hi).elim (h.raised i) .inr
  deep := h'.deep ∘ h.deep
  deepFound hdeep := by
    obtain hd | he := h'.deepFound hdeep
    · exact (h.deepFound hd).imp_right (·.later h'.found)
    · exact .inr he
  stalled := h'.stalled ∘ h.stalled
  spent := h'.spent ∘ h.spent
  last := h'.last ∘ h.last
  ending := h'.ending.trans h.ending

theorem told (h : c.Onward d) (hc : c.Told) : d.Told := hc.later h.found h.deep

theorem of_moved (h : c.Moved ts d) (hraised : ∀ i ∈ d.found, i ∈ c.found ∨ i.OfParser) :
    c.Onward d where
  found := h.found
  raised := hraised
  deep := h.deep
  deepFound := h.deepFound
  stalled hc := h.stalled.trans hc
  spent hc := by
    have hboth := h.upcoming
    rw [hc] at hboth
    exact (List.append_eq_nil_iff.1 hboth.symm).2
  last hc := by
    rw [h.last]
    cases ts.getLast? with
    | none => exact hc
    | some t => rfl
  ending := h.ending

end Cursor.Onward

namespace Parse

/-- A step takes nothing back. -/
class Moves (p : Parse α) : Prop where
  onward : ∀ c : Cursor, c.Onward (p c).2

instance (a : α) : Moves (pure a : Parse α) := ⟨.refl⟩

instance : Moves (get : Parse Cursor) := ⟨.refl⟩

instance Moves.bind (p : Parse α) (f : α → Parse β) [h : Moves p] [hf : ∀ a, Moves (f a)] :
    Moves (p >>= f) :=
  ⟨fun c => (h.onward c).trans ((hf _).onward _)⟩

instance (f : α → β) (p : Parse α) [h : Moves p] : Moves (f <$> p) := ⟨h.onward⟩

instance (P : Prop) [Decidable P] (p q : Parse α) [hp : Moves p] [hq : Moves q] :
    Moves (if P then p else q) := by
  split
  · exact hp
  · exact hq

instance : Moves bump := ⟨fun c => by
  cases h : c.upcoming with
  | nil =>
    simp only [Parse.bump, modifyGet, MonadStateOf.modifyGet, StateT.modifyGet, h]
    exact .refl c
  | cons t rest =>
    have hmoved : c.Moved [t] { c with upcoming := rest, last := some t } :=
      ⟨h, rfl, rfl, List.suffix_rfl, rfl, id, .inl⟩
    simp only [Parse.bump, modifyGet, MonadStateOf.modifyGet, StateT.modifyGet, h]
    exact .of_moved hmoved fun _ => .inl⟩

instance (q : Token → Bool) : Moves (bumpWhile q) := ⟨fun c =>
  .of_moved (moved_bumpWhile q c) fun _ => .inl⟩

instance (start : Nat) : Moves (spanFrom start) := ⟨.refl⟩

instance (k : TokenKind) : Moves (eat k) := by
  unfold Parse.eat
  infer_instance

instance : Moves stall :=
  ⟨fun _ => ⟨List.suffix_rfl, fun _ => .inl, id, .inl, fun _ => rfl, id, id, rfl⟩⟩

/-- A change that reports something is one step on. -/
theorem onward_cons {c d : Cursor} {i : Issue} (h : c.Moved [] d) (hfound : d.found = i :: c.found)
    (hi : i.OfParser) : c.Onward d := by
  refine .of_moved h fun j hj => ?_
  rw [hfound] at hj
  obtain rfl | hj := List.mem_cons.1 hj
  · exact .inr hi
  · exact .inl hj

instance (i : Issue) [hi : i.OfParser] : Moves (report i) := ⟨fun c => by
  rw [report_eq]
  split
  · exact .refl c
  · exact onward_cons (moved_found i c) rfl hi⟩

instance (k : Issue.Kind) (message : String) [k.OfParser] : Moves (reportHere k message) := by
  unfold Parse.reportHere
  infer_instance

instance : Moves reportTooDeep := ⟨fun c => by
  unfold Parse.reportTooDeep
  rw [modify_snd]
  split
  · exact .refl c
  · exact onward_cons (moved_foundTooDeep c) rfl inferInstance⟩

instance (k : TokenKind) (opener : Option Token) : Moves (expect k opener) := by
  unfold Parse.expect
  refine @Moves.bind _ _ _ _ _ fun r => ?_
  cases r <;> infer_instance

instance (before : Option Nat) : Moves (progressed before) := by
  unfold Parse.progressed
  refine @Moves.bind _ _ _ _ _ fun c => ?_
  cases before <;> infer_instance

instance (r : Recovery) : Moves r.skip := by
  unfold Recovery.skip
  infer_instance

instance : Moves tooDeep := by
  unfold Parse.tooDeep
  infer_instance

/-- A step that looks at the cursor first. -/
theorem Moves.get_bind {f : Cursor → Parse β} (h : ∀ c : Cursor, c.Onward (f c c).2) :
    Moves (get >>= f) := ⟨h⟩

/-- Tokens up to where a block stops are passed over and reported. -/
instance (stop : List TokenKind) : Moves (do
    let c ← get
    let run := balancedRun stop 0 c.upcoming
    if run.isEmpty then pure ()
    else
      set { c with upcoming := c.upcoming.drop run.length, last := run.getLast? }
      report (.of .unreachableStatement (← spanFrom c.offset)) : Parse Unit) := by
  refine .get_bind fun c => ?_
  by_cases h : (balancedRun stop 0 c.upcoming).isEmpty
  · rw [if_pos h]
    exact .refl c
  · rw [if_neg h]
    exact .trans (.of_moved (moved_balancedRun h) fun _ => .inl)
      ((inferInstance : Moves (report _)).onward _)

instance (stop : List TokenKind) : Moves (skipUnreachable stop) := by
  unfold Parse.skipUnreachable
  infer_instance

end Parse

/-! ## The rules of the grammar -/

namespace Grammar

open Parse

/-- Whatever is asked for, nothing is taken back. -/
class Forward (rules : (n : Nonterminal) → Parse n.Result) : Prop where
  moves : ∀ n, Moves (rules n)

-- A rule is a long term, and the search goes through all of it.
set_option synthInstance.maxSize 2000

instance moves_rounds {l : Listing α} [Moves l.element] (before : Option Nat) (n : Nat) :
    Moves (l.rounds before n) := by
  induction n generalizing before with
  | zero => unfold Listing.rounds; infer_instance
  | succ n ih =>
    unfold Listing.rounds
    dsimp only
    infer_instance

instance {l : Listing α} [Moves l.element] : Moves l.read := by
  unfold Listing.read
  infer_instance

instance : Moves parameters.element := inferInstanceAs (Moves (eat .identifier))

section Rules

variable {limit depth : Nat} {self : (n : Nonterminal) → Parse n.Result} [hf : Forward self]

instance (argument : Bool) : @Moves (Option Expression) (self (.operand depth argument)) := hf.1 _

instance (precedence : Nat) : @Moves (Option Expression) (self (.expression depth precedence)) :=
  hf.1 _

instance : @Moves (Option Expression) (self (.value depth)) := hf.1 _

instance (stop : List TokenKind) (start : Nat) : @Moves Block (self (.block depth stop start)) :=
  hf.1 _

instance (m : String) : Moves (required self depth m) := by
  unfold required
  refine @Moves.bind _ _ _ _ _ fun r => ?_
  cases r <;> infer_instance

instance : Moves (varRoot self depth) := by
  unfold varRoot
  dsimp only
  infer_instance

instance : Moves (varSuffix self depth) := by
  unfold varSuffix
  dsimp only
  infer_instance

instance moves_varSuffixes (n : Nat) : Moves (varSuffixes self depth n) := by
  induction n with
  | zero => unfold varSuffixes; infer_instance
  | succ n ih => unfold varSuffixes; infer_instance

instance : Moves (var self depth) := by
  unfold var
  infer_instance

instance moves_arguments (before : Option Nat) (n : Nat) :
    Moves (arguments self depth before n) := by
  induction n generalizing before with
  | zero => unfold arguments; infer_instance
  | succ n ih =>
    unfold arguments
    refine @Moves.bind _ _ _ _ _ fun c => ?_
    split
    · infer_instance
    refine @Moves.bind _ _ _ _ _ fun goes => ?_
    split
    · infer_instance
    refine @Moves.bind _ _ _ _ _ fun r => ?_
    cases r <;> infer_instance

instance (v : Var) : Moves (command self depth v) := by
  unfold command
  infer_instance

instance : Moves (call self depth) := by
  unfold call
  dsimp only
  infer_instance

instance moves_operators (precedence chain : Nat) (left : Expression) (n : Nat) :
    Moves (operators self depth precedence chain left n) := by
  induction n generalizing chain left with
  | zero => unfold operators; infer_instance
  | succ n ih =>
    unfold operators
    refine @Moves.bind _ _ _ _ _ fun c => ?_
    cases c.kind.precedence? <;> (dsimp only; infer_instance)

instance (precedence : Nat) (left : Expression) :
    Moves (operatorChain self depth precedence left) := by
  unfold operatorChain
  infer_instance

instance (precedence : Nat) : Moves (expression self depth precedence) := by
  unfold expression
  refine @Moves.bind _ _ _ _ _ fun r => ?_
  cases r <;> infer_instance

instance : Moves (value self depth) := by
  unfold value
  infer_instance

instance : Moves (braced limit self depth) := by
  unfold braced
  dsimp only
  infer_instance

instance : Moves (tableField self depth) := by
  unfold tableField
  refine @Moves.bind _ _ _ _ _ fun c => ?_
  dsimp only
  split
  · infer_instance
  split
  · infer_instance
  · refine @Moves.bind _ _ _ _ _ fun r => ?_
    cases r <;> infer_instance

instance : Moves (items self depth).element := inferInstanceAs (Moves (self (.value depth)))

instance : Moves (fields self depth).element := inferInstanceAs (Moves (tableField self depth))

instance : Moves (returned self depth).element := inferInstanceAs (Moves (self (.value depth)))

instance : Moves (unary self depth) := by
  unfold unary
  dsimp only
  infer_instance

instance : Moves (group self depth) := by
  unfold group
  dsimp only
  infer_instance

instance : Moves (vector self depth) := by
  unfold vector
  infer_instance

instance : Moves (table self depth) := by
  unfold table
  infer_instance

instance : Moves (lambda limit self depth) := by
  unfold lambda
  infer_instance

instance (argument : Bool) : Moves (operand limit self depth argument) := by
  unfold operand
  split
  · infer_instance
  · refine @Moves.bind _ _ _ _ _ fun c => ?_
    split <;> infer_instance

instance (behind : Option Token) : Moves (requiredBlock limit self depth behind) := by
  unfold requiredBlock
  infer_instance

instance : Moves (condition self depth) := by
  unfold condition
  infer_instance

instance : Moves (branch limit self depth) := by
  unfold branch
  infer_instance

instance moves_elseIfs (n : Nat) : Moves (elseIfs limit self depth n) := by
  induction n with
  | zero => unfold elseIfs; infer_instance
  | succ n ih => unfold elseIfs; dsimp only; infer_instance

instance : Moves (otherwise limit self depth) := by
  unfold otherwise
  infer_instance

instance : Moves (conditional limit self depth) := by
  unfold conditional
  infer_instance

instance : Moves (whileLoop limit self depth) := by
  unfold whileLoop
  infer_instance

instance : Moves (forLoop self depth) := by
  unfold forLoop
  dsimp only
  infer_instance

instance : Moves (varStatement self depth) := by
  unfold varStatement
  dsimp only
  refine @Moves.bind _ _ _ _ _ fun start => @Moves.bind _ _ _ _ _ fun v =>
    @Moves.bind _ _ _ _ _ fun c => ?_
  split
  · refine @Moves.bind _ _ _ _ _ fun equals => ?_
    split <;> infer_instance
  · infer_instance

instance : Moves (statement limit self depth) := by
  unfold statement
  refine @Moves.bind _ _ _ _ _ fun c => ?_
  split <;> infer_instance

instance : Moves (lastStatement self depth) := by
  unfold lastStatement
  refine @Moves.bind _ _ _ _ _ fun t => ?_
  split <;> infer_instance

instance (stop : List TokenKind) (context : String) : Moves (recover stop context) := by
  unfold recover
  refine @Moves.bind _ _ _ _ _ fun c => @Moves.bind _ _ _ _ _ fun r => ?_
  cases r <;> infer_instance

instance (stop : List TokenKind) : Moves (someStatements limit self depth stop) := by
  have hbehind (r : Option Statement) : Moves (match r with
      | none => recover stop "expected a statement"
      | some s => do
        let now ← get
        if endsStatement now || endsWithBrace now s then return [s]
        return s :: (← recover stop "after statement")) := by
    cases r <;> infer_instance
  unfold someStatements
  infer_instance

instance moves_statements (stop : List TokenKind) (before : Option Nat) (n : Nat) :
    Moves (statements limit self depth stop before n) := by
  induction n generalizing before with
  | zero => unfold statements; infer_instance
  | succ n ih => unfold statements; infer_instance

instance (stop : List TokenKind) (start : Nat) : Moves (block limit self depth stop start) := by
  unfold block
  dsimp only
  infer_instance

theorem moves_rule (n : Nonterminal) : Moves (rule limit self n) := by
  cases n with
  | operand d a => exact inferInstanceAs (Moves (operand limit self d a))
  | expression d p => exact inferInstanceAs (Moves (expression self d p))
  | value d => exact inferInstanceAs (Moves (value self d))
  | block d stop start => exact inferInstanceAs (Moves (block limit self d stop start))

end Rules

/-- Reading takes nothing back. -/
instance forward_read (limit budget : Nat) : Forward (read limit budget) := by
  induction budget with
  | zero => exact ⟨fun n => by cases n <;> (unfold read; infer_instance)⟩
  | succ budget ih => exact ⟨fun n => by cases n <;> exact moves_rule _⟩

instance (limit : Nat) : Moves (source limit) := by
  unfold source readHere
  infer_instance

end Grammar

/-! ## The issues of a text -/

theorem Token.category_of_issue? {t : Token} {i : Issue} (h : t.issue? = some i) :
    ∃ k : Issue.Kind, k.category = "lexer" ∧ i.code = k.code := by
  unfold Token.issue? at h
  split at h
  · cases h
    exact ⟨.invalidCharacter, rfl, rfl⟩
  · split at h
    · cases h
      exact ⟨.unterminatedString, rfl, rfl⟩
    · cases h

/-- **What reading a text reports** is a matter of its lexemes or of the grammar. -/
theorem exists_kind_of_mem_issues {text : String} {limit : Nat} {i : Issue}
    (hi : i ∈ (parse text limit).issues) :
    ∃ k : Issue.Kind, (k.category = "lexer" ∨ k.category = "parser") ∧ i.code = k.code := by
  have htoken : i ∈ Token.issues (Token.tokenize text) →
      ∃ k : Issue.Kind, (k.category = "lexer" ∨ k.category = "parser") ∧ i.code = k.code := by
    intro hi
    obtain ⟨t, -, ht⟩ := List.mem_filterMap.1 hi
    obtain ⟨k, hk, hcode⟩ := Token.category_of_issue? ht
    exact ⟨k, .inl hk, hcode⟩
  unfold parse at hi
  dsimp only at hi
  split at hi
  · exact htoken (List.mem_mergeSort.1 hi)
  · obtain hi | hi := List.mem_append.1 (List.mem_mergeSort.1 hi)
    · exact htoken hi
    · have hmoves : Parse.Moves (Grammar.source limit) := inferInstance
      have honward := hmoves.onward (Cursor.ofTokens (Token.tokenize text))
      obtain hstart | ⟨k, hk, hcode⟩ := honward.raised i (List.mem_reverse.1 hi)
      · cases hstart
      · exact ⟨k, .inr hk, hcode⟩

end CommandScript
