import CommandScript.Parser.Basic
/-!
# CommandScript — how deep brackets nest

`Nesting` counts how many pairs of brackets lie around one another on the way from the
root of a tree to a leaf: parentheses, square brackets, braces, and the bars around
parameters. The brackets in the callee of a call behind `&` are counted with a weight of
their own.

Operands and braces count against the limit of the parser, and they lie around all
brackets but those. So with weight 0 for callees behind `&`, the limit bounds how deep
any text nests (`Parsed.nesting_le`).
-/

namespace CommandScript

namespace Nesting

/-- What a pair of brackets of a chain counts. -/
def weight (bracket callee : Nat) (called : Bool) : Nat := if called then callee else bracket

section

variable (bracket callee : Nat)

mutual

/-- How many pairs of brackets an expression nests. -/
def expression : Expression → Nat
  | .nil _ | .boolean _ | .number _ | .string _ | .skipped _ => 0
  | .binary l _ r _ => max (expression l) (optional r)
  | .unary _ v _ => optional v
  | .vector _ is _ => items is + bracket
  | .table _ fs _ => fields fs + bracket
  | .lambda b => body b
  | .group _ i _ => optional i + bracket
  | .var v => chain false v
  | .call c => call c

def optional : Option Expression → Nat
  | none => 0
  | some e => expression e

def item : SeparatedItem Expression → Nat
  | ⟨v, _, _⟩ => optional v

def items : List (SeparatedItem Expression) → Nat
  | [] => 0
  | i :: rest => max (item i) (items rest)

def field : TableField → Nat
  | .named _ _ v _ => optional v
  | .keyed _ k _ v _ => max (optional k + bracket) (optional v)
  | .positional v _ => expression v

def optionalField : Option TableField → Nat
  | none => 0
  | some f => field f

def fieldItem : SeparatedItem TableField → Nat
  | ⟨v, _, _⟩ => optionalField v

def fields : List (SeparatedItem TableField) → Nat
  | [] => 0
  | i :: rest => max (fieldItem i) (fields rest)

/-- A lambda: the bars around its parameters, and its block. -/
def body : FunctionBody → Nat
  | .mk _ _ b _ => max bracket (optionalBraced b)

/-- The begin of a chain, which may be that of a callee behind `&`. -/
def root (called : Bool) : VarRoot → Nat
  | .bare _ | .named .. => 0
  | .computed _ _ i _ => optional i + weight bracket callee called

def suffix (called : Bool) : VarSuffix → Nat
  | .field .. => 0
  | .index _ _ i _ => optional i + weight bracket callee called

def suffixes (called : Bool) : List VarSuffix → Nat
  | [] => 0
  | s :: rest => max (suffix called s) (suffixes called rest)

def chain (called : Bool) : Var → Nat
  | .mk r ss _ => max (root called r) (suffixes called ss)

def arguments : List Expression → Nat
  | [] => 0
  | e :: rest => max (expression e) (arguments rest)

def command (called : Bool) : Command → Nat
  | .mk v as _ => max (chain called v) (arguments as)

def optionalCommand (called : Bool) : Option Command → Nat
  | none => 0
  | some c => command called c

def call : Call → Nat
  | .mk _ c _ => optionalCommand true c

def statement : Statement → Nat
  | .command c => command false c
  | .call c => call c
  | .expression e => expression e
  | .assign v _ e _ => max (chain false v) (optional e)
  | .conditional _ f es o _ => max (branch f) (max (elseIfs es) (optionalOtherwise o))
  | .whileLoop _ c b _ => max (optionalCondition c) (optionalBraced b)
  | .forLoop _ c b _ => max (optionalCondition c) (optional b)
  | .skipped _ => 0

def statements : List Statement → Nat
  | [] => 0
  | s :: rest => max (statement s) (statements rest)

def condition : Condition → Nat
  | .mk _ i => optional i + bracket

def optionalCondition : Option Condition → Nat
  | none => 0
  | some c => condition c

def branch : Branch → Nat
  | .mk c b _ => max (optionalCondition c) (optionalBraced b)

def elseIf : ElseIf → Nat
  | .mk _ b _ => branch b

def elseIfs : List ElseIf → Nat
  | [] => 0
  | e :: rest => max (elseIf e) (elseIfs rest)

def otherwise : Otherwise → Nat
  | .mk _ b _ => optionalBraced b

def optionalOtherwise : Option Otherwise → Nat
  | none => 0
  | some o => otherwise o

def braced : Braced → Nat
  | .mk _ b => block b + bracket

def optionalBraced : Option Braced → Nat
  | none => 0
  | some b => braced b

def last : LastStatement → Nat
  | .continue _ | .break _ => 0
  | .return _ vs _ => items vs

def optionalLast : Option LastStatement → Nat
  | none => 0
  | some l => last l

/-- How many pairs of brackets a block nests. -/
def block : Block → Nat
  | .mk ss l _ => max (statements ss) (optionalLast l)

end

end

/-- A measure is no larger than `n`, but for what the brackets in callees behind `&` add. -/
def Bounded (n : Nat) (measure : Nat → Nat → Nat) : Prop := measure 1 1 ≤ n + measure 0 1

namespace Bounded

variable {n m : Nat} {f g : Nat → Nat → Nat}

theorem zero (n : Nat) : Bounded n fun _ _ => 0 := Nat.zero_le _

theorem mono (h : Bounded n f) (hnm : n ≤ m) : Bounded m f :=
  Nat.le_trans h (Nat.add_le_add_right hnm _)

theorem max (hf : Bounded n f) (hg : Bounded n g) :
    Bounded n fun a b => Max.max (f a b) (g a b) := by
  change Max.max (f 1 1) (g 1 1) ≤ n + Max.max (f 0 1) (g 0 1)
  have hf : f 1 1 ≤ n + f 0 1 := hf
  have hg : g 1 1 ≤ n + g 0 1 := hg
  omega

/-- One more pair of brackets. -/
theorem bracket (h : Bounded n f) : Bounded (n + 1) fun a b => f a b + a := by
  change f 1 1 + 1 ≤ n + 1 + (f 0 1 + 0)
  have h : f 1 1 ≤ n + f 0 1 := h
  omega

/-- What a pair of brackets of a chain adds to the bound: nothing in a callee. -/
def cost (called : Bool) : Nat := if called then 0 else 1

/-- One more pair of brackets of a chain. -/
theorem step (h : Bounded n f) (called : Bool) :
    Bounded (n + cost called) fun a b => f a b + weight a b called := by
  cases called with
  | false => exact h.bracket
  | true =>
    change f 1 1 + 1 ≤ n + 0 + (f 0 1 + 1)
    have h : f 1 1 ≤ n + f 0 1 := h
    omega

end Bounded

end Nesting

/-- How many pairs of brackets the tree of a text nests, with a weight for those in the
callee of a call behind `&` and one for all others. -/
def Parsed.nesting (bracket callee : Nat) (p : Parsed) : Nat :=
  p.block.elim 0 (Nesting.block bracket callee)

/-! ## What a step gives -/

namespace Parse

variable {α β : Type} {p : Parse α} {f : α → Parse β} {P P' : α → Prop} {R : β → Prop}

/-- A step gives nothing but what satisfies `P`, wherever the cursor is. -/
def Only (p : Parse α) (P : α → Prop) : Prop := ∀ c, P (p c).1

namespace Only

theorem imp (h : p.Only P) (hP : ∀ a, P a → P' a) : p.Only P' := fun c => hP _ (h c)

theorem bind (h : p.Only P) (hf : ∀ a, P a → (f a).Only R) : (p >>= f).Only R := fun _ =>
  hf _ (h _) _

theorem pure {a : α} (h : P a) : (Pure.pure a : Parse α).Only P := fun _ => h

theorem map {f : α → β} (h : p.Only fun a => R (f a)) : (f <$> p).Only R := h

/-- Nothing need be known of what the first of two steps gives. -/
theorem seq (hf : ∀ a, (f a).Only R) : (p >>= f).Only R := fun _ => hf _ _

end Only

end Parse

namespace Grammar

open Parse

variable {limit depth : Nat} {self : (n : Nonterminal) → Parse n.Result} {weight bound : Nat}

/-- How deep brackets may nest in what an operand at some depth has inside. A table is the
one operand with two pairs around what is in it: its braces, and the brackets of a key. -/
def room (limit depth : Nat) : Nat := 2 * (limit + 1 - depth)

theorem room_mono {deeper : Nat} (h : depth ≤ deeper) : room limit deeper ≤ room limit depth := by
  unfold room
  omega

theorem room_succ (h : ¬limit < depth) : room limit depth = room limit (depth + 1) + 2 := by
  unfold room
  omega

/-- What is read for a nonterminal nests no deeper than there is room. -/
def Fits (limit : Nat) : (n : Nonterminal) → n.Result → Prop
  | .operand depth _, r | .expression depth _, r | .value depth, r =>
    Nesting.Bounded (room limit depth) (Nesting.optional · · r)
  | .block depth _ _, b => Nesting.Bounded (room limit depth + 1) (Nesting.block · · b)

theorem items_le {is : Separated Expression} (h : ∀ i ∈ is, ∀ e ∈ i.value, Nesting.Bounded bound (Nesting.expression · · e)) :
    Nesting.Bounded bound (Nesting.items · · is) := by
  induction is with
  | nil => exact .zero _
  | cons i rest ih =>
    obtain ⟨v, separator, span⟩ := i
    have hfirst : Nesting.Bounded bound (Nesting.optional · · v) := by
      cases v with
      | none => exact .zero _
      | some e => exact h _ List.mem_cons_self e rfl
    have hrest := ih fun i hi => h i (List.mem_cons_of_mem _ hi)
    exact .max hfirst hrest

theorem fields_le {fs : Separated TableField} (h : ∀ i ∈ fs, ∀ f ∈ i.value, Nesting.Bounded bound (Nesting.field · · f)) :
    Nesting.Bounded bound (Nesting.fields · · fs) := by
  induction fs with
  | nil => exact .zero _
  | cons i rest ih =>
    obtain ⟨v, separator, span⟩ := i
    have hfirst : Nesting.Bounded bound (Nesting.optionalField · · v) := by
      cases v with
      | none => exact .zero _
      | some f => exact h _ List.mem_cons_self f rfl
    have hrest := ih fun i hi => h i (List.mem_cons_of_mem _ hi)
    exact .max hfirst hrest

theorem statements_append (bracket callee : Nat) (ss rest : List Statement) :
    Nesting.statements bracket callee (ss ++ rest) =
      max (Nesting.statements bracket callee ss) (Nesting.statements bracket callee rest) := by
  induction ss with
  | nil => exact (Nat.zero_max _).symm
  | cons s ss ih => rw [List.cons_append, Nesting.statements, Nesting.statements, ih, Nat.max_assoc]

/-- The elements of a list are what the rule of its elements gives. -/
theorem only_rounds {α : Type} {l : Listing α} {P : α → Prop}
    (h : l.element.Only fun r => ∀ a ∈ r, P a) (before : Option Nat) (n : Nat) :
    (l.rounds before n).Only fun items => ∀ i ∈ items, ∀ a ∈ i.value, P a := by
  have hnil : ∀ i ∈ ([] : Separated α), ∀ a ∈ i.value, P a := fun i hi =>
    absurd hi List.not_mem_nil
  induction n generalizing before with
  | zero => exact Only.seq fun _ => Only.pure hnil
  | succ n ih =>
    unfold Listing.rounds
    refine Only.seq fun c => ?_
    split
    · exact Only.pure hnil
    refine Only.seq fun goes => ?_
    split
    · exact Only.pure hnil
    extract_lets withValue
    have hvalue : ∀ r, (∀ a ∈ r, P a) →
        (withValue r).Only fun items => ∀ i ∈ items, ∀ a ∈ i.value, P a := by
      intro r hr
      dsimp -zeta only [withValue]
      extract_lets withComma
      have hcomma : (withComma ()).Only fun items => ∀ i ∈ items, ∀ a ∈ i.value, P a := by
        dsimp -zeta only [withComma]
        refine Only.seq fun separator => Only.seq fun span => ?_
        extract_lets item
        have hitem : ∀ {rest}, (∀ i ∈ rest, ∀ a ∈ i.value, P a) →
            ∀ i ∈ item :: rest, ∀ a ∈ i.value, P a := fun hrest =>
          List.forall_mem_cons.2 ⟨hr, hrest⟩
        have hmore : (do return item :: (← l.rounds (some c.offset) n) :
            Parse (Separated α)).Only fun items => ∀ i ∈ items, ∀ a ∈ i.value, P a :=
          (ih _).bind fun rest hrest => Only.pure (hitem hrest)
        refine Only.seq fun now => ?_
        split
        · split
          · exact Only.pure (hitem hnil)
          · exact Only.seq fun _ => hmore
        · exact hmore
      split
      · refine Only.seq fun now => ?_
        split
        · exact Only.pure hnil
        · exact Only.seq fun _ => hcomma
      · exact hcomma
    split
    · exact h.bind hvalue
    · exact hvalue none fun a ha => absurd ha (Option.not_mem_none a)

theorem only_read {α : Type} {l : Listing α} {P : α → Prop}
    (h : l.element.Only fun r => ∀ a ∈ r, P a) :
    l.read.Only fun items => ∀ i ∈ items, ∀ a ∈ i.value, P a :=
  Only.seq fun _ => only_rounds h _ _

section Rules

variable (hself : ∀ n, (self n).Only (Fits limit n))
include hself

theorem only_required {message : String} :
    (required self depth message).Only fun r => Nesting.Bounded (room limit depth) (Nesting.optional · · r) := by
  refine (hself (.value depth)).bind fun r hr => ?_
  cases r with
  | some e => exact Only.pure hr
  | none => exact Only.seq fun _ => Only.pure (.zero _)

/-! ### Variables and commands -/

theorem only_varRoot (called : Bool) :
    (varRoot self depth).Only fun r => Nesting.Bounded (room limit depth + Nesting.Bounded.cost called) (Nesting.root · · called r) := by
  refine Only.seq fun c => ?_
  split
  · exact Only.seq fun t => Only.pure (.zero _)
  refine Only.seq fun dollar => Only.seq fun c => ?_
  split
  · exact Only.seq fun name => Only.seq fun span => Only.pure (.zero _)
  split
  · refine Only.seq fun left => (only_required hself).bind fun inner hinner => ?_
    refine Only.seq fun right => Only.seq fun span => Only.pure ?_
    exact hinner.step called
  · exact Only.seq fun _ => Only.seq fun span => Only.pure (.zero _)

theorem only_varSuffix (called : Bool) :
    (varSuffix self depth).Only fun s => Nesting.Bounded (room limit depth + Nesting.Bounded.cost called) (Nesting.suffix · · called s) := by
  refine Only.seq fun period => Only.seq fun c => ?_
  split
  · exact Only.seq fun name => Only.seq fun span => Only.pure (.zero _)
  split
  · refine Only.seq fun left => (only_required hself).bind fun inner hinner => ?_
    refine Only.seq fun right => Only.seq fun span => Only.pure ?_
    exact hinner.step called
  · exact Only.seq fun _ => Only.seq fun span => Only.pure (.zero _)

theorem only_varSuffixes (called : Bool) (n : Nat) :
    (varSuffixes self depth n).Only fun ss => Nesting.Bounded (room limit depth + Nesting.Bounded.cost called) (Nesting.suffixes · · called ss) := by
  induction n with
  | zero => exact Only.seq fun _ => Only.pure (.zero _)
  | succ n ih =>
    refine Only.seq fun c => ?_
    split
    · refine (only_varSuffix hself called).bind fun s hs => ih.bind fun ss hss => Only.pure ?_
      exact .max hs hss
    · exact Only.pure (.zero _)

theorem only_var (called : Bool) :
    (var self depth).Only fun v => Nesting.Bounded (room limit depth + Nesting.Bounded.cost called) (Nesting.chain · · called v) := by
  refine Only.seq fun c => (only_varRoot hself called).bind fun r hr => Only.seq fun c => ?_
  refine (only_varSuffixes hself called _).bind fun ss hss => Only.seq fun span => Only.pure ?_
  exact .max hr hss

theorem only_arguments (before : Option Nat) (n : Nat) :
    (Grammar.arguments self depth before n).Only fun es =>
      Nesting.Bounded (room limit depth) (Nesting.arguments · · es) := by
  induction n generalizing before with
  | zero => exact Only.seq fun _ => Only.pure (.zero _)
  | succ n ih =>
    refine Only.seq fun c => ?_
    split
    · exact Only.pure (.zero _)
    refine Only.seq fun goes => ?_
    split
    · exact Only.pure (.zero _)
    refine (hself (.operand depth true)).bind fun r hr => ?_
    cases r with
    | none => exact Only.pure (.zero _)
    | some e => exact (ih _).bind fun es hes => Only.pure (.max hr hes)

theorem only_command {v : Var} (hv : Nesting.Bounded (room limit depth + Nesting.Bounded.cost called) (Nesting.chain · · called v)) :
    (Grammar.command self depth v).Only fun k =>
      Nesting.Bounded (room limit depth + Nesting.Bounded.cost called) (Nesting.command · · called k) := by
  refine Only.seq fun c => (only_arguments hself _ _).bind fun es hes => Only.seq fun span => ?_
  exact Only.pure (.max hv (hes.mono (Nat.le_add_right _ _)))

/-- The callee behind `&` stands at no greater depth than the `&` itself. -/
theorem only_call : (Grammar.call self depth).Only fun k => Nesting.Bounded (room limit depth) (Nesting.call · · k) := by
  refine Only.seq fun ampersand => Only.seq fun c => ?_
  extract_lets withCommand
  have hcommand : ∀ r, Nesting.Bounded (room limit depth) (Nesting.optionalCommand · · true r) →
      (withCommand r).Only fun k => Nesting.Bounded (room limit depth) (Nesting.call · · k) := fun r hr =>
    Only.seq fun span => Only.pure hr
  split
  · refine Only.bind (P := fun r => Nesting.Bounded (room limit depth) (Nesting.optionalCommand · · true r)) (Only.map ?_) hcommand
    exact (only_var hself true).bind fun v hv => only_command hself hv
  · exact Only.seq fun _ => hcommand none (.zero _)

/-! ### Expressions -/

theorem only_operators {precedence : Nat} (hbound : room limit depth ≤ bound) (joined n : Nat)
    {left : Expression} (hleft : Nesting.Bounded bound (Nesting.expression · · left)) :
    (operators self depth precedence joined left n).Only fun e =>
      Nesting.Bounded bound (Nesting.expression · · e) := by
  induction n generalizing joined left with
  | zero => exact Only.seq fun _ => Only.pure hleft
  | succ n ih =>
    refine Only.seq fun c => ?_
    split
    · exact Only.pure hleft
    split
    · exact Only.pure hleft
    split
    · exact Only.pure hleft
    refine Only.seq fun operator => (hself (.expression (depth + joined + 1) _)).bind fun r hr => ?_
    have hright : Nesting.Bounded bound (Nesting.optional · · r) :=
      Nesting.Bounded.mono hr (Nat.le_trans (room_mono (by omega)) hbound)
    extract_lets withRight
    have hjoined : (withRight ()).Only fun e => Nesting.Bounded bound (Nesting.expression · · e) := by
      refine Only.seq fun span => ?_
      extract_lets e
      have he : Nesting.Bounded bound (Nesting.expression · · e) := .max hleft hright
      split
      · exact Only.pure he
      · exact ih (joined + 1) he
    split
    · exact Only.seq fun _ => hjoined
    · exact hjoined

theorem only_operatorChain {precedence : Nat} (hbound : room limit depth ≤ bound)
    {left : Expression} (hleft : Nesting.Bounded bound (Nesting.expression · · left)) :
    (operatorChain self depth precedence left).Only fun e => Nesting.Bounded bound (Nesting.expression · · e) :=
  Only.seq fun _ => only_operators hself hbound 0 _ hleft

theorem only_expression {precedence : Nat} :
    (Grammar.expression self depth precedence).Only fun r => Nesting.Bounded (room limit depth) (Nesting.optional · · r) := by
  refine (hself (.operand depth false)).bind fun r hr => ?_
  cases r with
  | none => exact Only.pure hr
  | some left => exact Only.map (only_operatorChain hself (Nat.le_refl _) hr)

theorem only_value : (value self depth).Only fun r => Nesting.Bounded (room limit depth) (Nesting.optional · · r) := by
  refine Only.seq fun c => ?_
  split
  · exact (only_call hself).bind fun k hk => Only.pure hk
  · exact hself (.expression depth 1)

/-- A block between braces has room as long as its depth is within the limit. -/
theorem only_braced : (Grammar.braced limit self depth).Only fun b =>
    Nesting.Bounded (max 1 (room limit depth)) (Nesting.braced · · b) := by
  refine Only.seq fun left => ?_
  dsimp only
  split
  · refine Only.seq fun rest => Only.seq fun span => Only.pure ?_
    have hskipped : Nesting.Bounded 0 (Nesting.statements · · (rest.map Statement.skipped).toList) := by
      cases rest <;> exact .zero 0
    have hbraced : Nesting.Bounded 1
        (Nesting.braced · · (.mk ⟨left, none⟩ (.mk (rest.map Statement.skipped).toList none span))) :=
      (hskipped.max (.zero 0)).bracket
    exact hbraced.mono (Nat.le_max_left _ _)
  next hlimit =>
    refine (hself (.block (depth + 1) _ _)).bind fun b hb => Only.seq fun right => Only.pure ?_
    have hroom : room limit depth = room limit (depth + 1) + 2 := room_succ hlimit
    have hb : Nesting.Bounded (room limit (depth + 1) + 1) (Nesting.block · · b) := hb
    exact hb.bracket.mono (by omega)

theorem only_tableField : (tableField self depth).Only fun r =>
    ∀ f ∈ r, Nesting.Bounded (room limit depth + 1) (Nesting.field · · f) := by
  have hfield : ∀ {f : TableField}, Nesting.Bounded (room limit depth + 1) (Nesting.field · · f) →
      ∀ g ∈ some f, Nesting.Bounded (room limit depth + 1) (Nesting.field · · g) := by
    rintro f hf _ ⟨⟩
    exact hf
  refine Only.seq fun c => ?_
  dsimp only
  split
  · refine Only.seq fun name => Only.seq fun equals => ?_
    refine (only_required hself).bind fun v hv => Only.seq fun span => Only.pure ?_
    exact hfield (hv.mono (Nat.le_succ _))
  split
  · refine Only.seq fun left => (only_required hself).bind fun key hkey => ?_
    refine Only.seq fun right => Only.seq fun equals => ?_
    have hkeyed : ∀ {v span}, Nesting.Bounded (room limit depth) (Nesting.optional · · v) →
        Nesting.Bounded (room limit depth + 1) (Nesting.field · · (.keyed ⟨left, right⟩ key equals v span)) := fun hv =>
      .max (.bracket hkey) (hv.mono (Nat.le_succ _))
    split
    · refine (only_required hself).bind fun v hv => Only.seq fun span => Only.pure ?_
      exact hfield (hkeyed hv)
    · refine Only.bind (P := (· = none)) (Only.pure rfl) fun v hv => Only.seq fun span =>
        Only.pure (hfield (hkeyed ?_))
      exact hv ▸ .zero _
  · refine (hself (.value depth)).bind fun r hr => ?_
    cases r with
    | none => exact Only.pure fun f hf => absurd hf (Option.not_mem_none f)
    | some e =>
      have hr : Nesting.Bounded (room limit depth) (Nesting.expression · · e) := hr
      exact Only.seq fun span => Only.pure (hfield (hr.mono (Nat.le_succ _)))

theorem only_values : (self (.value depth)).Only fun r =>
    ∀ e ∈ r, Nesting.Bounded (room limit depth) (Nesting.expression · · e) := by
  refine (hself (.value depth)).imp fun r hr => ?_
  rintro e ⟨⟩
  exact hr

theorem only_unary : (unary self depth).Only fun e => Nesting.Bounded (room limit depth) (Nesting.expression · · e) := by
  refine Only.seq fun operator => (hself (.operand depth false)).bind fun r hr => ?_
  extract_lets withValue
  have hvalue : (withValue ()).Only fun e => Nesting.Bounded (room limit depth) (Nesting.expression · · e) :=
    Only.seq fun span => Only.pure hr
  split
  · exact Only.seq fun _ => hvalue
  · exact hvalue

theorem only_group : (group self depth).Only fun e => Nesting.Bounded (room limit depth + 1) (Nesting.expression · · e) := by
  refine Only.seq fun left => Only.seq fun c => ?_
  extract_lets withInner
  have hinner : ∀ i, Nesting.Bounded (room limit depth) (Nesting.optional · · i) →
      (withInner i).Only fun e => Nesting.Bounded (room limit depth + 1) (Nesting.expression · · e) := fun i hi =>
    Only.seq fun right => Only.seq fun span => Only.pure (.bracket hi)
  split
  · exact hinner none (.zero _)
  · exact (only_required hself).bind hinner

theorem only_vector : (vector self depth).Only fun e => Nesting.Bounded (room limit depth + 1) (Nesting.expression · · e) := by
  refine Only.seq fun left => (only_read (only_values hself)).bind fun is his => ?_
  refine Only.seq fun right => Only.seq fun span => Only.pure ?_
  exact .bracket (items_le his)

theorem only_table : (table self depth).Only fun e => Nesting.Bounded (room limit depth + 2) (Nesting.expression · · e) := by
  refine Only.seq fun left => (only_read (only_tableField hself)).bind fun fs hfs => ?_
  refine Only.seq fun right => Only.seq fun span => Only.pure ?_
  exact .bracket (fields_le hfs)

theorem only_lambda : (lambda limit self depth).Only fun e =>
    Nesting.Bounded (max 1 (room limit depth)) (Nesting.expression · · e) := by
  refine Only.seq fun left => Only.seq fun names => Only.seq fun right => Only.seq fun c => ?_
  extract_lets withBlock
  have hblock : ∀ b, Nesting.Bounded (max 1 (room limit depth)) (Nesting.optionalBraced · · b) →
      (withBlock b).Only fun e => Nesting.Bounded (max 1 (room limit depth)) (Nesting.expression · · e) := fun b hb =>
    Only.seq fun span => Only.pure (.max (Nat.le_max_left _ _) hb)
  split
  · exact Only.bind (P := fun b => Nesting.Bounded (max 1 (room limit depth)) (Nesting.optionalBraced · · b))
      (Only.map (only_braced hself)) hblock
  · exact hblock none (.zero _)

/-- Past the limit there is no operand; before it, there is room for two more pairs of
brackets than inside. -/
theorem only_operand {argument : Bool} :
    (operand limit self depth argument).Only fun r => Nesting.Bounded (room limit depth) (Nesting.optional · · r) := by
  unfold operand
  split
  · refine Only.seq fun r => Only.pure ?_
    cases r <;> exact .zero _
  next hlimit =>
  have hroom : room limit depth = room limit (depth + 1) + 2 := room_succ hlimit
  have hvar : (do return some (.var (← var self (depth + 1))) : Parse (Option Expression)).Only
      fun r => Nesting.Bounded (room limit depth) (Nesting.optional · · r) := by
    refine (only_var hself false).bind fun v hv => Only.pure ?_
    have hv : Nesting.Bounded (room limit (depth + 1) + 1) (Nesting.chain · · false v) := hv
    exact hv.mono (by omega)
  have hdeeper : ∀ {p : Parse Expression} {bound : Nat}, bound ≤ room limit depth →
      (p.Only fun e => Nesting.Bounded bound (Nesting.expression · · e)) →
      (some <$> p).Only fun r => Nesting.Bounded (room limit depth) (Nesting.optional · · r) := fun hbound h =>
    Only.map (h.imp fun e he => Nesting.Bounded.mono he hbound)
  refine Only.seq fun c => ?_
  split
  · exact Only.seq fun t => Only.pure (.zero _)
  · exact Only.seq fun t => Only.pure (.zero _)
  · exact Only.seq fun t => Only.pure (.zero _)
  · exact Only.seq fun t => Only.pure (.zero _)
  · exact Only.seq fun t => Only.pure (.zero _)
  · split
    · exact Only.seq fun t => Only.pure (.zero _)
    · exact hvar
  · exact hvar
  · exact hdeeper (by omega) (only_group hself)
  · exact hdeeper (by omega) (only_vector hself)
  · exact hdeeper (by omega) (only_table hself)
  · exact hdeeper (by omega) (only_lambda hself)
  · exact hdeeper (by omega) (only_unary hself)
  · exact hdeeper (by omega) (only_unary hself)
  · exact Only.seq fun t => Only.pure (.zero _)
  · exact Only.pure (.zero _)

/-! ### Statements and blocks -/

theorem only_requiredBlock {behind : Option Token} :
    (requiredBlock limit self depth behind).Only fun b =>
      Nesting.Bounded (room limit depth + 1) (Nesting.optionalBraced · · b) := by
  refine Only.seq fun c => ?_
  split
  · refine (only_braced hself).bind fun b hb => Only.pure ?_
    exact hb.mono (by omega)
  · exact Only.seq fun _ => Only.pure (.zero _)

theorem only_condition : (Grammar.condition self depth).Only fun r =>
    Nesting.Bounded (room limit depth + 1) (Nesting.optionalCondition · · r) := by
  refine Only.seq fun c => ?_
  split
  · exact Only.seq fun _ => Only.pure (.zero _)
  · refine Only.seq fun left => (only_required hself).bind fun inner hinner => ?_
    exact Only.seq fun right => Only.pure (.bracket hinner)

theorem only_branch : (Grammar.branch limit self depth).Only fun b =>
    Nesting.Bounded (room limit depth + 1) (Nesting.branch · · b) := by
  refine Only.seq fun c => (only_condition hself).bind fun k hk => ?_
  refine (only_requiredBlock hself).bind fun b hb => Only.seq fun span => Only.pure ?_
  exact .max hk hb

theorem only_elseIfs (n : Nat) : (Grammar.elseIfs limit self depth n).Only fun es =>
    Nesting.Bounded (room limit depth + 1) (Nesting.elseIfs · · es) := by
  induction n with
  | zero => exact Only.seq fun _ => Only.pure (.zero _)
  | succ n ih =>
    refine Only.seq fun c => ?_
    split
    · exact Only.pure (.zero _)
    · refine Only.seq fun token => (only_branch hself).bind fun b hb => Only.seq fun span => ?_
      exact ih.bind fun es hes => Only.pure (.max hb hes)

theorem only_otherwise : (Grammar.otherwise limit self depth).Only fun r =>
    Nesting.Bounded (room limit depth + 1) (Nesting.optionalOtherwise · · r) := by
  refine Only.seq fun c => ?_
  split
  · exact Only.pure (.zero _)
  · refine Only.seq fun token => (only_requiredBlock hself).bind fun b hb => ?_
    exact Only.seq fun span => Only.pure hb

theorem only_conditional : (conditional limit self depth).Only fun s =>
    Nesting.Bounded (room limit depth + 1) (Nesting.statement · · s) := by
  refine Only.seq fun token => (only_branch hself).bind fun b hb => Only.seq fun c => ?_
  refine (only_elseIfs hself _).bind fun es hes => (only_otherwise hself).bind fun o ho => ?_
  exact Only.seq fun span => Only.pure (.max hb (.max hes ho))

theorem only_whileLoop : (whileLoop limit self depth).Only fun s =>
    Nesting.Bounded (room limit depth + 1) (Nesting.statement · · s) := by
  refine Only.seq fun token => (only_condition hself).bind fun k hk => ?_
  refine (only_requiredBlock hself).bind fun b hb => Only.seq fun span => Only.pure ?_
  exact .max hk hb

theorem only_forLoop : (forLoop self depth).Only fun s =>
    Nesting.Bounded (room limit depth + 1) (Nesting.statement · · s) := by
  refine Only.seq fun token => (only_condition hself).bind fun k hk => Only.seq fun c => ?_
  extract_lets withBody
  have hbody : ∀ b, Nesting.Bounded (room limit depth) (Nesting.optional · · b) →
      (withBody b).Only fun s => Nesting.Bounded (room limit depth + 1) (Nesting.statement · · s) := fun b hb =>
    Only.seq fun span => Only.pure (.max hk (hb.mono (Nat.le_succ _)))
  split
  · exact (hself (.value depth)).bind hbody
  · exact Only.seq fun _ => hbody none (.zero _)

theorem only_varStatement : (varStatement self depth).Only fun s =>
    Nesting.Bounded (room limit depth + 1) (Nesting.statement · · s) := by
  refine Only.seq fun c => (only_var hself false).bind fun v hv => Only.seq fun c => ?_
  split
  · refine Only.seq fun equals => ?_
    extract_lets withValue
    have hvalue : (withValue ()).Only fun s => Nesting.Bounded (room limit depth + 1) (Nesting.statement · · s) := by
      refine (only_required hself).bind fun e he => Only.seq fun span => Only.pure ?_
      exact .max hv (he.mono (Nat.le_succ _))
    split
    · exact Only.seq fun _ => hvalue
    · exact hvalue
  split
  · refine (only_operatorChain hself (Nat.le_succ _) ?_).bind fun e he => Only.pure he
    exact hv
  · exact (only_command hself hv).bind fun k hk => Only.pure hk

theorem only_statement : (Grammar.statement limit self depth).Only fun r =>
    ∀ s ∈ r, Nesting.Bounded (room limit depth + 1) (Nesting.statement · · s) := by
  have hsome : ∀ {s : Statement}, Nesting.Bounded (room limit depth + 1) (Nesting.statement · · s) →
      ∀ t ∈ some s, Nesting.Bounded (room limit depth + 1) (Nesting.statement · · t) := by
    rintro s hs _ ⟨⟩
    exact hs
  refine Only.seq fun c => ?_
  split
  · exact Only.map ((only_conditional hself).imp fun _ => hsome)
  · exact Only.map ((only_whileLoop hself).imp fun _ => hsome)
  · exact Only.map ((only_forLoop hself).imp fun _ => hsome)
  · exact (only_call hself).bind fun k hk => Only.pure (hsome (hk.mono (Nat.le_succ _)))
  · exact Only.map ((only_varStatement hself).imp fun _ => hsome)
  · exact Only.map ((only_varStatement hself).imp fun _ => hsome)
  split
  · refine (hself (.expression depth 1)).bind fun r hr => Only.pure ?_
    cases r with
    | none => exact fun t ht => absurd ht (Option.not_mem_none t)
    | some e =>
      have hr : Nesting.Bounded (room limit depth) (Nesting.expression · · e) := hr
      exact hsome (hr.mono (Nat.le_succ _))
  · exact Only.pure fun t ht => absurd ht (Option.not_mem_none t)

theorem only_lastStatement : (lastStatement self depth).Only fun l =>
    Nesting.Bounded (room limit depth) (Nesting.last · · l) := by
  refine Only.seq fun token => ?_
  split
  · exact Only.pure (.zero _)
  · exact Only.pure (.zero _)
  refine Only.seq fun c => ?_
  extract_lets withValues
  have hvalues : ∀ vs, Nesting.Bounded (room limit depth) (Nesting.items · · vs) →
      (withValues vs).Only fun l => Nesting.Bounded (room limit depth) (Nesting.last · · l) := fun vs hvs =>
    Only.seq fun span => Only.pure hvs
  split
  · exact hvalues [] (.zero _)
  · refine (only_read ?_).bind fun vs hvs => hvalues vs (items_le hvs)
    exact only_values hself

omit hself in
theorem only_recover {stop : List TokenKind} {context : String} :
    (recover stop context).Only fun ss => Nesting.Bounded 0 (Nesting.statements · · ss) := by
  refine Only.seq fun c => Only.seq fun node => ?_
  cases node with
  | none => exact Only.pure (Nat.le_refl 0)
  | some node => exact Only.seq fun _ => Only.pure (Nat.le_refl 0)

theorem only_someStatements {stop : List TokenKind} :
    (someStatements limit self depth stop).Only fun ss =>
      Nesting.Bounded (room limit depth + 1) (Nesting.statements · · ss) := by
  refine Only.seq fun c => ?_
  split
  · refine Only.seq fun node => Only.pure ?_
    cases node <;> exact .zero _
  refine (only_statement hself).bind fun r hr => ?_
  cases r with
  | none => exact only_recover.imp fun ss hss => hss.mono (Nat.zero_le _)
  | some s =>
    have hs := hr s rfl
    refine Only.seq fun now => ?_
    split
    · exact Only.pure (.max hs (.zero _))
    · refine only_recover.bind fun ss hss => Only.pure (.max hs (?_))
      exact hss.mono (Nat.zero_le _)

theorem only_statements {stop : List TokenKind} (before : Option Nat) (n : Nat) :
    (Grammar.statements limit self depth stop before n).Only fun r =>
      Nesting.Bounded (room limit depth + 1) (Nesting.statements · · r.1) ∧
        Nesting.Bounded (room limit depth + 1) (Nesting.optionalLast · · r.2) := by
  induction n generalizing before with
  | zero => exact Only.seq fun _ => Only.pure ⟨.zero _, .zero _⟩
  | succ n ih =>
    refine Only.seq fun c => ?_
    split
    · exact Only.pure ⟨.zero _, .zero _⟩
    refine Only.seq fun goes => ?_
    split
    · exact Only.pure ⟨.zero _, .zero _⟩
    split
    · exact Only.seq fun _ => ih _
    split
    · refine (only_lastStatement hself).bind fun l hl => Only.pure ⟨.zero _, ?_⟩
      exact hl.mono (Nat.le_succ _)
    · refine (only_someStatements hself).bind fun ss hss => (ih _).bind fun r hr => ?_
      refine Only.pure ⟨?_, hr.2⟩
      simp only [statements_append]
      exact .max hss hr.1

theorem only_block {stop : List TokenKind} {start : Nat} :
    (Grammar.block limit self depth stop start).Only fun b =>
      Nesting.Bounded (room limit depth + 1) (Nesting.block · · b) := by
  refine Only.seq fun c => (only_statements hself _ _).bind fun r hr => ?_
  obtain ⟨body, last⟩ := r
  have hblock : ∀ span, Nesting.Bounded (room limit depth + 1) (Nesting.block · · (.mk body last span)) := fun span =>
    .max hr.1 hr.2
  dsimp only
  split
  · exact Only.seq fun _ => Only.seq fun span => Only.pure (hblock span)
  · exact Only.seq fun span => Only.pure (hblock span)

/-- **Every rule keeps within its room**, if what it asks for does. -/
theorem only_rule (n : Nonterminal) : (rule limit self n).Only (Fits limit n) := by
  cases n with
  | operand depth argument => exact only_operand hself
  | expression depth precedence => exact only_expression hself
  | value depth => exact only_value hself
  | block depth stop start => exact only_block hself

end Rules

theorem only_read_grammar (limit budget : Nat) (n : Nonterminal) :
    (read limit budget n).Only (Fits limit n) := by
  induction budget generalizing n with
  | zero => cases n <;> exact Only.seq fun _ => Only.pure (Nesting.Bounded.zero _)
  | succ budget ih => exact only_rule ih n

theorem only_source (limit : Nat) :
    (source limit).Only fun b => Nesting.Bounded (2 * limit + 3) (Nesting.block · · b) := by
  have hhere : (readHere limit (.block 0 [.endOfInput] 0)).Only fun b =>
      Nesting.Bounded (2 * limit + 3) (Nesting.block · · b) := by
    refine Only.seq fun c => (only_read_grammar limit _ _).imp fun b hb => ?_
    refine Nesting.Bounded.mono hb ?_
    unfold room
    omega
  refine Only.seq fun c => hhere.bind fun b hb => Only.pure ?_
  cases b
  exact hb

end Grammar

/-- **The limit bounds how deep any text nests**, but for the callees behind `&`. -/
theorem Parsed.nesting_le (text : String) (limit : Nat) :
    (parse text limit).nesting 1 1 ≤ 2 * limit + 3 + (parse text limit).nesting 0 1 := by
  unfold parse
  dsimp only
  split
  · exact Nat.zero_le _
  · exact Grammar.only_source limit _

end CommandScript
