import CommandScript.Assist.Walk
import CommandScript.Proofs.Enclosing
/-!
# CommandScript — the walk as a row of visits

The walk follows the tree, and what it does is done in some ten kinds of place: where a
chain begins and at each of its steps, at what is called, before and after its arguments,
at the target of an assignment. Where it comes next does not depend on what it finds. So
the visits it makes can be listed beforehand, and the walk over a block is the visits of
the block, one after the other (`block_eq_visitAll`).

The frames of variables are put up and taken down by visits of their own. What holds of a
walk is proved from what one visit does, by induction on the list.
-/

namespace CommandScript

/-- A place where the walk looks around, or brings a name into sight. -/
inductive Visit where
  /-- Where a chain begins that is not computed. -/
  | root (kind : Option SuggestionKind) (root : VarRoot)
  /-- A step of a chain that is a field. -/
  | suffix (var : Var) (step : Nat) (suffix : VarSuffix)
  | callee (callee : Var)
  /-- The arguments, before they are walked over. -/
  | arguments (command : Command)
  /-- The arguments, when they have been walked over. -/
  | review (command : Command)
  /-- An ampersand with nothing behind it. -/
  | pending (ampersand : Token) (span : Span)
  /-- The name that an assignment gives a value to, and what it is given. -/
  | target (root : VarRoot)
  | define (root : VarRoot) (value : Option Expression)
  /-- Into a block or a lambda, and out of it. -/
  | enter (names : List String)
  | leave

namespace Visit

/-- The part of the tree that is visited. -/
def part? : Visit → Option Outline
  | root _ r | target r | define r _ => some (.ofRoot r)
  | suffix _ _ s => some (.ofSuffix s)
  | callee v => some (.ofVar v)
  | arguments c | review c => some (.ofCommand c)
  | pending ampersand span => some (.ofCall (.mk ampersand none span))
  | enter _ | leave => none

end Visit

/-! ## The visits of a tree -/

namespace Visits

mutual

def expression : Expression → List Visit
  | .binary l _ r _ => expression l ++ optional r
  | .unary _ v _ => optional v
  | .vector _ is _ => items is
  | .table _ fs _ => fields fs
  | .lambda b => body b
  | .group _ e _ => optional e
  | .var v => chain (some .expression) v
  | .call c => call c
  | .nil _ | .boolean _ | .number _ | .string _ | .skipped _ => []

def optional : Option Expression → List Visit
  | none => []
  | some e => expression e

def item : SeparatedItem Expression → List Visit
  | ⟨v, _, _⟩ => optional v

def items : List (SeparatedItem Expression) → List Visit
  | [] => []
  | i :: rest => item i ++ items rest

def field : TableField → List Visit
  | .named _ _ v _ => optional v
  | .keyed _ k _ v _ => optional k ++ optional v
  | .positional v _ => expression v

def fieldItem : SeparatedItem TableField → List Visit
  | ⟨none, _, _⟩ => []
  | ⟨some f, _, _⟩ => field f

def fields : List (SeparatedItem TableField) → List Visit
  | [] => []
  | i :: rest => fieldItem i ++ fields rest

def body : FunctionBody → List Visit
  | .mk _ _ none _ => []
  | .mk bars ps (some b) span =>
    .enter (FunctionBody.mk bars ps none span).names :: braced b ++ [.leave]

def root (kind : Option SuggestionKind) : VarRoot → List Visit
  | .computed _ _ e _ => optional e
  | r => [.root kind r]

def chain (kind : Option SuggestionKind) : Var → List Visit
  | .mk r ss span => root kind r ++ steps (.mk r ss span) 0 ss

def step (v : Var) (n : Nat) : VarSuffix → List Visit
  | .index _ _ e _ => optional e
  | s => [.suffix v n s]

def steps (v : Var) (n : Nat) : List VarSuffix → List Visit
  | [] => []
  | s :: rest => step v n s ++ steps v (n + 1) rest

def arguments : List Expression → List Visit
  | [] => []
  | e :: rest => expression e ++ arguments rest

def command (kind : Option SuggestionKind) : Command → List Visit
  | .mk v as span =>
    chain kind v ++ .callee v :: .arguments (.mk v as span) :: arguments as ++
      [.review (.mk v as span)]

def call : Call → List Visit
  | .mk ampersand none span => [.pending ampersand span]
  | .mk _ (some c) _ => command (some .expression) c

def target (e : Option Expression) : Var → List Visit
  | .mk r [] _ => .target r :: computedRoot r ++ [.define r e]
  | .mk r ss span => root (some .assign) r ++ steps (.mk r ss span) 0 ss

def computedRoot : VarRoot → List Visit
  | .computed _ _ e _ => optional e
  | _ => []

def statement : Statement → List Visit
  | .command c => command none c
  | .call c => call c
  | .expression e => expression e
  | .assign v _ e _ => optional e ++ target e v
  | .conditional _ first others o _ => branch first ++ elseIfs others ++ otherwise o
  | .whileLoop _ c b _ => condition c ++ block? b
  | .forLoop _ c b _ => condition c ++ optional b
  | .skipped _ => []

def condition : Option Condition → List Visit
  | none => []
  | some (.mk _ e) => optional e

def branch : Branch → List Visit
  | .mk c b _ => condition c ++ block? b

def elseIf : ElseIf → List Visit
  | .mk _ b _ => branch b

def elseIfs : List ElseIf → List Visit
  | [] => []
  | e :: rest => elseIf e ++ elseIfs rest

def otherwise : Option Otherwise → List Visit
  | none => []
  | some (.mk _ b _) => block? b

/-- A block that is there is walked over in a frame of its own. -/
def block? : Option Braced → List Visit
  | none => []
  | some b => .enter [] :: braced b ++ [.leave]

def braced : Braced → List Visit
  | .mk _ b => block b

def statements : List Statement → List Visit
  | [] => []
  | s :: rest => statement s ++ statements rest

def last : LastStatement → List Visit
  | .return _ vs _ => items vs
  | _ => []

def block : Block → List Visit
  | .mk ss none _ => statements ss
  | .mk ss (some l) _ => statements ss ++ last l

end

end Visits

/-! ## Visits are to parts of the tree -/

open Outline

/-- Of the parts that are visited, all have a property. -/
def Visits.Each (P : Outline → Prop) (vs : List Visit) : Prop := ∀ v ∈ vs, ∀ o ∈ v.part?, P o

namespace Visits

variable {P : Outline → Prop} {vs ws : List Visit}

@[simp] theorem each_nil : Visits.Each P [] := nofun

@[simp] theorem each_cons (v : Visit) :
    Visits.Each P (v :: vs) ↔ (∀ o ∈ v.part?, P o) ∧ Visits.Each P vs := List.forall_mem_cons

@[simp] theorem each_append : Visits.Each P (vs ++ ws) ↔ Visits.Each P vs ∧ Visits.Each P ws :=
  List.forall_mem_append

theorem each_one {v : Visit} {o : Outline} (h : P o) (hv : v.part? = some o) :
    Visits.Each P [v] := by
  intro w hw
  obtain rfl := List.mem_singleton.1 hw
  rintro p hp
  rw [hv] at hp
  cases hp
  exact h

theorem of_all_var {v : Var} (h : (ofVar v).All P) : P (ofVar v) := by
  cases v
  exact (all_node.1 h).1

theorem of_all_root {r : VarRoot} (h : (ofRoot r).All P) : P (ofRoot r) := by
  cases r <;> exact (all_node.1 h).1

mutual

theorem each_expression : ∀ e : Expression, (ofExpression e).All P → Visits.Each P (expression e)
  | .nil _, _ | .boolean _, _ | .number _, _ | .string _, _ | .skipped _, _ => by
    simp [expression]
  | .binary l _ r _, h => by
    simp only [ofExpression, all_node, allOf_cons] at h
    simp only [expression, each_append]
    exact ⟨each_expression l h.2.1, each_optional r h.2.2.2⟩
  | .unary _ v _, h => by
    simp only [ofExpression, all_node, allOf_cons] at h
    rw [expression]
    exact each_optional v h.2.2
  | .vector _ is _, h => by
    simp only [ofExpression, all_node, allOf_bracketed] at h
    rw [expression]
    exact each_items is h.2
  | .table _ fs _, h => by
    simp only [ofExpression, all_node, allOf_bracketed] at h
    rw [expression]
    exact each_fields fs h.2
  | .lambda b, h => by
    simp only [ofExpression, all_node, allOf_cons] at h
    rw [expression]
    exact each_body b h.2.1
  | .group _ e _, h => by
    simp only [ofExpression, all_node, allOf_bracketed] at h
    rw [expression]
    exact each_optional e h.2
  | .var v, h => by
    rw [ofExpression] at h
    rw [expression]
    exact each_chain _ v h
  | .call c, h => by
    rw [ofExpression] at h
    rw [expression]
    exact each_call c h

theorem each_optional : ∀ e : Option Expression, AllOf P (ofOptional e) →
    Visits.Each P (optional e)
  | none, _ => by simp [optional]
  | some e, h => by
    simp only [ofOptional, allOf_cons] at h
    rw [optional]
    exact each_expression e h.1

theorem each_items : ∀ is : List (SeparatedItem Expression), AllOf P (ofItems is) →
    Visits.Each P (items is)
  | [], _ => by simp [items]
  | ⟨v, _, _⟩ :: rest, h => by
    simp only [ofItems, ofItem, allOf_append] at h
    simp only [items, item, each_append]
    exact ⟨each_optional v h.1.1, each_items rest h.2⟩

theorem each_field : ∀ f : TableField, (ofField f).All P → Visits.Each P (field f)
  | .named _ _ v _, h => by
    simp only [ofField, all_node, allOf_cons] at h
    rw [field]
    exact each_optional v h.2.2.2
  | .keyed _ k _ v _, h => by
    simp only [ofField, all_node, allOf_append, allOf_bracketed] at h
    simp only [field, each_append]
    exact ⟨each_optional k h.2.1.1, each_optional v h.2.2⟩
  | .positional v _, h => by
    simp only [ofField, all_node, allOf_cons] at h
    rw [field]
    exact each_expression v h.2.1

theorem each_fields : ∀ fs : List (SeparatedItem TableField), AllOf P (ofFields fs) →
    Visits.Each P (fields fs)
  | [], _ => by simp [fields]
  | ⟨none, _, _⟩ :: rest, h => by
    simp only [ofFields, allOf_append] at h
    simp only [fields, fieldItem, each_append]
    exact ⟨each_nil, each_fields rest h.2⟩
  | ⟨some f, _, _⟩ :: rest, h => by
    simp only [ofFields, ofFieldItem, ofOptionalField, allOf_append, allOf_cons] at h
    simp only [fields, fieldItem, each_append]
    exact ⟨each_field f h.1.1.1, each_fields rest h.2⟩

theorem each_body : ∀ b : FunctionBody, (ofBody b).All P → Visits.Each P (body b)
  | .mk _ _ none _, _ => by simp [body]
  | .mk _ _ (some b) _, h => by
    simp only [ofBody, ofOptionalBraced, all_node, allOf_append] at h
    simpa [body, Visit.part?] using each_braced b h.2.2

theorem each_root (kind : Option SuggestionKind) : ∀ r : VarRoot, (ofRoot r).All P →
    Visits.Each P (root kind r)
  | .bare _, h | .named _ _ _, h => by
    simp only [ofRoot, all_node] at h
    simp only [root]
    exact each_one h.1 rfl
  | .computed _ _ e _, h => by
    simp only [ofRoot, all_node, allOf_cons, allOf_bracketed] at h
    rw [root]
    exact each_optional e h.2.2

theorem each_chain (kind : Option SuggestionKind) : ∀ v : Var, (ofVar v).All P →
    Visits.Each P (chain kind v)
  | .mk r ss _, h => by
    simp only [ofVar, all_node, allOf_cons] at h
    simp only [chain, each_append]
    exact ⟨each_root kind r h.2.1, each_steps _ 0 ss h.2.2⟩

theorem each_steps (v : Var) (n : Nat) : ∀ ss : List VarSuffix, AllOf P (ofSuffixes ss) →
    Visits.Each P (steps v n ss)
  | [], _ => by simp [steps]
  | .field _ _ _ :: rest, h => by
    simp only [ofSuffixes, ofSuffix, allOf_cons, all_node] at h
    simp only [steps, step, each_append]
    exact ⟨each_one h.1.1 rfl, each_steps v (n + 1) rest h.2⟩
  | .index _ _ e _ :: rest, h => by
    simp only [ofSuffixes, ofSuffix, allOf_cons, all_node, allOf_bracketed] at h
    simp only [steps, step, each_append]
    exact ⟨each_optional e h.1.2.2, each_steps v (n + 1) rest h.2⟩

theorem each_arguments : ∀ es : List Expression, AllOf P (ofArguments es) →
    Visits.Each P (arguments es)
  | [], _ => by simp [arguments]
  | e :: rest, h => by
    simp only [ofArguments, allOf_cons] at h
    simp only [arguments, each_append]
    exact ⟨each_expression e h.1, each_arguments rest h.2⟩

theorem each_command (kind : Option SuggestionKind) : ∀ c : Command, (ofCommand c).All P →
    Visits.Each P (command kind c)
  | .mk v es span, h => by
    simp only [ofCommand, all_node, allOf_cons] at h
    have hchain := each_chain kind v h.2.1
    have harguments := each_arguments es h.2.2
    have hcallee := of_all_var h.2.1
    have hself : P (ofCommand (.mk v es span)) := h.1
    simp [command, Visit.part?, hchain, harguments, hcallee, hself]

theorem each_call : ∀ c : Call, (ofCall c).All P → Visits.Each P (call c)
  | .mk _ none _, h => by
    simp only [ofCall, all_node] at h
    rw [call]
    exact each_one h.1 rfl
  | .mk _ (some c) _, h => by
    simp only [ofCall, ofOptionalCommand, all_node, allOf_cons] at h
    rw [call]
    exact each_command _ c h.2.2.1

theorem each_target (e : Option Expression) : ∀ v : Var, (ofVar v).All P →
    Visits.Each P (target e v)
  | .mk r [] _, h => by
    simp only [ofVar, all_node, allOf_cons] at h
    have hcomputed := each_computedRoot r h.2.1
    have hroot := of_all_root h.2.1
    simp [target, Visit.part?, hcomputed, hroot]
  | .mk r (s :: ss) _, h => by
    simp only [ofVar, all_node, allOf_cons] at h
    rw [target, each_append]
    · exact ⟨each_root _ r h.2.1, each_steps _ 0 (s :: ss) h.2.2⟩
    · exact fun h => List.cons_ne_nil _ _ h

theorem each_computedRoot : ∀ r : VarRoot, (ofRoot r).All P → Visits.Each P (computedRoot r)
  | .bare _, _ | .named _ _ _, _ => by simp [computedRoot]
  | .computed _ _ e _, h => by
    simp only [ofRoot, all_node, allOf_cons, allOf_bracketed] at h
    rw [computedRoot]
    exact each_optional e h.2.2

theorem each_statement : ∀ s : Statement, (ofStatement s).All P → Visits.Each P (statement s)
  | .command c, h => by
    rw [ofStatement] at h
    rw [statement]
    exact each_command none c h
  | .call c, h => by
    rw [ofStatement] at h
    rw [statement]
    exact each_call c h
  | .expression e, h => by
    simp only [ofStatement, all_node, allOf_cons] at h
    rw [statement]
    exact each_expression e h.2.1
  | .assign v _ e _, h => by
    simp only [ofStatement, all_node, allOf_cons] at h
    rw [statement, each_append]
    exact ⟨each_optional e h.2.2.2, each_target e v h.2.1⟩
  | .conditional _ first others o _, h => by
    simp only [ofStatement, all_node, allOf_cons, allOf_append, List.cons_append] at h
    simp only [statement, each_append]
    exact ⟨⟨each_branch first h.2.2.1, each_elseIfs others h.2.2.2.1⟩, each_otherwise o h.2.2.2.2⟩
  | .whileLoop _ c b _, h => by
    simp only [ofStatement, all_node, allOf_cons, allOf_append, List.cons_append] at h
    simp only [statement, each_append]
    exact ⟨each_condition c h.2.2.1, each_block? b h.2.2.2⟩
  | .forLoop _ c b _, h => by
    simp only [ofStatement, all_node, allOf_cons, allOf_append, List.cons_append] at h
    simp only [statement, each_append]
    exact ⟨each_condition c h.2.2.1, each_optional b h.2.2.2⟩
  | .skipped _, _ => by simp [statement]

theorem each_condition : ∀ c : Option Condition, AllOf P (ofOptionalCondition c) →
    Visits.Each P (condition c)
  | none, _ => by simp [condition]
  | some (.mk _ e), h => by
    simp only [ofOptionalCondition, ofCondition, allOf_bracketed] at h
    rw [condition]
    exact each_optional e h

theorem each_branch : ∀ b : Branch, (ofBranch b).All P → Visits.Each P (branch b)
  | .mk c b _, h => by
    simp only [ofBranch, all_node, allOf_append] at h
    simp only [branch, each_append]
    exact ⟨each_condition c h.2.1, each_block? b h.2.2⟩

theorem each_elseIfs : ∀ es : List ElseIf, AllOf P (ofElseIfs es) → Visits.Each P (elseIfs es)
  | [], _ => by simp [elseIfs]
  | .mk _ b _ :: rest, h => by
    simp only [ofElseIfs, ofElseIf, allOf_cons, all_node] at h
    simp only [elseIfs, elseIf, each_append]
    exact ⟨each_branch b h.1.2.2.1, each_elseIfs rest h.2⟩

theorem each_otherwise : ∀ o : Option Otherwise, AllOf P (ofOptionalOtherwise o) →
    Visits.Each P (otherwise o)
  | none, _ => by simp [otherwise]
  | some (.mk _ b _), h => by
    simp only [ofOptionalOtherwise, ofOtherwise, allOf_cons, all_node] at h
    rw [otherwise]
    exact each_block? b h.1.2.2

theorem each_block? : ∀ b : Option Braced, AllOf P (ofOptionalBraced b) →
    Visits.Each P (block? b)
  | none, _ => by simp [block?]
  | some b, h => by
    rw [ofOptionalBraced] at h
    simpa [block?, Visit.part?] using each_braced b h

theorem each_braced : ∀ b : Braced, AllOf P (ofBraced b) → Visits.Each P (braced b)
  | .mk _ b, h => by
    simp only [ofBraced, allOf_bracketed, allOf_cons] at h
    rw [braced]
    exact each_block b h.1

theorem each_statements : ∀ ss : List Statement, AllOf P (ofStatements ss) →
    Visits.Each P (statements ss)
  | [], _ => by simp [statements]
  | s :: rest, h => by
    simp only [ofStatements, allOf_cons] at h
    simp only [statements, each_append]
    exact ⟨each_statement s h.1, each_statements rest h.2⟩

theorem each_last : ∀ l : LastStatement, (ofLast l).All P → Visits.Each P (last l)
  | .return _ vs _, h => by
    simp only [ofLast, all_node, allOf_cons] at h
    rw [last]
    exact each_items vs h.2.2
  | .break _, _ | .continue _, _ => by simp [last]

/-- What is visited in a block are parts of it. -/
theorem each_block : ∀ b : Block, (ofBlock b).All P → Visits.Each P (block b)
  | .mk ss none _, h => by
    simp only [ofBlock, all_node, allOf_append] at h
    rw [block]
    exact each_statements ss h.2.1
  | .mk ss (some l) _, h => by
    simp only [ofBlock, ofOptionalLast, all_node, allOf_append, allOf_cons] at h
    rw [block, each_append]
    exact ⟨each_statements ss h.2.1, each_last l h.2.2.1⟩

end

end Visits

/-! ## The walk makes the visits -/

namespace Walk

variable (ctx : AssistContext)

/-- Into a frame of variables of unknown value. -/
def enter (names : List String) : Walk Unit :=
  modify fun f => { f with frames := names.foldl (fun t n => t.insert n none) {} :: f.frames }

/-- Out of the innermost frame. -/
def leave : Walk Unit := modify fun f => { f with frames := f.frames.tail }

/-- Make a visit. -/
def visit : Visit → Walk Unit
  | .root kind r => visitRoot ctx kind r
  | .suffix v n s => visitSuffix ctx v n s
  | .callee v => reviewCallee ctx v
  | .arguments c => visitArguments ctx c
  | .review c => reviewArguments ctx c
  | .pending ampersand span => call ctx (.mk ampersand none span)
  | .target r => do let _ ← visitTarget ctx r
  | .define r e => define ctx r e
  | .enter names => enter names
  | .leave => leave

/-- Make visits in order. -/
def visitAll : List Visit → Walk Unit
  | [] => pure ()
  | v :: rest => do visit ctx v; visitAll rest

variable {ctx} {vs ws : List Visit} {step : Walk Unit}

@[simp] theorem visitAll_nil : visitAll ctx [] = pure () := rfl

@[simp] theorem visitAll_cons (v : Visit) :
    visitAll ctx (v :: vs) = (visit ctx v >>= fun _ => visitAll ctx vs) := rfl

@[simp] theorem visitAll_append :
    visitAll ctx (vs ++ ws) = (visitAll ctx vs >>= fun _ => visitAll ctx ws) := by
  induction vs with
  | nil => exact (pure_bind _ _).symm
  | cons v rest ih => rw [List.cons_append, visitAll_cons, visitAll_cons, ih, bind_assoc]

theorem visitAll_singleton (v : Visit) : visitAll ctx [v] = visit ctx v := bind_pure_unit

/-- A frame around visits is put up and taken down by visits. -/
theorem framed_visitAll (names : List String) :
    framed (names.foldl (fun t n => t.insert n none) {}) (visitAll ctx vs) =
      visitAll ctx (.enter names :: vs ++ [.leave]) := by
  rw [List.cons_append, visitAll_cons, visitAll_append, visitAll_singleton]
  rfl

/-- Only a computed target has something in it to walk over, and at that there is nothing to
offer. -/
theorem visitTarget_bind (r : VarRoot) (next : Walk Unit) :
    (do
      let seen ← visitTarget ctx r
      if !seen then do computedRoot ctx r; next else next) = (do
      let _ ← visitTarget ctx r
      computedRoot ctx r
      next) := by
  cases r with
  | bare | named => simp [computedRoot]
  | computed => rfl

mutual

theorem expression_eq : ∀ e : Expression, expression ctx e = visitAll ctx (Visits.expression e)
  | .nil _ | .boolean _ | .number _ | .string _ | .skipped _ => by
    rw [expression, Visits.expression, visitAll_nil]
  | .binary l _ r _ => by
    rw [expression, Visits.expression, visitAll_append, expression_eq l, optional_eq r]
  | .unary _ v _ => by rw [expression, Visits.expression, optional_eq v]
  | .vector _ is _ => by rw [expression, Visits.expression, items_eq is]
  | .table _ fs _ => by rw [expression, Visits.expression, fields_eq fs]
  | .lambda b => by rw [expression, Visits.expression, body_eq b]
  | .group _ e _ => by rw [expression, Visits.expression, optional_eq e]
  | .var v => by rw [expression, Visits.expression, chain_eq _ v]
  | .call c => by rw [expression, Visits.expression, call_eq c]

theorem optional_eq : ∀ e : Option Expression, optional ctx e = visitAll ctx (Visits.optional e)
  | none => by rw [optional, Visits.optional, visitAll_nil]
  | some e => by rw [optional, Visits.optional, expression_eq e]

theorem items_eq : ∀ is : List (SeparatedItem Expression),
    items ctx is = visitAll ctx (Visits.items is)
  | [] => by rw [items, Visits.items, visitAll_nil]
  | ⟨v, _, _⟩ :: rest => by
    rw [items, Visits.items, item, Visits.item, visitAll_append, optional_eq v, items_eq rest]

theorem field_eq : ∀ f : TableField, field ctx f = visitAll ctx (Visits.field f)
  | .named _ _ v _ => by rw [field, Visits.field, optional_eq v]
  | .keyed _ k _ v _ => by
    rw [field, Visits.field, visitAll_append, optional_eq k, optional_eq v]
  | .positional v _ => by rw [field, Visits.field, expression_eq v]

theorem fields_eq : ∀ fs : List (SeparatedItem TableField),
    fields ctx fs = visitAll ctx (Visits.fields fs)
  | [] => by rw [fields, Visits.fields, visitAll_nil]
  | ⟨none, _, _⟩ :: rest => by
    rw [fields, Visits.fields, fieldItem, Visits.fieldItem, visitAll_append, visitAll_nil,
      fields_eq rest]
  | ⟨some f, _, _⟩ :: rest => by
    rw [fields, Visits.fields, fieldItem, Visits.fieldItem, visitAll_append, field_eq f,
      fields_eq rest]

theorem body_eq : ∀ b : FunctionBody, body ctx b = visitAll ctx (Visits.body b)
  | .mk _ _ none _ => by rw [body, Visits.body, visitAll_nil]
  | .mk _ _ (some (.mk _ b)) _ => by
    rw [body, Visits.body, bracedBody, Visits.braced, block_eq_visitAll b, framed_visitAll]

theorem root_eq (kind : Option SuggestionKind) : ∀ r : VarRoot,
    root ctx kind r = visitAll ctx (Visits.root kind r)
  | .bare _ | .named _ _ _ => by simp only [root, Visits.root, visitAll_singleton, visit]
  | .computed _ _ e _ => by rw [root, Visits.root, optional_eq e]

theorem chain_eq (kind : Option SuggestionKind) : ∀ v : Var,
    chain ctx kind v = visitAll ctx (Visits.chain kind v)
  | .mk r ss _ => by
    rw [chain, Visits.chain, visitAll_append, root_eq kind r, steps_eq _ 0 ss]

theorem steps_eq (v : Var) (n : Nat) : ∀ ss : List VarSuffix,
    steps ctx v n ss = visitAll ctx (Visits.steps v n ss)
  | [] => by rw [steps, Visits.steps, visitAll_nil]
  | .field _ _ _ :: rest => by
    simp only [steps, Visits.steps, step, Visits.step, visitAll_append, visitAll_singleton, visit,
      steps_eq v (n + 1) rest]
  | .index _ _ e _ :: rest => by
    rw [steps, Visits.steps, step, Visits.step, visitAll_append, optional_eq e,
      steps_eq v (n + 1) rest]

theorem arguments_eq : ∀ es : List Expression,
    arguments ctx es = visitAll ctx (Visits.arguments es)
  | [] => by rw [arguments, Visits.arguments, visitAll_nil]
  | e :: rest => by
    rw [arguments, Visits.arguments, visitAll_append, expression_eq e, arguments_eq rest]

theorem command_eq (kind : Option SuggestionKind) : ∀ c : Command,
    command ctx kind c = visitAll ctx (Visits.command kind c)
  | .mk v es _ => by
    rw [command, Visits.command, chain_eq kind v, arguments_eq es]
    simp only [visitAll_append, visitAll_cons, visitAll_nil, visit, bind_assoc, bind_pure_unit]

theorem call_eq : ∀ c : Call, call ctx c = visitAll ctx (Visits.call c)
  | .mk _ none _ => by rw [Visits.call, visitAll_singleton, visit]
  | .mk _ (some c) _ => by rw [call, Visits.call, command_eq _ c]

theorem target_eq (e : Option Expression) : ∀ v : Var,
    target ctx e v = visitAll ctx (Visits.target e v)
  | .mk r [] _ => by
    have hroot := computedRoot_eq r
    rw [target, Visits.target, List.cons_append, visitAll_cons, visitAll_append,
      visitAll_singleton, ← hroot, visit, visit]
    simp only [List.isEmpty_nil, if_true, bind_assoc, pure_bind]
    exact visitTarget_bind r _
  | .mk r (s :: ss) _ => by
    rw [target, Visits.target, visitAll_append, root_eq _ r, steps_eq _ 0 (s :: ss)]
    · rfl
    · exact fun h => List.cons_ne_nil _ _ h

theorem computedRoot_eq : ∀ r : VarRoot,
    computedRoot ctx r = visitAll ctx (Visits.computedRoot r)
  | .bare _ | .named _ _ _ => by simp only [computedRoot, Visits.computedRoot, visitAll_nil]
  | .computed _ _ e _ => by rw [computedRoot, Visits.computedRoot, optional_eq e]

theorem statement_eq : ∀ s : Statement, statement ctx s = visitAll ctx (Visits.statement s)
  | .command c => by rw [statement, Visits.statement, command_eq _ c]
  | .call c => by rw [statement, Visits.statement, call_eq c]
  | .expression e => by rw [statement, Visits.statement, expression_eq e]
  | .assign v _ e _ => by
    rw [statement, Visits.statement, visitAll_append, optional_eq e, target_eq e v]
  | .conditional _ first others o _ => by
    rw [statement, Visits.statement, visitAll_append, visitAll_append, bind_assoc,
      branch_eq first, elseIfs_eq others, otherwise_eq o]
  | .whileLoop _ c b _ => by
    rw [statement, Visits.statement, visitAll_append, condition_eq c, braced_eq b]
  | .forLoop _ c b _ => by
    rw [statement, Visits.statement, visitAll_append, condition_eq c, optional_eq b]
  | .skipped _ => by rw [statement, Visits.statement, visitAll_nil]

theorem condition_eq : ∀ c : Option Condition,
    condition ctx c = visitAll ctx (Visits.condition c)
  | none => by rw [condition, Visits.condition, visitAll_nil]
  | some (.mk _ e) => by rw [condition, Visits.condition, optional_eq e]

theorem branch_eq : ∀ b : Branch, branch ctx b = visitAll ctx (Visits.branch b)
  | .mk c b _ => by
    rw [branch, Visits.branch, visitAll_append, condition_eq c, braced_eq b]

theorem elseIfs_eq : ∀ es : List ElseIf, elseIfs ctx es = visitAll ctx (Visits.elseIfs es)
  | [] => by rw [elseIfs, Visits.elseIfs, visitAll_nil]
  | .mk _ b _ :: rest => by
    rw [elseIfs, Visits.elseIfs, elseIf, Visits.elseIf, visitAll_append, branch_eq b,
      elseIfs_eq rest]

theorem otherwise_eq : ∀ o : Option Otherwise,
    otherwise ctx o = visitAll ctx (Visits.otherwise o)
  | none => by rw [otherwise, Visits.otherwise, visitAll_nil]
  | some (.mk _ b _) => by rw [otherwise, Visits.otherwise, braced_eq b]

theorem braced_eq : ∀ b : Option Braced, braced ctx b = visitAll ctx (Visits.block? b)
  | none => by rw [braced, Visits.block?, visitAll_nil]
  | some (.mk _ b) => by
    rw [braced, Visits.block?, Visits.braced, block_eq_visitAll b, ← framed_visitAll]
    rfl

theorem statements_eq : ∀ ss : List Statement,
    statements ctx ss = visitAll ctx (Visits.statements ss)
  | [] => by rw [statements, Visits.statements, visitAll_nil]
  | s :: rest => by
    rw [statements, Visits.statements, visitAll_append, statement_eq s, statements_eq rest]

theorem last_eq : ∀ l : LastStatement, last ctx l = visitAll ctx (Visits.last l)
  | .return _ vs _ => by rw [last, Visits.last, items_eq vs]
  | .break _ | .continue _ => by simp only [last, Visits.last, visitAll_nil]

/-- **The walk over a block is its visits, one after the other.** -/
theorem block_eq_visitAll : ∀ b : Block, block ctx b = visitAll ctx (Visits.block b)
  | .mk ss none _ => by rw [block, Visits.block, statements_eq ss]
  | .mk ss (some l) _ => by
    rw [block, Visits.block, visitAll_append, statements_eq ss, last_eq l]

end

end Walk

end CommandScript
