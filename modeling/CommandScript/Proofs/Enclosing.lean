import CommandScript.Proofs.Phrases
/-!
# CommandScript — parts lie within parts

The children of a part stand one behind the other, and the span of the part goes around
them. What can fall outside is a branch of which neither the condition nor the block is
there: nothing was read for it, so it spans no text, and it stands where the next token
begins, which may be beyond the end of what was read for the part it belongs to.

That the order holds beside such a branch is a matter of the shape of trees: a block
stands behind a token, and never beside a bare branch (`Outline.Framed`). The rest is
read off the way a tree is built.
-/

namespace CommandScript

namespace Outline

/-! ## The shape of trees -/

mutual

/-- The parts of a tree, each with its children; tokens are left out. -/
def nodes : Outline → List (Node × List Outline)
  | token _ => []
  | node p cs => (p, cs) :: nodesOfAll cs

def nodesOfAll : List Outline → List (Node × List Outline)
  | [] => []
  | o :: rest => nodes o ++ nodesOfAll rest

end

theorem nodesOfAll_append (os os' : List Outline) :
    nodesOfAll (os ++ os') = nodesOfAll os ++ nodesOfAll os' := by
  induction os with
  | nil => rfl
  | cons o rest ih => rw [List.cons_append, nodesOfAll, nodesOfAll, ih, List.append_assoc]

/-- The outline of a block. -/
def isBlock : Outline → Bool
  | node (.block _) _ => true
  | _ => false

/-- The outline of a branch of which nothing is there. -/
def isBare : Outline → Bool
  | node p _ => p.isBare
  | token _ => false

/-- Neither blocks nor bare branches. -/
def Plain (os : List Outline) : Prop := ∀ o ∈ os, o.isBlock = false ∧ o.isBare = false

/-- Not both blocks and bare branches. -/
def Apart (os : List Outline) : Prop :=
  (∀ o ∈ os, o.isBlock = false) ∨ ∀ o ∈ os, o.isBare = false

/-- Where there are blocks, there are no bare branches, and a token is first. -/
def Framed (os : List Outline) : Prop :=
  (∀ o ∈ os, o.isBlock = false) ∨
    (∃ t rest, os = token t :: rest) ∧ ∀ o ∈ os, o.isBare = false

/-- All parts of a tree, each with its children, have a property. -/
def All (P : Outline → Prop) (o : Outline) : Prop := ∀ q ∈ o.nodes, P (.node q.1 q.2)

/-- All parts of some trees have a property. -/
def AllOf (P : Outline → Prop) (os : List Outline) : Prop := ∀ q ∈ nodesOfAll os, P (.node q.1 q.2)

/-- The children of a part are framed. -/
def IsFramed (o : Outline) : Prop := Framed o.children

/-- The children of every part are framed. -/
abbrev FramedIn (o : Outline) : Prop := o.All IsFramed

/-- The children of every part in some outlines are framed. -/
abbrev FramedInAll (os : List Outline) : Prop := AllOf IsFramed os

variable {os os' : List Outline} {o : Outline} {p : Node} {P : Outline → Prop}

@[simp] theorem isFramed_node : (node p os).IsFramed ↔ Framed os := Iff.rfl

theorem Framed.apart (h : Framed os) : Apart os := h.imp_right And.right

@[simp] theorem plain_nil : Plain [] := nofun

@[simp] theorem plain_cons :
    Plain (o :: os) ↔ (o.isBlock = false ∧ o.isBare = false) ∧ Plain os :=
  List.forall_mem_cons

@[simp] theorem plain_append : Plain (os ++ os') ↔ Plain os ∧ Plain os' :=
  List.forall_mem_append

@[simp] theorem plain_token (t : Token) : (token t).isBlock = false ∧ (token t).isBare = false :=
  ⟨rfl, rfl⟩

@[simp] theorem plain_map_token (ts : List Token) : Plain (ts.map token) := by
  induction ts with
  | nil => exact plain_nil
  | cons t rest ih => exact plain_cons.2 ⟨plain_token t, ih⟩

@[simp] theorem plain_ofTokens (ts : List (Option Token)) : Plain (ofTokens ts) := by
  induction ts with
  | nil => exact plain_nil
  | cons t rest ih => exact plain_append.2 ⟨plain_map_token t.toList, ih⟩

@[simp] theorem plain_bracketed (b : Brackets) : Plain (bracketed b os) ↔ Plain os := by
  simp [bracketed]

/-- What is neither a block nor a bare branch is framed. -/
theorem Plain.framed (h : Plain os) : Framed os := .inl fun o ho => (h o ho).1

@[simp] theorem allOf_nil : AllOf P [] := nofun

@[simp] theorem allOf_cons : AllOf P (o :: os) ↔ o.All P ∧ AllOf P os := by
  unfold AllOf
  rw [nodesOfAll, List.forall_mem_append]
  rfl

@[simp] theorem allOf_append : AllOf P (os ++ os') ↔ AllOf P os ∧ AllOf P os' := by
  unfold AllOf
  rw [nodesOfAll_append, List.forall_mem_append]

@[simp] theorem all_token (t : Token) : (token t).All P := nofun

@[simp] theorem all_node : (node p os).All P ↔ P (node p os) ∧ AllOf P os := by
  unfold All
  rw [nodes, List.forall_mem_cons]
  rfl

@[simp] theorem allOf_map_token (ts : List Token) : AllOf P (ts.map token) := by
  induction ts with
  | nil => exact allOf_nil
  | cons t rest ih => exact allOf_cons.2 ⟨all_token t, ih⟩

@[simp] theorem allOf_ofTokens (ts : List (Option Token)) : AllOf P (ofTokens ts) := by
  induction ts with
  | nil => exact allOf_nil
  | cons t rest ih => exact allOf_append.2 ⟨allOf_map_token t.toList, ih⟩

@[simp] theorem allOf_bracketed (b : Brackets) : AllOf P (bracketed b os) ↔ AllOf P os := by
  simp [bracketed]

/-! ### Parts that are neither blocks nor bare branches -/

@[simp] theorem plain_ofVar (v : Var) :
    (ofVar v).isBlock = false ∧ (ofVar v).isBare = false := by
  cases v; exact ⟨rfl, rfl⟩

@[simp] theorem plain_ofCommand (c : Command) :
    (ofCommand c).isBlock = false ∧ (ofCommand c).isBare = false := by
  cases c; exact ⟨rfl, rfl⟩

@[simp] theorem plain_ofCall (c : Call) :
    (ofCall c).isBlock = false ∧ (ofCall c).isBare = false := by
  cases c; exact ⟨rfl, rfl⟩

@[simp] theorem plain_ofBody (b : FunctionBody) :
    (ofBody b).isBlock = false ∧ (ofBody b).isBare = false := by
  cases b; exact ⟨rfl, rfl⟩

@[simp] theorem plain_ofExpression (e : Expression) :
    (ofExpression e).isBlock = false ∧ (ofExpression e).isBare = false := by
  cases e with
  | var v => exact plain_ofVar v
  | call c => exact plain_ofCall c
  | _ => exact ⟨rfl, rfl⟩

@[simp] theorem plain_ofField (f : TableField) :
    (ofField f).isBlock = false ∧ (ofField f).isBare = false := by
  cases f <;> exact ⟨rfl, rfl⟩

@[simp] theorem plain_ofRoot (r : VarRoot) :
    (ofRoot r).isBlock = false ∧ (ofRoot r).isBare = false := by
  cases r <;> exact ⟨rfl, rfl⟩

@[simp] theorem plain_ofSuffix (s : VarSuffix) :
    (ofSuffix s).isBlock = false ∧ (ofSuffix s).isBare = false := by
  cases s <;> exact ⟨rfl, rfl⟩

@[simp] theorem plain_ofStatement (s : Statement) :
    (ofStatement s).isBlock = false ∧ (ofStatement s).isBare = false := by
  cases s with
  | command c => exact plain_ofCommand c
  | call c => exact plain_ofCall c
  | _ => exact ⟨rfl, rfl⟩

@[simp] theorem plain_ofElseIf (e : ElseIf) :
    (ofElseIf e).isBlock = false ∧ (ofElseIf e).isBare = false := by
  cases e; exact ⟨rfl, rfl⟩

@[simp] theorem plain_ofOtherwise (o : Otherwise) :
    (ofOtherwise o).isBlock = false ∧ (ofOtherwise o).isBare = false := by
  cases o; exact ⟨rfl, rfl⟩

@[simp] theorem plain_ofLast (l : LastStatement) :
    (ofLast l).isBlock = false ∧ (ofLast l).isBare = false := by
  cases l <;> exact ⟨rfl, rfl⟩

section

variable {α : Type} {outline : α → Outline}

theorem plain_ofSeparated
    (h : ∀ a, (outline a).isBlock = false ∧ (outline a).isBare = false) (items : Separated α) :
    Plain (ofSeparated outline items) := by
  induction items with
  | nil => exact plain_nil
  | cons i rest ih =>
    rw [ofSeparated_cons]
    refine plain_append.2 ⟨plain_append.2 ⟨?_, plain_ofTokens _⟩, ih⟩
    exact List.forall_mem_map.2 fun a _ => h a

theorem framedInAll_ofSeparated {items : Separated α}
    (h : ∀ i ∈ items, ∀ a ∈ i.value, (outline a).FramedIn) :
    FramedInAll (ofSeparated outline items) := by
  induction items with
  | nil => exact allOf_nil
  | cons i rest ih =>
    obtain ⟨hi, hrest⟩ := List.forall_mem_cons.1 h
    rw [ofSeparated_cons]
    refine allOf_append.2 ⟨allOf_append.2 ⟨?_, allOf_ofTokens _⟩, ih hrest⟩
    cases hv : i.value with
    | none => exact allOf_nil
    | some a => exact allOf_cons.2 ⟨hi a hv, allOf_nil⟩

end

@[simp] theorem plain_ofOptional (e : Option Expression) : Plain (ofOptional e) := by
  cases e <;> simp [ofOptional]

@[simp] theorem plain_ofItems (items : Separated Expression) : Plain (ofItems items) :=
  ofItems_eq items ▸ plain_ofSeparated plain_ofExpression items

@[simp] theorem plain_ofFields (items : Separated TableField) : Plain (ofFields items) :=
  ofFields_eq items ▸ plain_ofSeparated plain_ofField items

@[simp] theorem plain_ofParameters (items : Separated Token) : Plain (ofParameters items) :=
  ofParameters_eq items ▸ plain_ofSeparated plain_token items

@[simp] theorem plain_ofSuffixes (ss : List VarSuffix) : Plain (ofSuffixes ss) := by
  induction ss <;> simp_all [ofSuffixes]

@[simp] theorem plain_ofArguments (es : List Expression) : Plain (ofArguments es) := by
  induction es <;> simp_all [ofArguments]

@[simp] theorem plain_ofStatements (ss : List Statement) : Plain (ofStatements ss) := by
  induction ss <;> simp_all [ofStatements]

@[simp] theorem plain_ofElseIfs (es : List ElseIf) : Plain (ofElseIfs es) := by
  induction es <;> simp_all [ofElseIfs]

@[simp] theorem plain_ofOptionalCommand (c : Option Command) : Plain (ofOptionalCommand c) := by
  cases c <;> simp [ofOptionalCommand]

@[simp] theorem plain_ofOptionalOtherwise (o : Option Otherwise) :
    Plain (ofOptionalOtherwise o) := by
  cases o <;> simp [ofOptionalOtherwise]

@[simp] theorem plain_ofOptionalLast (l : Option LastStatement) : Plain (ofOptionalLast l) := by
  cases l <;> simp [ofOptionalLast]

@[simp] theorem plain_ofOptionalCondition (c : Option Condition) :
    Plain (ofOptionalCondition c) := by
  cases c with
  | none => exact plain_nil
  | some c => cases c; simp [ofOptionalCondition, ofCondition]

/-- A block between braces is no bare branch. -/
theorem not_isBare_ofOptionalBraced (b : Option Braced) :
    ∀ o ∈ ofOptionalBraced b, o.isBare = false := by
  cases b with
  | none => nofun
  | some b =>
    obtain ⟨b, ⟨ss, l, s⟩⟩ := b
    have hright := plain_ofTokens [b.right]
    simp only [ofOptionalBraced, ofBraced, bracketed, ofBlock, List.cons_append,
      List.forall_mem_cons, List.nil_append]
    exact ⟨rfl, rfl, fun o ho => (hright o ho).2⟩

/-- Behind a token and plain parts, a block may stand between braces. -/
theorem framed_braced (t : Token) (h : Plain os) (b : Option Braced) :
    Framed (token t :: (os ++ ofOptionalBraced b)) := by
  refine .inr ⟨⟨t, _, rfl⟩, List.forall_mem_cons.2 ⟨rfl, List.forall_mem_append.2 ⟨?_, ?_⟩⟩⟩
  · exact fun o ho => (h o ho).2
  · exact not_isBare_ofOptionalBraced b

/-- A branch may be bare, where no blocks stand beside it. -/
theorem framed_branched (t : Token) (b : Branch) (h : Plain os) :
    Framed (token t :: ofBranch b :: os) := by
  refine .inl (List.forall_mem_cons.2 ⟨rfl, List.forall_mem_cons.2 ⟨?_, fun o ho => (h o ho).1⟩⟩)
  cases b
  rfl

section

attribute [local simp] ofOptional ofItem ofItems ofOptionalField ofFieldItem ofFields ofSuffixes
  ofArguments ofOptionalCommand ofStatements ofCondition ofOptionalCondition ofElseIfs
  ofOptionalOtherwise ofBraced ofOptionalBraced ofOptionalLast Plain.framed

mutual

/-- **The children of every part of a tree are framed.** -/
theorem framedIn_expression : ∀ e : Expression, (ofExpression e).FramedIn
  | .nil t | .boolean t | .number t | .string t => by simp [ofExpression]
  | .binary l o r s => by simp [ofExpression, framedIn_expression l, framedInAll_optional r]
  | .unary o v s => by simp [ofExpression, framedInAll_optional v]
  | .vector b is s => by simp [ofExpression, framedInAll_items is]
  | .table b fs s => by simp [ofExpression, framedInAll_fields fs]
  | .lambda b => by simp [ofExpression, framedIn_body b]
  | .group b i s => by simp [ofExpression, framedInAll_optional i]
  | .var v => by simpa [ofExpression] using framedIn_var v
  | .call c => by simpa [ofExpression] using framedIn_call c
  | .skipped k => by simp [ofExpression, ofSkipped]

theorem framedInAll_optional : ∀ e : Option Expression, FramedInAll (ofOptional e)
  | none => by simp
  | some e => by simp [framedIn_expression e]

theorem framedInAll_item : ∀ i : SeparatedItem Expression, FramedInAll (ofItem i)
  | ⟨v, s, _⟩ => by simp [framedInAll_optional v]

theorem framedInAll_items : ∀ is : List (SeparatedItem Expression), FramedInAll (ofItems is)
  | [] => by simp
  | i :: rest => by simp [framedInAll_item i, framedInAll_items rest]

theorem framedIn_field : ∀ f : TableField, (ofField f).FramedIn
  | .named n q v s => by simp [ofField, framedInAll_optional v]
  | .keyed b k q v s => by simp [ofField, framedInAll_optional k, framedInAll_optional v]
  | .positional v s => by simp [ofField, framedIn_expression v]

theorem framedInAll_optionalField : ∀ f : Option TableField, FramedInAll (ofOptionalField f)
  | none => by simp
  | some f => by simp [framedIn_field f]

theorem framedInAll_fieldItem : ∀ i : SeparatedItem TableField, FramedInAll (ofFieldItem i)
  | ⟨v, s, _⟩ => by simp [framedInAll_optionalField v]

theorem framedInAll_fields : ∀ fs : List (SeparatedItem TableField), FramedInAll (ofFields fs)
  | [] => by simp
  | i :: rest => by simp [framedInAll_fieldItem i, framedInAll_fields rest]

theorem framedIn_body : ∀ b : FunctionBody, (ofBody b).FramedIn
  | .mk b ps bl s => by
    have hframed := framed_braced b.left
      (plain_append.2 ⟨plain_ofParameters ps, plain_ofTokens [b.right]⟩) bl
    have hps : FramedInAll (ofParameters ps) := by
      rw [ofParameters_eq]
      exact framedInAll_ofSeparated fun _ _ t _ => all_token t
    exact all_node.2 ⟨hframed, allOf_append.2
      ⟨(allOf_bracketed b).2 hps, framedInAll_optionalBraced bl⟩⟩

theorem framedIn_root : ∀ r : VarRoot, (ofRoot r).FramedIn
  | .bare t => by simp [ofRoot]
  | .named d n s => by simp [ofRoot]
  | .computed d b i s => by simp [ofRoot, framedInAll_optional i]

theorem framedIn_suffix : ∀ s : VarSuffix, (ofSuffix s).FramedIn
  | .field p n s => by simp [ofSuffix]
  | .index p b i s => by simp [ofSuffix, framedInAll_optional i]

theorem framedInAll_suffixes : ∀ ss : List VarSuffix, FramedInAll (ofSuffixes ss)
  | [] => by simp
  | s :: rest => by simp [framedIn_suffix s, framedInAll_suffixes rest]

theorem framedIn_var : ∀ v : Var, (ofVar v).FramedIn
  | .mk r ss s => by simp [ofVar, framedIn_root r, framedInAll_suffixes ss]

theorem framedInAll_arguments : ∀ es : List Expression, FramedInAll (ofArguments es)
  | [] => by simp
  | e :: rest => by simp [framedIn_expression e, framedInAll_arguments rest]

theorem framedIn_command : ∀ c : Command, (ofCommand c).FramedIn
  | .mk v as s => by simp [ofCommand, framedIn_var v, framedInAll_arguments as]

theorem framedInAll_optionalCommand : ∀ c : Option Command, FramedInAll (ofOptionalCommand c)
  | none => by simp
  | some c => by simp [framedIn_command c]

theorem framedIn_call : ∀ c : Call, (ofCall c).FramedIn
  | .mk a c s => by simp [ofCall, framedInAll_optionalCommand c]

theorem framedIn_statement : ∀ s : Statement, (ofStatement s).FramedIn
  | .command c => by simpa [ofStatement] using framedIn_command c
  | .call c => by simpa [ofStatement] using framedIn_call c
  | .expression e => by simp [ofStatement, framedIn_expression e]
  | .assign v q e s => by simp [ofStatement, framedIn_var v, framedInAll_optional e]
  | .conditional t f es o s => by
    have hframed := framed_branched t f
      (plain_append.2 ⟨plain_ofElseIfs es, plain_ofOptionalOtherwise o⟩)
    simpa [ofStatement, framedIn_branch f, framedInAll_elseIfs es, framedInAll_optionalOtherwise o]
      using hframed
  | .whileLoop t c b s => by
    have hframed := framed_braced t (plain_ofOptionalCondition c) b
    simpa [ofStatement, framedInAll_optionalCondition c, framedInAll_optionalBraced b] using hframed
  | .forLoop t c b s => by
    simp [ofStatement, framedInAll_optionalCondition c, framedInAll_optional b]
  | .skipped k => by simp [ofStatement, ofSkipped]

theorem framedInAll_statements : ∀ ss : List Statement, FramedInAll (ofStatements ss)
  | [] => by simp
  | s :: rest => by simp [framedIn_statement s, framedInAll_statements rest]

theorem framedInAll_optionalCondition :
    ∀ c : Option Condition, FramedInAll (ofOptionalCondition c)
  | none => by simp
  | some (.mk b i) => by simp [framedInAll_optional i]

theorem framedIn_branch : ∀ b : Branch, (ofBranch b).FramedIn
  | .mk (some (.mk b i)) bl s => by
    have hframed := framed_braced b.left
      (plain_append.2 ⟨plain_ofOptional i, plain_ofTokens [b.right]⟩) bl
    exact all_node.2 ⟨hframed, allOf_append.2
      ⟨(allOf_bracketed b).2 (framedInAll_optional i), framedInAll_optionalBraced bl⟩⟩
  | .mk none (some (.mk b bl)) s => by
    refine all_node.2 ⟨.inr ⟨⟨b.left, _, rfl⟩, ?_⟩, framedInAll_optionalBraced _⟩
    exact not_isBare_ofOptionalBraced (some (.mk b bl))
  | .mk none none s => all_node.2 ⟨plain_nil.framed, allOf_nil⟩

theorem framedInAll_elseIfs : ∀ es : List ElseIf, FramedInAll (ofElseIfs es)
  | [] => by simp
  | .mk t b s :: rest => by
    have hframed := framed_branched t b plain_nil
    simpa [ofElseIf, framedIn_branch b, framedInAll_elseIfs rest] using hframed

theorem framedInAll_optionalOtherwise :
    ∀ o : Option Otherwise, FramedInAll (ofOptionalOtherwise o)
  | none => by simp
  | some (.mk t b s) => by
    have hframed := framed_braced t plain_nil b
    simpa [ofOtherwise, framedInAll_optionalBraced b] using hframed

theorem framedInAll_optionalBraced : ∀ b : Option Braced, FramedInAll (ofOptionalBraced b)
  | none => by simp
  | some (.mk b bl) => by simp [framedIn_block bl]

theorem framedInAll_optionalLast : ∀ l : Option LastStatement, FramedInAll (ofOptionalLast l)
  | none => by simp
  | some (.continue t) | some (.break t) => by simp [ofLast]
  | some (.return t vs s) => by simp [ofLast, framedInAll_items vs]

theorem framedIn_block : ∀ b : Block, (ofBlock b).FramedIn
  | .mk ss l s => by simp [ofBlock, framedInAll_statements ss, framedInAll_optionalLast l]

end

end

end Outline

/-! ## Places of what is built -/

open Outline

/-- A part goes around its children, which stand one behind the other. A bare branch may
stand behind the end of the part. -/
structure Orderly (p : Node) (cs : List Outline) : Prop where
  ordered : cs.Pairwise fun o o' => o.span.stop ≤ o'.span.start
  start : ∀ o ∈ cs, p.span.start ≤ o.span.start
  stop : ∀ o ∈ cs, o.span.stop ≤ p.span.stop ∨ o.isBare = true ∧ o.span.stop = o.span.start

/-- The block of a whole text, or what cannot be told from it. -/
def Outline.SpansText (o : Outline) : Prop := o.isBlock = true ∧ o.span.start = 0

/-- Where a part stands that was built between two cursors. -/
structure Lies (c d : Cursor) (o : Outline) : Prop where
  behind : c.lastStop ≤ o.span.start
  start : o.isBlock = false → c.offset ≤ o.span.start
  filled : ∀ t, o = .token t → t.span.start < t.span.stop
  stop : o.span.stop ≤ d.lastStop ∨
    (o.isBare = true ∧ o.span.stop = o.span.start ∧ o.span.stop ≤ d.offset) ∨ o.SpansText

namespace Lies

variable {c d e : Cursor} {ts : List Token} {o : Outline}

/-- What was built behind a cursor was built behind an earlier one. -/
theorem later (h : Lies d e o) (hc : c.Sound) (hcd : c.Moved ts d) : Lies c e o where
  behind := Nat.le_trans (hc.lastStop_le_lastStop hcd) h.behind
  start hblock := Nat.le_trans (hc.offset_le_offset hcd) (h.start hblock)
  filled := h.filled
  stop := h.stop

/-- What was built before a cursor was built before a later one. -/
theorem sooner (h : Lies c d o) (hd : d.Sound) (hde : d.Moved ts e) : Lies c e o where
  behind := h.behind
  start := h.start
  filled := h.filled
  stop := by
    obtain hstop | ⟨hbare, hpoint, hstop⟩ | htext := h.stop
    · exact .inl (Nat.le_trans hstop (hd.lastStop_le_lastStop hde))
    · exact .inr (.inl ⟨hbare, hpoint, Nat.le_trans hstop (hd.offset_le_offset hde)⟩)
    · exact .inr (.inr htext)

end Lies

/-- What is known of the places of all that was built between two cursors. -/
structure Laid (c : Cursor) (os : List Outline) (d : Cursor) : Prop where
  nodes : ∀ q ∈ nodesOfAll os, Orderly q.1 q.2
  lies : ∀ o ∈ os, Lies c d o
  ordered : Apart os → os.Pairwise fun o o' => o.span.stop ≤ o'.span.start ∨ o.SpansText

namespace Laid

variable {c d e : Cursor} {ts : List Token} {os os' : List Outline} {p : Node} {b : Block}

theorem append (hc : c.Sound) (hd : d.Sound) (hcd : c.Moved ts d) {us : List Token}
    (hde : d.Moved us e) (h : Laid c os d) (h' : Laid d os' e) : Laid c (os ++ os') e where
  nodes := by
    rw [nodesOfAll_append]
    exact List.forall_mem_append.2 ⟨h.nodes, h'.nodes⟩
  lies := List.forall_mem_append.2
    ⟨fun o ho => (h.lies o ho).sooner hd hde, fun o ho => (h'.lies o ho).later hc hcd⟩
  ordered hapart := by
    have hsplit : Apart os ∧ Apart os' := by
      obtain h | h := hapart
      · exact ⟨.inl (List.forall_mem_append.1 h).1, .inl (List.forall_mem_append.1 h).2⟩
      · exact ⟨.inr (List.forall_mem_append.1 h).1, .inr (List.forall_mem_append.1 h).2⟩
    refine List.pairwise_append.2 ⟨h.ordered hsplit.1, h'.ordered hsplit.2, fun o ho o' ho' => ?_⟩
    obtain hstop | ⟨hbare, -, hstop⟩ | htext := (h.lies o ho).stop
    · exact .inl (Nat.le_trans hstop (h'.lies o' ho').behind)
    · -- nothing but a block can begin before the token that a bare branch stands at
      have hblock : o'.isBlock = false := by
        obtain hblocks | hbares := hapart
        · exact hblocks o' (List.mem_append_right _ ho')
        · rw [hbares o (List.mem_append_left _ ho)] at hbare
          cases hbare
      exact .inl (Nat.le_trans hstop ((h'.lies o' ho').start hblock))
    · exact .inr htext

/-- The children of a part stand one behind the other, between the two cursors: none of
them spans the text, for one that is a block stands behind a token. -/
theorem framed (h : Laid c os d) (hframed : Framed os) :
    os.Pairwise (fun o o' => o.span.stop ≤ o'.span.start) ∧ ∀ o ∈ os, c.offset ≤ o.span.start ∧
      (o.span.stop ≤ d.lastStop ∨ o.isBare = true ∧ o.span.stop = o.span.start) := by
  have hordered := h.ordered hframed.apart
  have hinner : ∀ o ∈ os, c.offset ≤ o.span.start ∧ ¬ o.SpansText := by
    obtain hblocks | ⟨⟨t, rest, rfl⟩, -⟩ := hframed
    · intro o ho
      refine ⟨(h.lies o ho).start (hblocks o ho), fun htext => ?_⟩
      exact absurd htext.1 (by rw [hblocks o ho]; exact Bool.false_ne_true)
    · have hfirst := h.lies (.token t) List.mem_cons_self
      have hstart : c.offset ≤ t.span.start := hfirst.start rfl
      have hfilled := hfirst.filled t rfl
      refine List.forall_mem_cons.2 ⟨⟨hstart, fun htext => Bool.false_ne_true htext.1⟩, ?_⟩
      intro o ho
      have hbehind : t.span.stop ≤ o.span.start :=
        ((List.pairwise_cons.1 hordered).1 o ho).resolve_right fun htext =>
          Bool.false_ne_true htext.1
      refine ⟨by omega, fun htext => ?_⟩
      have hzero := htext.2
      omega
  refine ⟨?_, fun o ho => ⟨(hinner o ho).1, ?_⟩⟩
  · refine (List.Pairwise.and_mem.1 hordered).imp fun h => h.2.2.resolve_right ?_
    exact (hinner _ h.1).2
  · obtain hstop | ⟨hbare, hpoint, -⟩ | htext := (h.lies o ho).stop
    · exact .inl hstop
    · exact .inr ⟨hbare, hpoint⟩
    · exact absurd htext (hinner o ho).2

/-- The parts in a part are the part itself and those in its children. -/
theorem nodes_node (h : Laid c os d) (hp : Orderly p os) :
    ∀ q ∈ nodesOfAll [.node p os], Orderly q.1 q.2 := by
  have hnodes : nodesOfAll [.node p os] = (p, os) :: nodesOfAll os := by
    rw [nodesOfAll, nodesOfAll, List.append_nil, Outline.nodes]
  rw [hnodes]
  exact List.forall_mem_cons.2 ⟨hp, h.nodes⟩

/-- A part that spans what was read for it goes around its children. -/
theorem node (hc : c.Sound) (hcd : c.Moved ts d) (h : Laid c os d) (hframed : Framed os)
    (hspan : p.span = d.spanFrom c.offset)
    (hread : d.upcoming.length < c.upcoming.length ∨ p.isBare = true) :
    Laid c [.node p os] d := by
  obtain ⟨hordered, hinner⟩ := h.framed hframed
  have hstart : p.span.start = c.offset := by rw [hspan]; rfl
  have hstop : p.span.stop = max c.offset d.lastStop := by rw [hspan]; rfl
  refine ⟨h.nodes_node ⟨hordered, fun o ho => ?_, fun o ho => ?_⟩, ?_, fun _ => ?_⟩
  · rw [hstart]
    exact (hinner o ho).1
  · rw [hstop]
    exact (hinner o ho).2.imp_left fun h => Nat.le_trans h (Nat.le_max_right _ _)
  · refine List.forall_mem_singleton.2 ⟨?_, fun _ => Nat.le_of_eq hstart.symm, nofun, ?_⟩
    · change c.lastStop ≤ p.span.start
      rw [hstart]
      exact hc.lastStop_le
    · change p.span.stop ≤ d.lastStop ∨
        (p.isBare = true ∧ p.span.stop = p.span.start ∧ p.span.stop ≤ d.offset) ∨ _
      rw [hstop, hstart]
      by_cases hlt : d.upcoming.length < c.upcoming.length
      · exact .inl (Nat.max_le.2 ⟨hc.offset_le_lastStop hcd hlt, Nat.le_refl _⟩)
      · -- nothing was read, so the part is a bare branch at the next token
        have hnothing : ts = [] := List.eq_nil_of_length_eq_zero (by have := hcd.length_add; omega)
        subst hnothing
        have hlast : d.lastStop = c.lastStop := by
          rw [Cursor.lastStop, Cursor.lastStop, hcd.last_nil]
        have hpoint : max c.offset d.lastStop = c.offset := by
          rw [hlast]
          exact Nat.max_eq_left hc.lastStop_le
        refine .inr (.inl ⟨hread.resolve_left hlt, hpoint, ?_⟩)
        rw [hpoint]
        exact hc.offset_le_offset hcd
  · exact List.pairwise_singleton _ _

/-- A block goes around its children, also where it spans the whole text. -/
theorem block (hc : c.Sound) (hd : d.Sound) (hcd : c.Moved ts d) (h : Laid c os d)
    (hframed : Framed os) (hspan : d.BlockSpan c b.span) : Laid c [.node (.block b) os] d := by
  obtain ⟨hordered, hinner⟩ := h.framed hframed
  have hlast := hc.lastStop_le_lastStop hcd
  have hbehind := hc.lastStop_le
  obtain ⟨hstart, hstop, htext⟩ : b.span.start = c.lastStop ∧ d.lastStop ≤ b.span.stop ∧
      (b.span.stop ≤ d.lastStop ∨ b.span.start = 0) := by
    obtain hspan | ⟨hzero, -, hspan⟩ := hspan
    · rw [hspan]
      exact ⟨rfl, Nat.le_max_right _ _, .inl (Nat.max_le.2 ⟨hlast, Nat.le_refl _⟩)⟩
    · rw [hspan]
      refine ⟨hzero.symm, ?_, .inr rfl⟩
      have hend := hd.ended
      rwa [hcd.ending, hc.closing] at hend
  refine ⟨h.nodes_node ⟨hordered, fun o ho => ?_, fun o ho => ?_⟩, ?_, fun _ => ?_⟩
  · change b.span.start ≤ _
    have hin := (hinner o ho).1
    omega
  · exact (hinner o ho).2.imp_left fun h => Nat.le_trans h hstop
  · refine List.forall_mem_singleton.2 ⟨Nat.le_of_eq hstart.symm, nofun, nofun, ?_⟩
    exact htext.imp_right fun hzero => .inr ⟨rfl, hzero⟩
  · exact List.pairwise_singleton _ _

theorem nil (c d : Cursor) : Laid c [] d := ⟨nofun, nofun, fun _ => .nil⟩

theorem token {t : Token} (hc : c.Sound) (h : c.Moved [t] d) : Laid c [.token t] d := by
  have hfilled := hc.filled t (by rw [h.upcoming]; exact List.mem_cons_self)
  have hoffset := (hc.offset_lt h).1
  have hbehind := hc.lastStop_le
  refine ⟨nofun, List.forall_mem_singleton.2 ⟨?_, fun _ => Nat.le_of_eq hoffset, ?_, .inl ?_⟩,
    fun _ => List.pairwise_singleton _ _⟩
  · change c.lastStop ≤ t.span.start
    omega
  · rintro _ ⟨⟩
    exact hfilled
  · exact Nat.le_of_eq h.lastStop_one.symm

end Laid

/-- **What is built is laid out in order.** -/
theorem Built.laid {c d : Cursor} {os : List Outline} (h : Built c os d) (hc : c.Sound)
    (hframed : FramedInAll os) : Laid c os d := by
  induction h with
  | passed => exact .nil _ _
  | token h => exact .token hc h.toMoved
  | append hfirst hsecond ih ih' =>
    obtain ⟨hframed, hframed'⟩ := allOf_append.1 hframed
    obtain ⟨ts, h⟩ := hfirst.moved
    obtain ⟨us, h'⟩ := hsecond.moved
    have hd := h.sound hc
    exact .append hc hd h h' (ih hc hframed) (ih' hd hframed')
  | node hos hspan _ hread _ _ _ ih =>
    obtain ⟨hp, hframed⟩ := all_node.1 (allOf_cons.1 hframed).1
    obtain ⟨ts, h⟩ := hos.moved
    exact .node hc h (ih hc hframed) hp hspan hread
  | block hos _ hspan ih =>
    obtain ⟨hp, hframed⟩ := all_node.1 (allOf_cons.1 hframed).1
    obtain ⟨ts, h⟩ := hos.moved
    exact .block hc (h.sound hc) h (ih hc hframed) hp hspan
  | left hos hos' _ _ hpassed _ hb ih ih' =>
    obtain ⟨hp, hframed⟩ := all_node.1 (allOf_cons.1 hframed).1
    obtain ⟨hframed, hframed'⟩ := allOf_append.1 hframed
    obtain ⟨ts, h⟩ := hos.moved
    obtain ⟨us, h'⟩ := hos'.moved
    have hd := h.sound hc
    have he := h'.sound hd
    have hpassed := hpassed.toMoved
    have hall := Laid.append hc hd h (h'.trans hpassed) (ih hc hframed)
      (.append hd he h' hpassed (ih' hd hframed') (.nil _ _))
    rw [List.append_nil] at hall
    exact .block hc (hpassed.sound he) (h.trans (h'.trans hpassed)) hall hp hb

/-- The parts of the tree of a text go around their children. -/
theorem orderly_of_parse {text : String} {limit : Nat} {b : Block}
    (h : (parse text limit).block = some b) :
    ∀ q ∈ (ofBlock b).nodes, Orderly q.1 q.2 := by
  obtain ⟨d, hbuilt, -, -⟩ := exists_built_of_parse h
  obtain ⟨-, -, -, -, -, -, hsound⟩ := Cursor.ofTokens_tokenize text
  have hlaid := hbuilt.laid hsound (allOf_cons.2 ⟨framedIn_block b, allOf_nil⟩)
  intro q hq
  exact hlaid.nodes q (by rwa [nodesOfAll, nodesOfAll, List.append_nil])

/-- **The children of a part stand within it, one behind the other**, whatever the text.
The one exception is a branch without condition and block: it spans no text, and where
blanks or the like stand behind its keyword it begins beyond the end of the part that it
belongs to. -/
theorem children_enclosed {text : String} {limit : Nat} {b : Block}
    (h : (parse text limit).block = some b) :
    ∀ p cs, (p, cs) ∈ (ofBlock b).nodes →
      cs.Pairwise (fun o o' => o.span.stop ≤ o'.span.start) ∧
      ∀ o ∈ cs, p.span.encloses o.span = true ∨
        (o.isBare = true ∧ o.span.isEmpty = true ∧ p.span.stop < o.span.start) := by
  intro p cs hp
  have hall := orderly_of_parse h (p, cs) hp
  refine ⟨hall.ordered, fun o ho => ?_⟩
  have hstart := hall.start o ho
  simp only [Span.encloses, Span.isEmpty, Bool.and_eq_true, decide_eq_true_eq, beq_iff_eq]
  obtain hstop | ⟨hbare, hpoint⟩ := hall.stop o ho
  · exact .inl ⟨hstart, hstop⟩
  · by_cases hin : o.span.stop ≤ p.span.stop
    · exact .inl ⟨hstart, hin⟩
    · exact .inr ⟨hbare, hpoint.symm, by omega⟩

/-- A blank behind `if`, and no condition: the branch begins behind the blank, and the
statement ends before it. -/
theorem children_enclosed_blank :
    ∃ b, (parse "if  x").block = some b ∧
      (∀ p cs, (p, cs) ∈ (ofBlock b).nodes →
        cs.Pairwise (fun o o' => o.span.stop ≤ o'.span.start) ∧
        ∀ o ∈ cs, p.span.encloses o.span = true ∨
          (o.isBare = true ∧ o.span.isEmpty = true ∧ p.span.stop < o.span.start)) ∧
      ∃ p cs, (p, cs) ∈ (ofBlock b).nodes ∧ ∃ o ∈ cs, p.span.encloses o.span = false := by
  obtain ⟨b, hb⟩ := Option.isSome_iff_exists.1
    (show (parse "if  x").block.isSome = true by decide +kernel)
  refine ⟨b, hb, children_enclosed hb, ?_⟩
  have hout : (parse "if  x").block.any (fun b => (ofBlock b).nodes.any fun q =>
      q.2.any fun o => !q.1.span.encloses o.span) = true := by decide +kernel
  rw [hb, Option.any_some, List.any_eq_true] at hout
  obtain ⟨⟨p, cs⟩, hp, hout⟩ := hout
  obtain ⟨o, ho, hout⟩ := List.any_eq_true.1 hout
  exact ⟨p, cs, hp, o, ho, by simpa using hout⟩

end CommandScript
