import CommandScript.Proofs.Visits
import CommandScript.Proofs.Fault
import Mathlib.Data.List.Perm.Subperm
/-!
# CommandScript — what is in sight along a row of visits

Which names are in sight where the walk calls something can be read off its visits. A
frame is put up and taken down by visits, and a name is defined by one; no other visit
changes what is in sight. So what is called in a block can be listed beforehand, each
with what is in sight there (`Visits.calls`).

The visits to one part of a tree leave the frames around it as they found them, with new
names at most in the innermost one, and each thing that is called among them begins with a
token of its own. The same holds of what is called where arguments are reviewed (`Row`).
-/

namespace CommandScript

namespace Visit

/-- What is called. -/
def callee? : Visit → Option Var
  | callee v => some v
  | _ => none

/-- What is called where the arguments have been walked over. -/
def reviewed? : Visit → Option Var
  | review c => some c.callee
  | _ => none

/-- What a visit makes of what is in sight: in the innermost frame, in the ones around it,
and at last without any frame. -/
def pass : Visit → List Sight → List Sight
  | enter names, known :: outer => known.with names :: known :: outer
  | leave, _ :: next :: outer => next :: outer
  | define r _, known :: next :: outer => known.with r.defined :: next :: outer
  | _, sights => sights

/-- The visit is to an assignment to a computed name. -/
def definesComputed : Visit → Bool
  | define (.computed ..) _ => true
  | _ => false

end Visit

namespace Visits

/-- What is in sight behind visits. -/
def behind (vs : List Visit) (sights : List Sight) : List Sight :=
  vs.foldl (fun sights v => v.pass sights) sights

/-- What is called, with what is in sight there. -/
def calls : List Visit → List Sight → List (Var × Sight)
  | [], _ => []
  | v :: rest, sights =>
    v.callee?.toList.map (·, sights.headD fun _ => false) ++ calls rest (v.pass sights)

variable {vs ws : List Visit} {sights : List Sight}

@[simp] theorem behind_nil : behind [] sights = sights := rfl

@[simp] theorem behind_cons (v : Visit) :
    behind (v :: vs) sights = behind vs (v.pass sights) := rfl

@[simp] theorem behind_append : behind (vs ++ ws) sights = behind ws (behind vs sights) :=
  List.foldl_append

theorem calls_append :
    calls (vs ++ ws) sights = calls vs sights ++ calls ws (behind vs sights) := by
  induction vs generalizing sights with
  | nil => rfl
  | cons v rest ih => rw [List.cons_append, calls, calls, ih, List.append_assoc, behind_cons]

/-- In a frame of its own, what is called has the names of the frame in sight. -/
theorem calls_framed (names : List String) (known : Sight) (outer : List Sight) :
    calls (.enter names :: vs ++ [.leave]) (known :: outer) =
      calls vs (known.with names :: known :: outer) := by
  rw [calls_append, calls]
  exact List.append_nil _

theorem map_fst_calls : (calls vs sights).map (·.1) = vs.filterMap Visit.callee? := by
  induction vs generalizing sights with
  | nil => rfl
  | cons v rest ih =>
    rw [calls, List.map_append, ih, List.map_map]
    cases v <;> rfl

end Visits

/-! ## Rows -/

open Outline

/-- The variables that are picked from visits begin with tokens of some parts, each with one
of its own. -/
def Visits.Heads (pick : Visit → Option Var) (os : List Outline) (vs : List Visit) : Prop :=
  ((vs.filterMap pick).map (·.root.head)).Subperm (tokensOfAll os)

namespace Visits.Heads

variable {pick : Visit → Option Var} {os os' : List Outline} {vs ws : List Visit}

theorem nil (os : List Outline) : Heads pick os [] := List.nil_subperm

theorem cons_none {v : Visit} (hv : pick v = none) (h : Heads pick os vs) :
    Heads pick os (v :: vs) := by
  unfold Heads
  rw [List.filterMap_cons_none hv]
  exact h

theorem mono (h : Heads pick os vs) (hos : (tokensOfAll os).Subperm (tokensOfAll os')) :
    Heads pick os' vs :=
  h.trans hos

theorem append (h : Heads pick os vs) (h' : Heads pick os' ws) :
    Heads pick (os ++ os') (vs ++ ws) := by
  unfold Heads
  rw [List.filterMap_append, List.map_append, tokensOfAll_append]
  exact List.Subperm.append h h'

theorem append_none {v : Visit} (h : Heads pick os vs) (hv : pick v = none) :
    Heads pick os (vs ++ [v]) := by
  unfold Heads
  rw [List.filterMap_append, List.filterMap_cons_none hv, List.filterMap_nil, List.append_nil]
  exact h

/-- What is picked last begins with a token that nothing else begins with. -/
theorem append_some {v : Visit} {x : Var} (h : Heads pick os vs) (hv : pick v = some x)
    (hos : tokensOfAll os' = x.root.head :: tokensOfAll os) : Heads pick os' (vs ++ [v]) := by
  unfold Heads
  rw [List.filterMap_append, List.filterMap_cons_some hv, List.filterMap_nil, List.map_append, hos]
  exact (List.perm_append_singleton _ _).subperm.trans ((List.subperm_cons _).2 h)

end Visits.Heads

/-- Visits to some parts: they bring some names into the innermost frame, and what is
called begins with tokens of these parts, each with one of its own; and so does what was
called where arguments are reviewed. -/
structure Row (os : List Outline) (names : List String) (vs : List Visit) : Prop where
  behind : ∀ known next outer,
    Visits.behind vs (known :: next :: outer) = known.with names :: next :: outer
  heads : Visits.Heads Visit.callee? os vs
  reviews : Visits.Heads Visit.reviewed? os vs

namespace Row

variable {os os' : List Outline} {names more : List String} {vs ws : List Visit}

theorem nil (os : List Outline) : Row os [] [] where
  behind known next outer := by rw [Visits.behind_nil, Sight.with_nil]
  heads := .nil os
  reviews := .nil os

/-- A visit that neither calls anything nor brings anything into sight. -/
theorem one (os : List Outline) {v : Visit} (hpass : ∀ sights, v.pass sights = sights)
    (hcallee : v.callee? = none) (hreviewed : v.reviewed? = none) :
    Row os [] [v] where
  behind known next outer := by rw [Visits.behind_cons, hpass, Visits.behind_nil, Sight.with_nil]
  heads := .cons_none hcallee (.nil os)
  reviews := .cons_none hreviewed (.nil os)

theorem mono (h : Row os names vs) (hos : (tokensOfAll os).Subperm (tokensOfAll os')) :
    Row os' names vs :=
  ⟨h.behind, h.heads.mono hos, h.reviews.mono hos⟩

theorem append (h : Row os names vs) (h' : Row os' more ws) :
    Row (os ++ os') (names ++ more) (vs ++ ws) where
  behind known next outer := by
    rw [Visits.behind_append, h.behind, h'.behind, Sight.with_append]
  heads := h.heads.append h'.heads
  reviews := h.reviews.append h'.reviews

theorem cons {o : Outline} (h : Row [o] names vs) (h' : Row os' more ws) :
    Row (o :: os') (names ++ more) (vs ++ ws) :=
  h.append h'

/-- What is read between the parts. -/
theorem token (t : Token) (h : Row os names vs) : Row (.token t :: os) names vs :=
  h.mono (List.sublist_cons_self t _).subperm

theorem right (h : Row os names vs) (os' : List Outline) : Row (os ++ os') names vs := by
  refine h.mono ?_
  rw [tokensOfAll_append]
  exact (List.sublist_append_left _ _).subperm

theorem node (p : Node) (h : Row os names vs) : Row [.node p os] names vs := by
  refine h.mono ?_
  rw [tokensOfAll_singleton, tokens]

theorem bracketed (b : Brackets) (h : Row os names vs) : Row (Outline.bracketed b os) names vs :=
  (h.right _).token b.left

/-- Visits in a frame of their own. -/
theorem framed (inner : List String) (h : Row os names vs) :
    Row os [] (.enter inner :: vs ++ [.leave]) where
  behind known next outer := by
    rw [List.cons_append, Visits.behind_cons, Visits.behind_append, Visit.pass, h.behind,
      Visits.behind_cons, Visit.pass, Visits.behind_nil, Sight.with_nil]
  heads := (h.heads.cons_none rfl).append_none rfl
  reviews := (h.reviews.cons_none rfl).append_none rfl

theorem define (os : List Outline) (r : VarRoot) (e : Option Expression) :
    Row os r.defined [.define r e] where
  behind _ _ _ := rfl
  heads := .cons_none rfl (.nil os)
  reviews := .cons_none rfl (.nil os)

/-- What is called begins with a token that nothing in it begins with. -/
theorem callee {v : Var} (hv : tokensOfAll [ofVar v] = v.root.head :: tokensOfAll os)
    (h : Row os [] vs) : Row [ofVar v] [] (vs ++ [.callee v]) where
  behind known next outer := by
    rw [Visits.behind_append, h.behind]
    rfl
  heads := h.heads.append_some rfl hv
  reviews := by
    refine Visits.Heads.append_none (h.reviews.mono ?_) rfl
    rw [hv]
    exact (List.sublist_cons_self _ _).subperm

/-- What is called is called before the arguments, and reviewed behind them. -/
theorem command {c : Command}
    (hc : tokensOfAll [ofVar c.callee] = c.callee.root.head :: tokensOfAll os)
    (h : Row os [] vs) (h' : Row os' [] ws) :
    Row (ofVar c.callee :: os') []
      (vs ++ [.callee c.callee] ++ .arguments c :: ws ++ [.review c]) := by
  have harguments : Row os' [] (.arguments c :: ws) :=
    Row.append (.one [] (fun _ => rfl) rfl rfl) h'
  have hcalled := (h.callee hc).cons harguments
  refine ⟨fun known next outer => ?_, hcalled.heads.append_none rfl, ?_⟩
  · rw [Visits.behind_append, hcalled.behind]
    rfl
  · -- a review begins where its command does, and no other one in the command does
    refine ((h.reviews.append_none rfl).append harguments.reviews).append_some rfl ?_
    rw [← List.singleton_append, tokensOfAll_append, hc, tokensOfAll_append]
    rfl

end Row

namespace Visits

mutual

theorem row_expression : ∀ e : Expression, Row [ofExpression e] [] (expression e)
  | .nil _ | .boolean _ | .number _ | .string _ | .skipped _ => by
    rw [expression]
    exact .nil _
  | .binary l o r _ => by
    rw [expression, ofExpression]
    exact .node _ ((row_expression l).cons ((row_optional r).token o))
  | .unary o v _ => by
    rw [expression, ofExpression]
    exact .node _ ((row_optional v).token o)
  | .vector b is _ => by
    rw [expression, ofExpression]
    exact .node _ ((row_items is).bracketed b)
  | .table b fs _ => by
    rw [expression, ofExpression]
    exact .node _ ((row_fields fs).bracketed b)
  | .lambda b => by
    rw [expression, ofExpression]
    exact .node _ (row_body b)
  | .group b e _ => by
    rw [expression, ofExpression]
    exact .node _ ((row_optional e).bracketed b)
  | .var v => by
    obtain ⟨os, hv, hchain⟩ := row_chain (some .expression) v
    rw [expression, ofExpression]
    exact hchain.mono (hv ▸ (List.sublist_cons_self _ _).subperm)
  | .call c => by
    rw [expression, ofExpression]
    exact row_call c

theorem row_optional : ∀ e : Option Expression, Row (ofOptional e) [] (optional e)
  | none => by
    rw [optional]
    exact .nil _
  | some e => by
    rw [optional, ofOptional]
    exact row_expression e

theorem row_items : ∀ is : List (SeparatedItem Expression), Row (ofItems is) [] (items is)
  | [] => by
    rw [items]
    exact .nil _
  | ⟨v, s, _⟩ :: rest => by
    rw [items, ofItems, item, ofItem]
    exact ((row_optional v).right _).append (row_items rest)

theorem row_field : ∀ f : TableField, Row [ofField f] [] (field f)
  | .named n q v _ => by
    rw [field, ofField]
    exact .node _ (((row_optional v).token q).token n)
  | .keyed b k q v _ => by
    rw [field, ofField]
    exact .node _ ((((row_optional k).bracketed b).right _).append (row_optional v))
  | .positional v _ => by
    rw [field, ofField]
    exact .node _ (row_expression v)

theorem row_fields : ∀ fs : List (SeparatedItem TableField), Row (ofFields fs) [] (fields fs)
  | [] => by
    rw [fields]
    exact .nil _
  | ⟨none, s, _⟩ :: rest => by
    rw [fields, ofFields, fieldItem, ofFieldItem, ofOptionalField]
    exact (Row.nil _).append (row_fields rest)
  | ⟨some f, s, _⟩ :: rest => by
    rw [fields, ofFields, fieldItem, ofFieldItem, ofOptionalField]
    exact ((row_field f).right _).append (row_fields rest)

theorem row_body : ∀ b : FunctionBody, Row [ofBody b] [] (body b)
  | .mk _ _ none _ => by
    rw [body]
    exact .nil _
  | .mk bars ps (some b) span => by
    rw [body, ofBody, ofOptionalBraced]
    obtain ⟨names, hblock⟩ := row_braced b
    exact .node _ ((Row.nil (Outline.bracketed bars (ofParameters ps))).append (hblock.framed _))

theorem row_root (kind : Option SuggestionKind) : ∀ r : VarRoot,
    ∃ os, tokensOfAll [ofRoot r] = r.head :: tokensOfAll os ∧ Row os [] (root kind r)
  | .bare t => by
    refine ⟨[], by simp [ofRoot, tokensOfAll, tokens, VarRoot.head], ?_⟩
    simp only [root]
    exact .one _ (fun _ => rfl) rfl rfl
  | .named d n _ => by
    refine ⟨ofTokens [n], by simp [ofRoot, tokensOfAll, tokens, VarRoot.head], ?_⟩
    simp only [root]
    exact .one _ (fun _ => rfl) rfl rfl
  | .computed d b e _ => by
    refine ⟨Outline.bracketed b (ofOptional e), ?_, ?_⟩
    · simp [ofRoot, tokensOfAll, tokens, VarRoot.head]
    · rw [root]
      exact (row_optional e).bracketed b

/-- What is visited along a chain stands behind its first token. -/
theorem row_chain (kind : Option SuggestionKind) : ∀ v : Var,
    ∃ os, tokensOfAll [ofVar v] = v.root.head :: tokensOfAll os ∧ Row os [] (chain kind v)
  | .mk r ss _ => by
    obtain ⟨os, hr, hroot⟩ := row_root kind r
    rw [tokensOfAll_singleton] at hr
    refine ⟨os ++ ofSuffixes ss, ?_, ?_⟩
    · rw [tokensOfAll_singleton, ofVar, tokens, tokensOfAll, hr, tokensOfAll_append]
      rfl
    · rw [chain]
      exact hroot.append (row_steps _ 0 ss)

theorem row_steps (v : Var) (n : Nat) : ∀ ss : List VarSuffix,
    Row (ofSuffixes ss) [] (steps v n ss)
  | [] => by
    rw [steps]
    exact .nil _
  | .field p name s :: rest => by
    simp only [steps, step, ofSuffixes]
    exact (Row.one _ (fun _ => rfl) rfl rfl).cons (row_steps v (n + 1) rest)
  | .index p b e _ :: rest => by
    rw [steps, step, ofSuffixes, ofSuffix]
    exact (((row_optional e).bracketed b).token p |>.node _).cons (row_steps v (n + 1) rest)

theorem row_arguments : ∀ es : List Expression, Row (ofArguments es) [] (arguments es)
  | [] => by
    rw [arguments]
    exact .nil _
  | e :: rest => by
    rw [arguments, ofArguments]
    exact (row_expression e).cons (row_arguments rest)

theorem row_command (kind : Option SuggestionKind) : ∀ c : Command,
    Row [ofCommand c] [] (command kind c)
  | .mk v es span => by
    obtain ⟨os, hv, hchain⟩ := row_chain kind v
    have hcommand := Row.command (c := .mk v es span) hv hchain (row_arguments es)
    rw [command, ofCommand]
    simpa [Command.callee] using hcommand.node (.command (.mk v es span))

theorem row_call : ∀ c : Call, Row [ofCall c] [] (call c)
  | .mk _ none _ => by
    rw [call]
    exact .one _ (fun _ => rfl) rfl rfl
  | .mk a (some c) _ => by
    rw [call, ofCall, ofOptionalCommand]
    exact .node _ ((row_command _ c).token a)

theorem row_target (e : Option Expression) : ∀ v : Var,
    Row [ofVar v] (if v.suffixes.isEmpty then v.root.defined else []) (target e v)
  | .mk r [] span => by
    have htarget : Row [] [] [.target r] := .one _ (fun _ => rfl) rfl rfl
    have hrow := (htarget.append (row_computedRoot r)).append (Row.define [] r e)
    rw [List.append_nil] at hrow
    rw [target]
    exact hrow.node (.var (.mk r [] span))
  | .mk r (s :: ss) span => by
    obtain ⟨os, hr, hroot⟩ := row_root (some .assign) r
    have hsteps := row_steps (.mk r (s :: ss) span) 0 (s :: ss)
    have hrow : Row [ofRoot r] [] (root (some .assign) r) :=
      hroot.mono (hr ▸ (List.sublist_cons_self _ _).subperm)
    rw [target, ofVar]
    · exact .node _ (hrow.cons hsteps)
    · exact fun h => List.cons_ne_nil _ _ h

theorem row_computedRoot : ∀ r : VarRoot, Row [ofRoot r] [] (computedRoot r)
  | .bare _ | .named _ _ _ => by
    simp only [computedRoot]
    exact .nil _
  | .computed d b e _ => by
    rw [computedRoot, ofRoot]
    exact .node _ (((row_optional e).bracketed b).token d)

theorem row_statement : ∀ s : Statement, Row [ofStatement s] s.defined (statement s)
  | .command c => by
    rw [statement, ofStatement]
    exact row_command none c
  | .call c => by
    rw [statement, ofStatement]
    exact row_call c
  | .expression e => by
    rw [statement, ofStatement]
    exact .node _ (row_expression e)
  | .assign (.mk r ss whole) q e span => by
    have hdefined : (Statement.assign (.mk r ss whole) q e span).defined =
        [] ++ if (Var.mk r ss whole).suffixes.isEmpty then r.defined else [] := by
      cases ss <;> rfl
    rw [statement, ofStatement, hdefined]
    refine .node _ (((row_optional e).append (row_target e _)).mono ?_)
    -- The value is visited before the target it stands behind.
    rw [tokensOfAll_append]
    refine List.perm_append_comm.subperm.trans ?_
    rw [← tokensOfAll_append]
    exact ((List.Sublist.refl _).append (List.sublist_cons_self q _)).subperm
  | .conditional t first others o _ => by
    rw [statement, ofStatement]
    exact .node _ ((((row_branch first).cons (row_elseIfs others)).append
      (row_otherwise o)).token t)
  | .whileLoop t c b _ => by
    rw [statement, ofStatement]
    exact .node _ (((row_condition c).append (row_block? b)).token t)
  | .forLoop t c b _ => by
    rw [statement, ofStatement]
    exact .node _ (((row_condition c).append (row_optional b)).token t)
  | .skipped _ => by
    rw [statement]
    exact .nil _

theorem row_condition : ∀ c : Option Condition, Row (ofOptionalCondition c) [] (condition c)
  | none => by
    rw [condition]
    exact .nil _
  | some (.mk b e) => by
    rw [condition, ofOptionalCondition, ofCondition]
    exact (row_optional e).bracketed b

theorem row_branch : ∀ b : Branch, Row [ofBranch b] [] (branch b)
  | .mk c b _ => by
    rw [branch, ofBranch]
    exact .node _ ((row_condition c).append (row_block? b))

theorem row_elseIfs : ∀ es : List ElseIf, Row (ofElseIfs es) [] (elseIfs es)
  | [] => by
    rw [elseIfs]
    exact .nil _
  | .mk t b _ :: rest => by
    rw [elseIfs, ofElseIfs, elseIf, ofElseIf]
    exact (((row_branch b).token t).node _).cons (row_elseIfs rest)

theorem row_otherwise : ∀ o : Option Otherwise, Row (ofOptionalOtherwise o) [] (otherwise o)
  | none => by
    rw [otherwise]
    exact .nil _
  | some (.mk t b _) => by
    rw [otherwise, ofOptionalOtherwise, ofOtherwise]
    exact .node _ ((row_block? b).token t)

theorem row_block? : ∀ b : Option Braced, Row (ofOptionalBraced b) [] (block? b)
  | none => by
    rw [block?]
    exact .nil _
  | some b => by
    rw [block?, ofOptionalBraced]
    obtain ⟨names, hblock⟩ := row_braced b
    exact hblock.framed []

theorem row_braced : ∀ b : Braced, ∃ names, Row (ofBraced b) names (braced b)
  | .mk bars b => by
    rw [braced, ofBraced]
    exact ⟨_, (row_block b).bracketed bars⟩

theorem row_statements : ∀ ss : List Statement,
    Row (ofStatements ss) (ss.flatMap (·.defined)) (statements ss)
  | [] => by
    rw [statements]
    exact .nil _
  | s :: rest => by
    rw [statements, ofStatements]
    exact (row_statement s).cons (row_statements rest)

theorem row_last : ∀ l : LastStatement, Row [ofLast l] [] (last l)
  | .return t vs _ => by
    rw [last, ofLast]
    exact .node _ ((row_items vs).token t)
  | .break _ | .continue _ => by
    simp only [last]
    exact .nil _

/-- **The visits of a block leave the frames around it as they found them**, and what is
called in it begins with tokens of its own. -/
theorem row_block : ∀ b : Block, Row [ofBlock b] (b.body.flatMap (·.defined)) (block b)
  | .mk ss none _ => by
    rw [block, ofBlock]
    exact .node _ ((row_statements ss).right _)
  | .mk ss (some l) _ => by
    rw [block, ofBlock, ofOptionalLast]
    have hrow := (row_statements ss).append (row_last l)
    rw [List.append_nil] at hrow
    exact .node _ hrow

end

end Visits

end CommandScript
