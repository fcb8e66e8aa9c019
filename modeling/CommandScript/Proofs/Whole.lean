import CommandScript.Proofs.Parts
import CommandScript.Proofs.Fault
/-!
# CommandScript — a text without issues has a whole tree

Reading reports something wherever it leaves a part out, so a tree that was read without
an issue lacks nothing: every part is there, every bracket is closed, no tokens were
skipped, and all tokens but semicolons are kept. What can still go wrong with the tree
when it is run is that a name is not known: the other faults of a tree are about parts
that are missing.
-/

namespace CommandScript

open Outline

/-! ## Trees in which nothing is missing -/

namespace Outline

/-- No part in the outline lacks anything. -/
def Whole (o : Outline) : Prop := ∀ p ∈ o.parts, p.isWhole = true

/-- No part in the outlines lacks anything. -/
def AllWhole (os : List Outline) : Prop := ∀ p ∈ partsOfAll os, p.isWhole = true

variable {o : Outline} {os os' : List Outline}

@[simp] theorem allWhole_nil : AllWhole [] := eachOf_nil

@[simp] theorem allWhole_cons : AllWhole (o :: os) ↔ o.Whole ∧ AllWhole os := eachOf_cons

@[simp] theorem allWhole_append : AllWhole (os ++ os') ↔ AllWhole os ∧ AllWhole os' :=
  eachOf_append

@[simp] theorem whole_token (t : Token) : (token t).Whole := each_token t

@[simp] theorem whole_node (p : Node) : (node p os).Whole ↔ p.isWhole = true ∧ AllWhole os :=
  each_node p

@[simp] theorem allWhole_map_token (ts : List Token) : AllWhole (ts.map token) :=
  eachOf_map_token ts

@[simp] theorem allWhole_ofTokens (ts : List (Option Token)) : AllWhole (ofTokens ts) :=
  eachOf_ofTokens ts

@[simp] theorem allWhole_bracketed (b : Brackets) : AllWhole (bracketed b os) ↔ AllWhole os :=
  eachOf_bracketed b

end Outline

namespace Built

variable {c d : Cursor} {os : List Outline}

/-- What is built without a report keeps all tokens but semicolons. -/
theorem keeps (h : Built c os d) (hclean : ¬ d.Told) :
    ∃ ts, c.Moved ts d ∧ ∀ t ∈ ts, t ∈ tokensOfAll os ∨ t.kind = .semicolon := by
  induction h with
  | passed h hsemicolons => exact ⟨_, h.toMoved, fun t ht => .inr (hsemicolons t ht)⟩
  | @token c d t h =>
    exact ⟨[t], h.toMoved, fun u hu => .inl (by rwa [tokensOfAll_singleton, Outline.tokens])⟩
  | append hfirst hsecond ih ih' =>
    obtain ⟨us, h', hkept'⟩ := ih' hclean
    obtain ⟨ts, h, hkept⟩ := ih (mt h'.told hclean)
    refine ⟨ts ++ us, h.trans h', fun t ht => ?_⟩
    rw [tokensOfAll_append]
    obtain ht | ht := List.mem_append.1 ht
    · exact (hkept t ht).imp_left (List.mem_append_left _)
    · exact (hkept' t ht).imp_left (List.mem_append_right _)
  | node hos hspan hwhole hread _ _ _ ih =>
    rw [tokensOfAll_singleton, Outline.tokens]
    exact ih hclean
  | block hos hlast hspan ih =>
    rw [tokensOfAll_singleton, Outline.tokens]
    exact ih hclean
  | left hos hos' hl hleaves hpassed hreports hb ih ih' =>
    have hbefore := mt hpassed.told hclean
    obtain ⟨us, h', hkept'⟩ := ih' hbefore
    obtain ⟨ts, h, hkept⟩ := ih (mt h'.told hbefore)
    refine ⟨_, h.trans (h'.trans hpassed.toMoved), fun t ht => ?_⟩
    rw [tokensOfAll_singleton, Outline.tokens, tokensOfAll_append]
    obtain ht | ht := List.mem_append.1 ht
    · exact (hkept t ht).imp_left (List.mem_append_left _)
    obtain ht | ht := List.mem_append.1 ht
    · exact (hkept' t ht).imp_left (List.mem_append_right _)
    · exact .inr ((hreports.told hpassed.toMoved).resolve_left hclean t ht)

/-- **What is built without a report lacks nothing**, if all its characters are known. -/
theorem allWhole (h : Built c os d) (hclean : ¬ d.Told)
    (hknown : ∀ t ∈ tokensOfAll os, t.kind ≠ .unknown) : AllWhole os := by
  induction h with
  | passed => exact allWhole_nil
  | token => exact allWhole_cons.2 ⟨whole_token _, allWhole_nil⟩
  | append hfirst hsecond ih ih' =>
    rw [tokensOfAll_append, List.forall_mem_append] at hknown
    exact allWhole_append.2 ⟨ih (mt hsecond.told hclean) hknown.1, ih' hclean hknown.2⟩
  | @node c d os p hos hspan hwhole hread _ _ _ ih =>
    rw [tokensOfAll_singleton, Outline.tokens] at hknown
    refine allWhole_cons.2 ⟨(whole_node p).2 ⟨?_, ih hclean hknown⟩, allWhole_nil⟩
    obtain hwhole | htold | ⟨t, ht, hunknown⟩ := hwhole
    · exact hwhole
    · exact absurd htold hclean
    · exact absurd hunknown (hknown t ht)
  | block hos hlast hspan ih =>
    rw [tokensOfAll_singleton, Outline.tokens] at hknown
    exact allWhole_cons.2 ⟨(whole_node _).2 ⟨rfl, ih hclean hknown⟩, allWhole_nil⟩
  | left hos hos' hl hleaves hpassed hreports hb ih ih' =>
    have hbefore := mt hpassed.told hclean
    rw [tokensOfAll_singleton, Outline.tokens, tokensOfAll_append, List.forall_mem_append] at hknown
    have hall := allWhole_append.2 ⟨ih (mt hos'.told hbefore) hknown.1, ih' hbefore hknown.2⟩
    exact allWhole_cons.2 ⟨(whole_node _).2 ⟨rfl, hall⟩, allWhole_nil⟩

end Built

/-- A list that is empty in the order of the text is empty. -/
theorem Issue.eq_nil_of_sort {issues : List Issue} (h : Issue.sort issues = []) : issues = [] := by
  have hlength := congrArg List.length h
  rw [Issue.sort, List.length_mergeSort, List.length_nil] at hlength
  exact List.eq_nil_of_length_eq_zero hlength

/-- A text without issues is read without a report, and its characters are all known. -/
theorem exists_quiet_of_no_issues {text : String} {limit : Nat} {b : Block}
    (h : (parse text limit).block = some b) (hclean : (parse text limit).issues = []) :
    (∃ d, Built (Cursor.ofTokens (Token.tokenize text)) [ofBlock b] d ∧ d.upcoming = [] ∧
      ¬ d.Told) ∧ ∀ t ∈ Token.tokenize text, t.kind ≠ .unknown := by
  obtain ⟨d, hbuilt, hnothing, hissues⟩ := exists_built_of_parse h
  rw [hclean] at hissues
  obtain ⟨hlexed, hfound⟩ := List.append_eq_nil_iff.1 (Issue.eq_nil_of_sort hissues.symm)
  refine ⟨⟨d, hbuilt, hnothing, fun htold => ?_⟩, fun t ht hunknown => ?_⟩
  · obtain ⟨us, hmoved⟩ := hbuilt.moved
    refine hmoved.found_ne_nil rfl htold ?_
    rwa [Cursor.issues, List.reverse_eq_nil_iff] at hfound
  · have hissue := List.filterMap_eq_nil_iff.1 hlexed t ht
    rw [Token.issue?, if_pos hunknown] at hissue
    cases hissue

/-- **A text without issues has a whole tree**, which keeps everything but blanks, comments,
line breaks and semicolons. -/
theorem whole_of_no_issues {text : String} {limit : Nat} {b : Block}
    (h : (parse text limit).block = some b) (hclean : (parse text limit).issues = []) :
    (ofBlock b).Whole ∧ ∀ t ∈ Token.tokenize text, t ∈ (ofBlock b).tokens ∨
      t.kind.isHidden = true ∨ t.kind = .endOfInput ∨ t.kind = .semicolon := by
  obtain ⟨⟨d, hbuilt, hnothing, hquiet⟩, hknown⟩ := exists_quiet_of_no_issues h hclean
  obtain ⟨ts, ending, htokens, hend, hup, -, hsound⟩ := Cursor.ofTokens_tokenize text
  have hwhole := hbuilt.allWhole hquiet fun t ht => by
    rw [tokensOfAll_singleton] at ht
    exact hknown t ((tokens_accounted h).1.subset ht)
  refine ⟨(allWhole_cons.1 hwhole).1, fun t ht => ?_⟩
  obtain ⟨read, hmoved, hkept⟩ := hbuilt.keeps hquiet
  have hread : ts.filter (!·.kind.isHidden) = read := by
    rw [← hup, hmoved.upcoming, hnothing, List.append_nil]
  rw [htokens, List.mem_append, List.mem_singleton] at ht
  obtain ht | rfl := ht
  · by_cases hhidden : t.kind.isHidden = true
    · exact .inr (.inl hhidden)
    · have hmem : t ∈ read := hread ▸ List.mem_filter.2 ⟨ht, by simpa using hhidden⟩
      exact (hkept t hmem).imp (fun h => tokensOfAll_singleton _ ▸ h) fun h => .inr (.inr h)
  · exact .inr (.inr (.inl hend))

/-! ## The faults of a whole tree -/

/-- A cause that says that a part is missing, or that tokens fit nowhere. -/
def Cause.isSyntax : Cause → Bool
  | .invalidSyntax _ | .missingExpression | .missingCommand | .missingVariable | .missingField
  | .missingBranchBlock | .missingElseBlock | .incompleteCondition | .incompleteWhile
  | .incompleteFor => true
  | _ => false

/-- Whatever may be wrong, nothing is missing. -/
def NoneMissing (faults : List Fault) : Prop := ∀ x ∈ faults, x.cause.isSyntax = false

@[simp] theorem noneMissing_nil : NoneMissing [] := fun _ hx => absurd hx List.not_mem_nil

@[simp] theorem noneMissing_append {xs ys : List Fault} :
    NoneMissing (xs ++ ys) ↔ NoneMissing xs ∧ NoneMissing ys :=
  List.forall_mem_append

theorem noneMissing_callee (known : Sight) (v : Var) : NoneMissing (Faults.callee known v) := by
  unfold Faults.callee
  split
  · split
    · exact noneMissing_nil
    · intro x hx
      rw [List.mem_singleton.1 hx]
      rfl
  · exact noneMissing_nil

namespace Faults

mutual

theorem noneMissing_expression : ∀ (e : Expression) (known : Sight), (ofExpression e).Whole →
    NoneMissing (expression known e)
  | .nil _, _, _ | .boolean _, _, _ | .number _, _, _ | .string _, _, _ => by simp [expression]
  | .binary l _ r span, known, h => by
    simp only [ofExpression, whole_node, allWhole_cons, whole_token, true_and] at h
    rw [expression, noneMissing_append]
    exact ⟨noneMissing_expression l known h.2.1, noneMissing_required r known span h.1 h.2.2⟩
  | .unary _ v span, known, h => by
    simp only [ofExpression, whole_node, allWhole_cons, whole_token, true_and] at h
    rw [expression]
    exact noneMissing_required v known span h.1 h.2
  | .vector _ is _, known, h => by
    simp only [ofExpression, whole_node, allWhole_bracketed] at h
    rw [expression]
    exact noneMissing_items is known (Bool.and_eq_true_iff.1 h.1).2 h.2
  | .table _ fs _, known, h => by
    simp only [ofExpression, whole_node, allWhole_bracketed] at h
    rw [expression]
    exact noneMissing_fields fs known h.2
  | .lambda b, known, h => by
    simp only [ofExpression, whole_node, allWhole_cons] at h
    rw [expression]
    exact noneMissing_body b known h.2.1
  | .group _ none _, _, _ => by simp [expression]
  | .group _ (some e) _, known, h => by
    simp only [ofExpression, whole_node, allWhole_bracketed, ofOptional, allWhole_cons] at h
    rw [expression]
    exact noneMissing_expression e known h.2.1
  | .var v, known, h => by
    rw [expression]
    exact noneMissing_chain v known h
  | .call c, known, h => by
    rw [expression]
    exact noneMissing_call c known h
  | .skipped k, _, h => by
    simp only [ofExpression, ofSkipped, whole_node] at h
    cases h.1

theorem noneMissing_required : ∀ (r : Option Expression) (known : Sight) (span : Span),
    r.isSome = true → AllWhole (ofOptional r) → NoneMissing (required known span r)
  | none, _, _, hsome, _ => by cases hsome
  | some e, known, _, _, h => by
    rw [required]
    exact noneMissing_expression e known (allWhole_cons.1 h).1

theorem noneMissing_items : ∀ (is : List (SeparatedItem Expression)) (known : Sight),
    Separated.isFull is = true → AllWhole (ofItems is) → NoneMissing (items known is)
  | [], _, _, _ => by simp [items]
  | ⟨v, _, span⟩ :: rest, known, hfull, h => by
    simp only [ofItems, ofItem, allWhole_append, allWhole_ofTokens, and_true] at h
    rw [Separated.isFull, List.all_cons, Bool.and_eq_true] at hfull
    rw [items, item, noneMissing_append]
    exact ⟨noneMissing_required v known span hfull.1 h.1, noneMissing_items rest known hfull.2 h.2⟩

theorem noneMissing_field : ∀ (f : TableField) (known : Sight), (ofField f).Whole →
    NoneMissing (field known f)
  | .named _ _ v span, known, h => by
    simp only [ofField, whole_node, allWhole_cons, whole_token, true_and] at h
    rw [field]
    exact noneMissing_required v known span h.1 h.2
  | .keyed _ k _ v span, known, h => by
    simp only [ofField, whole_node, allWhole_append, allWhole_bracketed, allWhole_ofTokens,
      and_true] at h
    simp only [Node.isWhole, TableField.isWhole, Bool.and_eq_true] at h
    rw [field, noneMissing_append]
    exact ⟨noneMissing_required k known span h.1.1.1.2 h.2.1,
      noneMissing_required v known span h.1.2 h.2.2⟩
  | .positional v _, known, h => by
    simp only [ofField, whole_node, allWhole_cons] at h
    rw [field]
    exact noneMissing_expression v known h.2.1

theorem noneMissing_fields : ∀ (fs : List (SeparatedItem TableField)) (known : Sight),
    AllWhole (ofFields fs) → NoneMissing (fields known fs)
  | [], _, _ => by simp [fields]
  | ⟨none, _, _⟩ :: rest, known, h => by
    simp only [ofFields, allWhole_append] at h
    rw [fields, fieldItem, noneMissing_append]
    exact ⟨noneMissing_nil, noneMissing_fields rest known h.2⟩
  | ⟨some f, _, _⟩ :: rest, known, h => by
    simp only [ofFields, ofFieldItem, ofOptionalField, allWhole_append, allWhole_cons] at h
    rw [fields, fieldItem, noneMissing_append]
    exact ⟨noneMissing_field f known h.1.1.1, noneMissing_fields rest known h.2⟩

theorem noneMissing_body : ∀ (b : FunctionBody) (known : Sight), (ofBody b).Whole →
    NoneMissing (body known b)
  | .mk _ _ none _, _, _ => by simp [body]
  | .mk _ _ (some b) _, known, h => by
    simp only [ofBody, whole_node, ofOptionalBraced, allWhole_append] at h
    rw [body]
    exact noneMissing_braced b _ h.2.2

theorem noneMissing_root : ∀ (r : VarRoot) (known : Sight), (ofRoot r).Whole →
    NoneMissing (root known r)
  | .bare _, _, _ | .named _ (some _) _, _, _ => by simp [root]
  | .named _ none _, _, h => by
    simp only [ofRoot, whole_node] at h
    cases h.1
  | .computed _ _ e span, known, h => by
    simp only [ofRoot, whole_node, allWhole_cons, allWhole_bracketed] at h
    rw [root]
    exact noneMissing_required e known span (Bool.and_eq_true_iff.1 h.1).2 h.2.2

theorem noneMissing_suffix : ∀ (s : VarSuffix) (known : Sight), (ofSuffix s).Whole →
    NoneMissing (suffix known s)
  | .field _ (some _) _, _, _ => by simp [suffix]
  | .field _ none _, _, h => by
    simp only [ofSuffix, whole_node] at h
    cases h.1
  | .index _ _ e span, known, h => by
    simp only [ofSuffix, whole_node, allWhole_cons, allWhole_bracketed] at h
    rw [suffix]
    exact noneMissing_required e known span (Bool.and_eq_true_iff.1 h.1).2 h.2.2

theorem noneMissing_suffixes : ∀ (ss : List VarSuffix) (known : Sight),
    AllWhole (ofSuffixes ss) → NoneMissing (suffixes known ss)
  | [], _, _ => by simp [suffixes]
  | s :: rest, known, h => by
    rw [ofSuffixes, allWhole_cons] at h
    rw [suffixes, noneMissing_append]
    exact ⟨noneMissing_suffix s known h.1, noneMissing_suffixes rest known h.2⟩

theorem noneMissing_chain : ∀ (v : Var) (known : Sight), (ofVar v).Whole →
    NoneMissing (chain known v)
  | .mk r ss _, known, h => by
    simp only [ofVar, whole_node, allWhole_cons] at h
    rw [chain, noneMissing_append]
    exact ⟨noneMissing_root r known h.2.1, noneMissing_suffixes ss known h.2.2⟩

theorem noneMissing_arguments : ∀ (es : List Expression) (known : Sight),
    AllWhole (ofArguments es) → NoneMissing (arguments known es)
  | [], _, _ => by simp [arguments]
  | e :: rest, known, h => by
    rw [ofArguments, allWhole_cons] at h
    rw [arguments, noneMissing_append]
    exact ⟨noneMissing_expression e known h.1, noneMissing_arguments rest known h.2⟩

theorem noneMissing_command : ∀ (c : Command) (known : Sight), (ofCommand c).Whole →
    NoneMissing (command known c)
  | .mk v as _, known, h => by
    simp only [ofCommand, whole_node, allWhole_cons] at h
    rw [command, noneMissing_append, noneMissing_append]
    exact ⟨⟨noneMissing_chain v known h.2.1, noneMissing_callee known v⟩,
      noneMissing_arguments as known h.2.2⟩

theorem noneMissing_call : ∀ (c : Call) (known : Sight), (ofCall c).Whole →
    NoneMissing (call known c)
  | .mk _ none _, _, h => by
    simp only [ofCall, whole_node] at h
    cases h.1
  | .mk _ (some c) _, known, h => by
    simp only [ofCall, whole_node, allWhole_cons, ofOptionalCommand] at h
    rw [call]
    exact noneMissing_command c known h.2.2.1

theorem noneMissing_condition : ∀ (c : Condition) (known : Sight), c.isWhole = true →
    AllWhole (ofCondition c) → NoneMissing (condition known c)
  | .mk b e, known, hwhole, h => by
    rw [ofCondition, allWhole_bracketed] at h
    rw [condition]
    exact noneMissing_required e known _ (Bool.and_eq_true_iff.1 hwhole).2 h

theorem noneMissing_branch : ∀ (b : Branch) (known : Sight), (ofBranch b).Whole →
    NoneMissing (branch known b)
  | .mk none _ _, _, h => by
    simp only [ofBranch, whole_node] at h
    cases h.1
  | .mk (some c) none _, _, h => by
    simp only [ofBranch, whole_node] at h
    cases (Bool.and_eq_true_iff.1 h.1).2
  | .mk (some c) (some b) _, known, h => by
    simp only [ofBranch, whole_node, ofOptionalCondition, ofOptionalBraced, allWhole_append] at h
    rw [branch, noneMissing_append]
    exact ⟨noneMissing_condition c known (Bool.and_eq_true_iff.1 h.1).1 h.2.1,
      noneMissing_braced b known h.2.2⟩

theorem noneMissing_elseIfs : ∀ (es : List ElseIf) (known : Sight), AllWhole (ofElseIfs es) →
    NoneMissing (elseIfs known es)
  | [], _, _ => by simp [elseIfs]
  | .mk _ b _ :: rest, known, h => by
    simp only [ofElseIfs, ofElseIf, allWhole_cons, whole_node] at h
    rw [elseIfs, elseIf, noneMissing_append]
    exact ⟨noneMissing_branch b known h.1.2.2.1, noneMissing_elseIfs rest known h.2⟩

theorem noneMissing_otherwise : ∀ (o : Option Otherwise) (known : Sight),
    AllWhole (ofOptionalOtherwise o) → NoneMissing (otherwise known o)
  | none, _, _ => by simp [otherwise]
  | some (.mk _ none _), _, h => by
    simp only [ofOptionalOtherwise, ofOtherwise, allWhole_cons, whole_node] at h
    cases h.1.1
  | some (.mk _ (some b) _), known, h => by
    simp only [ofOptionalOtherwise, ofOtherwise, allWhole_cons, whole_node, ofOptionalBraced] at h
    rw [otherwise]
    exact noneMissing_braced b known h.1.2.2

theorem noneMissing_statement : ∀ (s : Statement) (known : Sight), (ofStatement s).Whole →
    NoneMissing (statement known s)
  | .command c, known, h => by
    rw [statement]
    exact noneMissing_command c known h
  | .call c, known, h => by
    rw [statement]
    exact noneMissing_call c known h
  | .expression e, known, h => by
    simp only [ofStatement, whole_node, allWhole_cons] at h
    rw [statement]
    exact noneMissing_expression e known h.2.1
  | .assign v _ e span, known, h => by
    simp only [ofStatement, whole_node, allWhole_cons] at h
    rw [statement, noneMissing_append]
    exact ⟨noneMissing_required e known span h.1 h.2.2.2, noneMissing_chain v known h.2.1⟩
  | .conditional _ first others o _, known, h => by
    simp only [ofStatement, whole_node, allWhole_cons, List.cons_append, allWhole_append] at h
    rw [statement, noneMissing_append, noneMissing_append]
    exact ⟨⟨noneMissing_branch first known h.2.2.1, noneMissing_elseIfs others known h.2.2.2.1⟩,
      noneMissing_otherwise o known h.2.2.2.2⟩
  | .whileLoop _ (some c) (some b) _, known, h => by
    simp only [ofStatement, whole_node, allWhole_cons, List.cons_append, allWhole_append,
      ofOptionalCondition, ofOptionalBraced] at h
    rw [statement, noneMissing_append]
    exact ⟨noneMissing_condition c known (Bool.and_eq_true_iff.1 h.1).1 h.2.2.1,
      noneMissing_braced b known h.2.2.2⟩
  | .whileLoop _ none _ _, _, h => by
    simp only [ofStatement, whole_node] at h
    cases h.1
  | .whileLoop _ (some c) none _, _, h => by
    simp only [ofStatement, whole_node] at h
    cases (Bool.and_eq_true_iff.1 h.1).2
  | .forLoop _ (some c) (some e) _, known, h => by
    simp only [ofStatement, whole_node, allWhole_cons, List.cons_append, allWhole_append,
      ofOptionalCondition, ofOptional] at h
    rw [statement, noneMissing_append]
    exact ⟨noneMissing_condition c known (Bool.and_eq_true_iff.1 h.1).1 h.2.2.1,
      noneMissing_expression e known h.2.2.2.1⟩
  | .forLoop _ none _ _, _, h => by
    simp only [ofStatement, whole_node] at h
    cases h.1
  | .forLoop _ (some c) none _, _, h => by
    simp only [ofStatement, whole_node] at h
    cases (Bool.and_eq_true_iff.1 h.1).2
  | .skipped k, _, h => by
    simp only [ofStatement, ofSkipped, whole_node] at h
    cases h.1

theorem noneMissing_statements : ∀ (ss : List Statement) (known : Sight),
    AllWhole (ofStatements ss) → NoneMissing (statements known ss)
  | [], _, _ => by simp [statements]
  | s :: rest, known, h => by
    rw [ofStatements, allWhole_cons] at h
    rw [statements, noneMissing_append]
    exact ⟨noneMissing_statement s known h.1, noneMissing_statements rest _ h.2⟩

theorem noneMissing_last : ∀ (l : LastStatement) (known : Sight), (ofLast l).Whole →
    NoneMissing (last known l)
  | .break _, _, _ | .continue _, _, _ => by simp [last]
  | .return _ vs _, known, h => by
    simp only [ofLast, whole_node, allWhole_cons] at h
    rw [last]
    exact noneMissing_items vs known h.1 h.2.2

/-- **Nothing is missing in a whole block.** -/
theorem noneMissing_block : ∀ (b : Block) (known : Sight), (ofBlock b).Whole →
    NoneMissing (block known b)
  | .mk ss none _, known, h => by
    simp only [ofBlock, whole_node, allWhole_append] at h
    rw [block]
    exact noneMissing_statements ss known h.2.1
  | .mk ss (some l) _, known, h => by
    simp only [ofBlock, whole_node, allWhole_append, ofOptionalLast, allWhole_cons] at h
    rw [block, noneMissing_append]
    exact ⟨noneMissing_statements ss known h.2.1, noneMissing_last l _ h.2.2.1⟩

theorem noneMissing_braced : ∀ (b : Braced) (known : Sight), AllWhole (ofBraced b) →
    NoneMissing (braced known b)
  | .mk _ b, known, h => by
    rw [ofBraced, allWhole_bracketed, allWhole_cons] at h
    rw [braced]
    exact noneMissing_block b known h.1

end

end Faults

end CommandScript
