import CommandScript.Proofs.Commands
import CommandScript.Proofs.FieldNames
import CommandScript.Proofs.Keys
/-!
# CommandScript — fields at the caret

Behind a variable and a period, the fields of its table are offered as they are, whatever
characters are in them, and each is to be put in at the caret. If that is done, the text is a
chain that ends in the field, and the value of the chain is what the table holds under it: but only
if the field is an identifier (`field_of_assist`). Any other field would have to be written in
brackets.
-/

namespace CommandScript

open Parse Cursor

/-! ## A variable and a period -/

/-- A period with no other one behind it begins no sign of two characters. -/
theorem Lexeme.pairAt_dot {rest : List Char} (h : rest.head? ≠ some '.') :
    pairAt '.' rest = none := by
  cases rest with
  | nil => rfl
  | cons d rest =>
    have hd : d ≠ '.' := by simpa using h
    simp [pairAt, TokenKind.ofPair, hd]

namespace Token

/-- The tokens of a text that begins with a variable and a period. The name is right behind the
dollar. -/
theorem exists_tokenize_field {name rest : List Char} (hname : isIdentifier name = true)
    (hrest : rest.head? ≠ some '.') {text : String}
    (htext : text.toList = '$' :: (name ++ '.' :: rest)) :
    ∃ t₁ t₂ t₃, tokenize text = t₁ :: t₂ :: t₃ :: walk (name.length + 2) {} 0 rest ∧
      t₁.kind = .dollar ∧ t₂.spelling = .word name ∧ t₂.span = ⟨1, name.length + 1⟩ ∧
      t₂.flags.triviaBefore = false ∧ t₃.kind = .dot := by
  obtain ⟨c, tail, rfl, hc, htail, -⟩ := eq_cons_of_isIdentifier hname
  have hdollar : Lexeme.scan '$' ([] ++ (c :: (tail ++ '.' :: rest))) =
      ⟨.dollar, [], false, false⟩ :=
    Lexeme.scan_sign (by decide) (.inl (by decide)) rfl rfl
  have hdot : Lexeme.scan '.' ([] ++ rest) = ⟨.dot, [], false, false⟩ :=
    Lexeme.scan_sign (by decide) (.inl (by decide)) (Lexeme.pairAt_dot hrest) rfl
  have hends : ∀ e ∈ ('.' :: rest).head?, continuesIdentifier e = false := by
    simp
    decide
  obtain ⟨t₁, hwalk₁, hspelling₁, -, -⟩ := walk_seen 0 {} hdollar rfl
  obtain ⟨t₂, hwalk₂, hspelling₂, hspan₂, hflags₂⟩ := walk_seen 1 {}
    (Lexeme.scan_word hc htail hends) (Lexeme.isHidden_ofWord _)
  obtain ⟨t₃, hwalk₃, hspelling₃, -, -⟩ := walk_seen (1 + 1 + tail.length) {} hdot rfl
  refine ⟨t₁, t₂, t₃, ?_, congrArg Spelling.kind hspelling₁, hspelling₂, ?_, by rw [hflags₂]; rfl,
    congrArg Spelling.kind hspelling₃⟩
  · have hlength : 1 + 1 + tail.length + 1 + ([] : List Char).length = (c :: tail).length + 2 := by
      simp
      omega
    rw [hlength] at hwalk₃
    rw [tokenize, htext]
    exact hwalk₁.trans (congrArg _ (hwalk₂.trans (congrArg _ hwalk₃)))
  · rw [hspan₂, List.length_cons]
    congr 1
    omega

end Token

/-- A variable and a period before a text. -/
theorem Spells.field {name rest : List Char} {us : List Spelling} (hname : isIdentifier name = true)
    (hrest : rest.head? ≠ some '.') (h : Spells rest us) :
    Spells ('$' :: (name ++ '.' :: rest))
      (.sign .dollar '$' :: .word name :: .sign .dot '.' :: us) := by
  obtain ⟨c, tail, rfl, hc, htail, -⟩ := eq_cons_of_isIdentifier hname
  refine .sign (by decide) rfl rfl (.inl (by decide)) rfl (.word hc htail ?_ ?_)
  · simp
    decide
  · exact .sign (by decide) rfl rfl (.inl (by decide)) (Lexeme.pairAt_dot hrest) h

namespace Grammar

variable {limit depth : Nat} {self : (n : Nonterminal) → Parse n.Result} {c : Cursor}
variable {us : List Spelling} {name key : List Char}

/-- A name right behind a dollar is where a chain begins. -/
theorem passes_varRoot_named (hname : isIdentifier name = true)
    (h : c.Shows (.sign .dollar '$' :: .word name :: us))
    (hclose : (c.ahead 1).flags.triviaBefore = false) :
    (varRoot self depth).Ends c fun r d =>
      (∃ dollar t span, r = .named dollar (some t) span ∧ t.spelling = .word name) ∧
        c.Passes us d := by
  have hkind : (Spelling.word name).kind = .identifier := Spelling.kind_word hname
  refine Ends.sound fun hc => Ends.get_bind ?_
  rw [if_neg (by rw [h.sees_eq hc]; simp)]
  refine (passes_bump h).bind fun dollar d hd => Ends.sound fun hsound => Ends.get_bind ?_
  obtain ⟨-, hpasses⟩ := hd
  rw [if_pos (by rw [hpasses.shows.sees_eq hsound, hpasses.token_eq h, hclose]; simp [hkind])]
  refine (passes_bump hpasses.shows).bind fun t e ht => Ends.spanFrom_bind (Ends.pure ?_)
  exact ⟨⟨dollar, t, _, rfl, ht.1⟩, hpasses.trans ht.2⟩

/-- A name behind a period is a step of a chain. -/
theorem passes_varSuffix_field (hkey : isIdentifier key = true)
    (h : c.Shows (.sign .dot '.' :: .word key :: us)) :
    (varSuffix self depth).Ends c fun s d =>
      (∃ period t span, s = .field period (some t) span ∧ t.spelling = .word key) ∧
        c.Passes us d := by
  have hkind : (Spelling.word key).kind = .identifier := Spelling.kind_word hkey
  refine (passes_bump h).bind fun period d hd => Ends.sound fun hsound => Ends.get_bind ?_
  obtain ⟨-, hpasses⟩ := hd
  rw [if_pos (by rw [hpasses.shows.sees_eq hsound]; simp [hkind])]
  refine (passes_bump hpasses.shows).bind fun t e ht => Ends.spanFrom_bind (Ends.pure ?_)
  exact ⟨⟨period, t, _, rfl, ht.1⟩, hpasses.trans ht.2⟩

/-- Behind a period at the end of a text, the name is missing. -/
theorem ends_varSuffix_missing (h : c.Shows [.sign .dot '.']) :
    (varSuffix self depth).Ends c fun s d =>
      (∃ period span, s = .field period none span) ∧ d.Shows [] := by
  refine (passes_bump h).bind fun period d hd => Ends.sound fun hsound => Ends.get_bind ?_
  obtain ⟨-, hpasses⟩ := hd
  rw [if_neg (by rw [hpasses.shows.sees_eq hsound]; simp),
    if_neg (by rw [hpasses.shows.sees_eq hsound]; simp)]
  refine (ends_reportHere _ _).bind fun _ e he => Ends.spanFrom_bind (Ends.pure ?_)
  have hnone : e.upcoming = d.upcoming := he.1.toMoved.upcoming.symm
  refine ⟨⟨period, _, rfl⟩, ?_, ?_, ?_⟩
  · rw [hnone, hpasses.shows.spelled]
  · rw [hnone]
    exact hpasses.shows.oneLine
  · rw [he.1.toMoved.ending]
    exact hpasses.shows.ended

/-- The chain is one step from a variable. -/
def StepsFrom (name : List Char) (S : VarSuffix → Prop) (v : Var) : Prop :=
  ∃ dollar root step span₁ span₂, v = .mk (.named dollar (some root) span₁) [step] span₂ ∧
    root.spelling = .word name ∧ S step

/-- **A variable and one step is a command**, where nothing is left behind the step. -/
theorem ends_statement_step {S : VarSuffix → Prop} {R : Cursor → Prop}
    (hshows : ∀ d, R d → d.Shows []) (hkeeps : ∀ d e, R d → d.Passes [] e → R e)
    (hname : isIdentifier name = true)
    (h : c.Shows (.sign .dollar '$' :: .word name :: .sign .dot '.' :: us))
    (hclose : (c.ahead 1).flags.triviaBefore = false)
    (hstep : ∀ d, c.Passes (.sign .dot '.' :: us) d →
      (varSuffix self depth).Ends d fun s e => S s ∧ R e) :
    (statement limit self depth).Ends c fun r d =>
      (∃ s, r = some s ∧ ∃ v span, s = .command (.mk v [] span) ∧ StepsFrom name S v) ∧ R d := by
  have hvar : (var self depth).Ends c fun v d => StepsFrom name S v ∧ R d := by
    refine Ends.get_bind ((passes_varRoot_named hname h hclose).bind fun r d hr => ?_)
    obtain ⟨⟨dollar, root, span, rfl, hroot⟩, hpasses⟩ := hr
    have hone : (varSuffixes self depth (d.upcoming.length + 1)).Ends d fun ss e =>
        (∃ step, ss = [step] ∧ S step) ∧ R e := by
      -- behind the one step nothing is left, so that no second one is looked for
      rw [hpasses.shows.length_eq, List.length_cons]
      refine Ends.sound fun hd => Ends.get_bind ?_
      rw [if_pos (by rw [hpasses.shows.sees_eq hd]; rfl)]
      refine (hstep d hpasses).bind fun step e he => ?_
      refine (passes_varSuffixes_nil (hshows e he.2) (by simp) (Nat.succ_pos _)).bind
        fun ss f hf => ?_
      obtain ⟨rfl, rfl⟩ := hf
      exact Ends.pure ⟨⟨step, rfl, he.1⟩, he.2⟩
    refine Ends.get_bind (hone.bind fun ss e he => Ends.spanFrom_bind (Ends.pure ?_))
    obtain ⟨⟨step, rfl, hS⟩, hR⟩ := he
    exact ⟨⟨dollar, root, step, span, _, rfl, hroot, hS⟩, hR⟩
  have hcommand : (varStatement self depth).Ends c fun s d => ∃ k, s = .command k ∧
      (∃ v span, k = .mk v [] span ∧ StepsFrom name S v) ∧ R d := by
    refine ends_varStatement_command hvar (fun v d hd hv => ⟨?_, ?_⟩) fun v d hd hv => ?_
    · rw [(hshows d hv.2).sees_eq hd]
      rfl
    · rw [seesOperator, (hshows d hv.2).kind_eq hd]
      rfl
    · refine (passes_command_nil (hshows d hv.2) v).imp fun k e _ hk => ?_
      obtain ⟨⟨span, rfl⟩, hpasses⟩ := hk
      exact ⟨⟨v, span, rfl, hv.1⟩, hkeeps d e hv.2 hpasses⟩
  refine Ends.sound fun hc => ?_
  refine (ends_statement_var (.inr (h.kind_eq hc)) hcommand).imp fun r d _ hr => ?_
  obtain ⟨s, rfl, k, rfl, ⟨v, span, rfl, hv⟩, hR⟩ := hr
  exact ⟨⟨_, rfl, v, span, rfl, hv⟩, hR⟩

end Grammar

/-! ## With the field and without it -/

section Texts

variable {name key : String}

theorem head_of_isIdentifier {cs : List Char} (h : isIdentifier cs = true) :
    cs.head? ≠ some '.' := by
  obtain ⟨c, tail, rfl, hc, -⟩ := eq_cons_of_isIdentifier h
  rintro ⟨⟩
  exact absurd hc (by decide)

/-- The name behind the dollar follows it closely. -/
theorem ahead_ofTokens {rest : List Char} {text : String} (hname : isIdentifier name.toList = true)
    (hrest : rest.head? ≠ some '.') (htext : text.toList = '$' :: (name.toList ++ '.' :: rest)) :
    ((ofTokens (Token.tokenize text)).ahead 1).flags.triviaBefore = false := by
  obtain ⟨t₁, t₂, t₃, htokens, h₁, h₂, -, hflag, -⟩ := Token.exists_tokenize_field hname hrest htext
  have hname₂ : t₂.kind = .identifier :=
    (congrArg Spelling.kind h₂).trans (Spelling.kind_word hname)
  have hkind₁ : t₁.kind.isHidden = false ∧ t₁.kind ≠ .endOfInput := by
    rw [h₁]
    decide
  have hkind₂ : t₂.kind.isHidden = false ∧ t₂.kind ≠ .endOfInput := by
    rw [hname₂]
    decide
  have hup : ∃ ts, (ofTokens (Token.tokenize text)).upcoming = t₁ :: t₂ :: ts := by
    rw [htokens]
    simp [ofTokens, Token.visible, hkind₁, hkind₂]
  obtain ⟨ts, hup⟩ := hup
  rw [ahead, hup]
  exact hflag

/-- Where the name of the field is missing, the tree still has the step. -/
theorem block_of_missing_field (limit : Nat) (hname : isIdentifier name.toList = true) :
    ∃ v span₁ span₂, (parse ("$" ++ name ++ ".") limit).block =
        some (.mk [.command (.mk v [] span₁)] none span₂) ∧
      Grammar.StepsFrom name.toList (fun s => ∃ period span, s = .field period none span) v := by
  have htext : ("$" ++ name ++ ".").toList = '$' :: (name.toList ++ '.' :: []) := by simp
  have hspells := Spells.field hname (by simp) .nil
  rw [← htext] at hspells
  obtain ⟨s, span₂, -, hblock, ⟨v, span₁, rfl, hv⟩, -⟩ :=
    block_of_statement limit (R := (·.Shows [])) (fun _ h => h) hspells (by simp) fun budget _ =>
      Grammar.ends_statement_step (fun _ h => h) (fun _ _ _ h => h.shows) hname hspells.shows
        (ahead_ofTokens hname (by simp) htext) fun d hd => Grammar.ends_varSuffix_missing hd.shows
  exact ⟨v, span₁, span₂, hblock, hv⟩

/-- A field that is an identifier is the step that is read. -/
theorem block_of_field (limit : Nat) (hname : isIdentifier name.toList = true)
    (hkey : isIdentifier key.toList = true) :
    ∃ v span₁ span₂, (parse ("$" ++ name ++ "." ++ key) limit).block =
        some (.mk [.command (.mk v [] span₁)] none span₂) ∧
      Grammar.StepsFrom name.toList (fun s => ∃ period t span,
        s = .field period (some t) span ∧ t.spelling = .word key.toList) v ∧
      (parse ("$" ++ name ++ "." ++ key) limit).issues = [] := by
  have htext : ("$" ++ name ++ "." ++ key).toList = '$' :: (name.toList ++ '.' :: key.toList) := by
    simp
  have hdot := head_of_isIdentifier hkey
  obtain ⟨c, tail, hcs, hc, htail, -⟩ := eq_cons_of_isIdentifier hkey
  have hlast : Spells key.toList [.word key.toList] := by
    have hend : ∀ d ∈ ([] : List Char).head?, continuesIdentifier d = false := by simp
    have hword := Spells.word hc htail hend .nil
    rwa [List.append_nil, ← hcs] at hword
  have hspells := Spells.field hname hdot hlast
  rw [← htext] at hspells
  have hclean : ∀ w ∈ [Spelling.sign .dollar '$', .word name.toList, .sign .dot '.',
      .word key.toList], w.kind ≠ .unknown ∧ w.unterminated = false := by
    have hwhole : ∀ cs, isIdentifier cs = true →
        (Spelling.word cs).kind ≠ .unknown ∧ (Spelling.word cs).unterminated = false := by
      intro cs hcs
      rw [Spelling.kind_word hcs]
      exact ⟨by decide, rfl⟩
    simp [hwhole, hname, hkey, Spelling.sign]
  obtain ⟨s, span₂, hblock, ⟨v, span₁, rfl, hv⟩, hissues⟩ :=
    parse_of_statement limit hspells hclean (by simp) fun budget _ =>
      Grammar.ends_statement_step (fun _ h => h.shows) (fun _ _ h h' => h.trans h') hname
        hspells.shows (ahead_ofTokens hname hdot htext) fun d hd =>
          (Grammar.passes_varSuffix_field hkey hd.shows).imp fun _ _ _ hs => ⟨hs.1, hd.trans hs.2⟩
  exact ⟨v, span₁, span₂, hblock, hv, hissues⟩

end Texts

/-- The chain is a field of a variable. -/
def Var.IsField (name key : String) (v : Var) : Prop :=
  ∃ dollar root period field span₁ span₂ span₃,
    v = .mk (.named dollar (some root) span₁) [.field period (some field) span₂] span₃ ∧
      root.text = name ∧ field.text = key

/-- **A text is read as a field of a variable exactly if the field is an identifier.** -/
theorem parse_field_iff (limit : Nat) {name key : String}
    (hname : isIdentifier name.toList = true) :
    (∃ v span₁ span₂, (parse ("$" ++ name ++ "." ++ key) limit).block =
        some (.mk [.command (.mk v [] span₁)] none span₂) ∧ v.IsField name key) ↔
      isIdentifier key.toList = true := by
  refine ⟨fun h => ?_, fun hkey => ?_⟩
  · obtain ⟨v, span₁, span₂, hblock, hfield⟩ := h
    obtain ⟨dollar, root, period, field, span₃, span₄, span₅, rfl, -, rfl⟩ := hfield
    exact isIdentifier_of_parse hblock List.mem_cons_self (List.mem_singleton_self _) rfl
  · obtain ⟨v, span₁, span₂, hblock, hv, -⟩ := block_of_field limit hname hkey
    obtain ⟨dollar, root, step, span₃, span₄, rfl, hroot, period, field, span₅, rfl, hfield⟩ := hv
    refine ⟨_, span₁, span₂, hblock, dollar, root, period, field, span₃, span₅, span₄, rfl, ?_, ?_⟩
    · exact (congrArg Spelling.text hroot).trans String.ofList_toList
    · exact (congrArg Spelling.text hfield).trans String.ofList_toList

/-- The value of a field of a variable is what its table holds under the name of the field. -/
theorem Var.IsField.gives_value {σ : Type} {name key : String} {v : Var} (h : v.IsField name key)
    (host : Host σ) {budget : Nat} (hbudget : 1 ≤ budget) (source : String) {s : State σ}
    {a : Address} (hs : s.frames.get s.scope name = .table a) :
    (Eval.run host budget source (.value (.var v))).Gives s
      (((s.heap.table a).get? (.string key)).getD .nil) s.heap := by
  obtain ⟨n, rfl⟩ : ∃ n, budget = n + 1 := ⟨budget - 1, by omega⟩
  obtain ⟨dollar, root, period, field, span₁, span₂, span₃, rfl, rfl, rfl⟩ := h
  have hroot : (Eval.rootValue (Eval.run host n) source (.named dollar (some root) span₁)).Gives s
      (.table a) s.heap := by
    rw [← hs]
    exact Exec.gives_pure s _
  have hkey : (Eval.suffixKey (Eval.run host n) source (.field period (some field) span₂)).Gives s
      (.string field.text) s.heap := Exec.gives_pure s _
  have hindex : (Eval.index host (.table a) (.string field.text) span₂).Gives s
      (((s.heap.table a).get? (.string field.text)).getD .nil) s.heap :=
    ⟨Eval.index_table host a rfl span₂, .refl _⟩
  exact hroot.bind (hkey.bind (hindex.bind (Exec.gives_pure s _)))

/-! ## What is offered -/

namespace Walk

variable {ctx : AssistContext} {fits : Completion → Prop}

/-- What is called is no bare name, so nothing is known about its arguments. -/
theorem quiet_visitArguments_unnamed {c : Command} (hname : c.callee.bareName? = none)
    (hnone : c.arguments = []) (h : Completion.Fit fits (atCaret ctx)) :
    Calm ctx fits (visitArguments ctx c) := by
  unfold visitArguments
  rw [hnone, hname]
  dsimp only
  split
  · exact looks_offer (h _ rfl (List.forall_mem_nil _))
  · exact .pure trivial

/-- Behind the period, each visit offers what is put in at the caret. -/
theorem keeps_missing_field (h : Completion.Fit fits (atCaret ctx)) {name : List Char} {v : Var}
    {span₁ span₂ : Span}
    (hv : Grammar.StepsFrom name (fun s => ∃ period span, s = .field period none span) v)
    (hroot : ∀ t ∈ (Outline.ofVar v).tokens, t.spelling = .word name →
      t.span.touches ctx.caret = false) :
    ∀ u ∈ Visits.block (.mk [.command (.mk v [] span₁)] none span₂), Keeps ctx fits u := by
  obtain ⟨dollar, root, step, span₃, span₄, rfl, hspelling, period, span₅, rfl⟩ := hv
  have hbehind : root.span.touches ctx.caret = false := by
    refine hroot root ?_ hspelling
    simp [Outline.ofVar, Outline.ofRoot, Outline.ofTokens, Outline.tokens, Outline.tokensOfAll]
  have hplace : Welcomes ctx fits (some root) := by
    refine ⟨h, fun t ht htouches => ?_⟩
    cases ht
    rw [hbehind] at htouches
    cases htouches
  simp only [Visits.block, Visits.statements, Visits.statement, Visits.command, Visits.chain,
    Visits.root, Visits.steps, Visits.step, Visits.arguments, List.append_nil, List.cons_append,
    List.nil_append, List.forall_mem_cons]
  generalize hv : Var.mk (.named dollar (some root) span₃) [.field period none span₅] span₄ = v
  have hunnamed : v.bareName? = none := by rw [← hv]; rfl
  -- the root and the step, what is called as a whole, and the arguments on the way in and out
  refine ⟨fun f hf => ?_, fun f hf => ?_, fun f hf => ?_, fun f hf => ?_, fun f hf => ?_,
    List.forall_mem_nil _⟩
  · exact (looks_visitRoot none (r := .named dollar (some root) span₃) hplace).offers hf
  · have hnone : Welcomes ctx fits (fieldToken? (.field period none span₅)) :=
      ⟨h, fun t ht => by cases ht⟩
    exact (looks_visitSuffix v 0 hnone).offers hf
  · exact (quiet_reviewCallee v).offers hf
  · exact (quiet_visitArguments_unnamed (c := .mk v [] span₁) hunnamed rfl h).offers hf
  · exact (looks_reviewArguments (.mk v [] span₁)).offers hf

end Walk

/-- The caret behind the period does not touch the name. -/
theorem not_touches_of_mem_tokenize {name : String} (hname : isIdentifier name.toList = true) :
    ∀ t ∈ Token.tokenize ("$" ++ name ++ "."), t.spelling = .word name.toList →
      t.span.touches (("$" ++ name ++ ".").length : Nat) = false := by
  have htext : ("$" ++ name ++ ".").toList = '$' :: (name.toList ++ '.' :: []) := by simp
  obtain ⟨t₁, t₂, t₃, htokens, h₁, -, hspan, -, h₃⟩ :=
    Token.exists_tokenize_field hname (by simp) htext
  intro t ht hspelling
  have hkind : t.kind = .identifier :=
    (congrArg Spelling.kind hspelling).trans (Spelling.kind_word hname)
  rw [htokens, Token.walk] at ht
  simp only [List.mem_cons, List.not_mem_nil, or_false] at ht
  obtain rfl | rfl | rfl | rfl := ht
  · rw [h₁] at hkind
    cases hkind
  · have hlength : ("$" ++ name ++ ".").length = name.toList.length + 2 := by
      rw [← String.length_toList, htext]
      simp
    rw [hspan, Span.touches, hlength, Bool.and_eq_false_iff]
    right
    simp
  · rw [h₃] at hkind
    cases hkind
  · cases hkind

open Outline in
/-- Behind a variable and a period, all that is offered is put in at the caret. -/
theorem Vm.replace_of_assist_field {σ : Type} {vm : Vm σ} {name : String}
    (hname : isIdentifier name.toList = true) {options : AssistOptions} {a : Assistance}
    (h : vm.assist ("$" ++ name ++ ".") ("$" ++ name ++ ".").length options = .ok a) :
    ∀ o ∈ a.suggestions, o.replace = some (.point ("$" ++ name ++ ".").length) := by
  generalize htext : "$" ++ name ++ "." = text at h ⊢
  obtain ⟨completion, issues, hfound, -, -, hsuggestions⟩ := Vm.findings_of_assist h
  have hcaret : max 0 (min ((text.length : Nat) : Int) text.toList.length) = text.length := by
    rw [String.length_toList]
    omega
  rw [hcaret] at hfound
  generalize hctx : Assist.context vm text.toList text.length options = ctx at hfound
  have hplace : ∀ c ∈ completion, c.replace = Walk.atCaret ctx ∧
      ∀ s ∈ c.candidates, s.replace = none := by
    refine Assist.fits_of_findings (fun _ _ h₁ h₂ => ⟨h₁, h₂⟩) (fun b hb => ?_) hfound
    obtain ⟨v, span₁, span₂, hblock, hv⟩ := block_of_missing_field Limit.nesting hname
    rw [htext] at hblock
    obtain rfl := Option.some.inj (hb.symm.trans hblock)
    refine Walk.keeps_missing_field (fun _ h₁ h₂ => ⟨h₁, h₂⟩) hv fun t ht hspelling => ?_
    have hmem : t ∈ (ofBlock (.mk [.command (.mk v [] span₁)] none span₂)).tokens := by
      simp [ofBlock, ofStatements, ofStatement, ofCommand, tokens, tokensOfAll, ht]
    rw [← hctx]
    have htouches := not_touches_of_mem_tokenize hname t
    rw [htext] at htouches
    exact htouches ((tokens_sublist_tokenize hb).subset hmem) hspelling
  rw [hsuggestions]
  cases completion with
  | none => exact List.forall_mem_nil _
  | some c =>
    intro o ho
    obtain ⟨hreplace, hown⟩ := hplace c rfl
    obtain ⟨s, hs, rfl⟩ := Completion.mem_candidates_of_mem_rank ho
    rw [Completion.replace_filled, hown s hs, Option.getD_none, hreplace, ← hctx]
    rfl

end CommandScript
