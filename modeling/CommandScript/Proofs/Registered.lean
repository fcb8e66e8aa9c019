import CommandScript.Proofs.ByItself
import CommandScript.Proofs.Commands
import CommandScript.Proofs.FieldNames
/-!
# CommandScript — names that can be registered

The host may register a name exactly if the lexer takes all of it for one identifier. Then the name
is a script of its own, a command without arguments; and since a bare name is looked up among the
globals first, what is registered is what that script gives, whatever variables there are.
-/

namespace CommandScript

open Parse Cursor

namespace Token

variable {name : String} {t ending : Token}

/-- An identifier is one token. -/
theorem tokenize_of_isIdentifier (h : isIdentifier name.toList = true) :
    ∃ t ending, tokenize name = [t, ending] ∧ t.kind = .identifier ∧ ending.kind = .endOfInput := by
  obtain ⟨c, tail, hname, hc, htail, hword⟩ := eq_cons_of_isIdentifier h
  have hscan : Lexeme.scan c tail = ⟨.ofWord (String.ofList (c :: tail)), tail, false, false⟩ := by
    have hscanned := @Lexeme.scan_word c tail [] hc htail nofun
    rwa [List.append_nil] at hscanned
  have htokens := tokenize_ofList_scan c tail
  rw [hscan] at htokens
  dsimp only at htokens
  rw [← hname, String.ofList_toList] at htokens
  rw [String.ofList_toList] at hword
  exact ⟨_, _, htokens, hword, rfl⟩

/-- A text of one identifier is that identifier. -/
theorem isIdentifier_of_tokenize (h : tokenize name = [t, ending]) (ht : t.kind = .identifier)
    (hending : ending.kind = .endOfInput) : isIdentifier name.toList = true := by
  have hmem : t ∈ tokenize name ∧ ending ∈ tokenize name := by simp [h]
  have hempty : ending.text.toList = [] := by
    obtain ⟨c, rest, _, _, rfl⟩ | ⟨_, _, rfl⟩ := exists_scan_of_mem hmem.2
    · exact absurd hending (Lexeme.scan_kind_ne_endOfInput c rest)
    · rfl
  have hjoined : (tokenize name).flatMap (·.text.toList) = name.toList := walk_joined name.toList 0 0 {}
  rw [h, List.flatMap_cons, List.flatMap_cons, hempty, List.flatMap_nil, List.append_nil,
    List.append_nil] at hjoined
  exact hjoined ▸ isIdentifier_of_mem hmem.1 ht

end Token

/-! ## The script of a name -/

/-- The command is a name alone. -/
def Command.IsName (name : String) (c : Command) : Prop :=
  ∃ t span₁ span₂, c = .mk (.mk (.bare t) [] span₁) [] span₂ ∧ t.text = name

/-- A name is a command without arguments, where nothing is left behind it. -/
theorem Grammar.passes_statement_name {limit depth : Nat} {self : (n : Nonterminal) → Parse n.Result}
    {c : Cursor} {name : String} (hname : isIdentifier name.toList = true)
    (h : c.Shows [.word name.toList]) :
    (statement limit self depth).Ends c fun r d =>
      (∃ s, r = some s ∧ ∃ k, s = .command k ∧ k.IsName name) ∧ c.Passes [] d := by
  have hcommand : (varStatement self depth).Ends c fun s d =>
      ∃ k, s = .command k ∧ k.IsName name ∧ c.Passes [] d := by
    refine ends_varStatement_command (passes_var_bare hname (by simp) h)
      (fun v d hd hv => ⟨?_, ?_⟩) fun v d hd hv => ?_
    · rw [hv.2.shows.sees_eq hd]
      rfl
    · rw [seesOperator, hv.2.shows.kind_eq hd]
      rfl
    · obtain ⟨⟨t, span₁, rfl, ht⟩, hpasses⟩ := hv
      refine (passes_command_nil hpasses.shows _).imp fun k e _ hk => ?_
      obtain ⟨⟨span₂, rfl⟩, hend⟩ := hk
      exact ⟨⟨t, span₁, span₂, rfl, ht.trans String.ofList_toList⟩, hpasses.trans hend⟩
  refine Ends.sound fun hc => ?_
  have hkind : c.kind = .identifier := (h.kind_eq hc).trans (Spelling.kind_word hname)
  refine (ends_statement_var (.inl hkind) hcommand).imp fun r d _ hr => ?_
  obtain ⟨s, rfl, k, rfl, hk, hpasses⟩ := hr
  exact ⟨⟨_, rfl, k, rfl, hk⟩, hpasses⟩

/-- **A name is a script of one command.** -/
theorem exists_command_of_isIdentifier (limit : Nat) {name : String}
    (hname : isIdentifier name.toList = true) :
    ∃ c span, (parse name limit).block = some (.mk [.command c] none span) ∧ c.IsName name := by
  obtain ⟨first, tail, hcs, hc, htail, -⟩ := eq_cons_of_isIdentifier hname
  -- the name is one lexeme with nothing behind it, so the statement is all there is to read
  have hkind : (Spelling.word name.toList).kind = .identifier := Spelling.kind_word hname
  have hspells : Spells name.toList [.word name.toList] := by
    have hword := @Spells.word first tail [] _ hc htail nofun .nil
    rwa [List.append_nil, ← hcs] at hword
  have hclean : ∀ w ∈ [Spelling.word name.toList], w.kind ≠ .unknown ∧ w.unterminated = false :=
    List.forall_mem_singleton.2 ⟨by rw [hkind]; decide, rfl⟩
  obtain ⟨s, span, hblock, ⟨c, rfl, hc⟩, -⟩ := parse_of_statement limit hspells hclean
    (by rw [hkind]; decide) fun _ _ => Grammar.passes_statement_name hname hspells.shows
  exact ⟨c, span, hblock, hc⟩

/-! ## What the script gives -/

open Exec

variable {σ : Type} {host : Host σ} {source : String} {s : State σ}

/-- **What cannot be called is what its name gives**, and nothing else is looked at. -/
theorem gives_command_name {self : String → (t : Task σ) → Exec σ t.Result} {name : String}
    {c : Command} (hc : c.IsName name) {v : Value} (hget : s.globals.get? name = some v)
    (hv : v.isCallable = false) :
    (Eval.command host self source c).Gives s [v] s.heap := by
  obtain ⟨t, span₁, span₂, rfl, rfl⟩ := hc
  have hroot : (Eval.rootValue self source (.bare t)).Gives s v s.heap := by
    refine gives_get (Gives.bind (gives_pure s _) ?_)
    rw [hget]
    exact gives_pure s v
  -- a bare name that is a global is called by its value; no variable is looked at
  have hcallee : (Eval.calleeValue host self source (.mk (.bare t) [] span₁)).Gives s v s.heap := by
    refine gives_get ?_
    have hhas : s.globals.has t.text = true := by rw [Names.has, hget]; rfl
    rw [show (Var.mk (.bare t) [] span₁).bareName? = some t.text from rfl]
    dsimp only
    rw [hhas, Bool.true_or, if_pos rfl]
    exact hroot.bind (gives_pure s v)
  refine hcallee.bind (Gives.bind (gives_pure s []) ?_)
  rw [hv, if_neg Bool.false_ne_true]
  exact gives_pure s [v]

/-- **A run of one statement gives its values**, where it can be run in any scope. -/
theorem Vm.run_of_statement {vm : Vm σ} (hpending : vm.state.pending = none) {text : String}
    {limit budget : Nat} {st : Statement} {span : Span} {values : Option (List Value)} {h : Heap}
    (hblock : (parse text limit).block = some (.mk [st] none span))
    (hst : ∀ frames scope, (Eval.statement host budget (Eval.run host budget) text st).Gives
      { vm.state with frames, scope } values h) :
    ∃ vm', vm.run host budget text limit = (.ok values, vm') := by
  -- a run begins in a frame of its own, which is why the statement has to do in any scope
  obtain ⟨frame, frames, hchild⟩ :
      ∃ frame frames, vm.state.frames.child vm.state.scope true = (frame, frames) := ⟨_, _, rfl⟩
  have hwithin : (Exec.within frame (runBlock host budget text (.mk [st] none span))).Gives
      { vm.state with frames } values h := (gives_runBlock_singleton (hst frames frame) hpending).within
  have hexecute : execute host budget text (.mk [st] none span) vm.state =
      (.done values, { vm.state with frames, heap := h }) := by
    unfold execute
    rw [hchild]
    dsimp only
    rw [hwithin.1]
  refine ⟨{ vm with state := { vm.state with frames, heap := h } }, ?_⟩
  unfold Vm.run
  dsimp only
  rw [hblock]
  dsimp only
  rw [hexecute]

/-- What is registered is the machine with one more global. -/
theorem Vm.setVariable_eq_ok_iff {vm vm' : Vm σ} {name : String} {v : Value} :
    vm.setVariable name v = .ok vm' ↔ isIdentifier name.toList = true ∧
      vm' = { vm with state := { vm.state with globals := vm.state.globals.insert name v } } := by
  unfold setVariable checkName
  split
  next h =>
    rw [and_iff_right h]
    exact ⟨fun heq => by cases heq; rfl, fun heq => heq ▸ rfl⟩
  next h => exact iff_of_false nofun fun heq => h heq.1

end CommandScript
