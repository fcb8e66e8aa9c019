import CommandScript.Token.Lexer
import CommandScript.Proofs.Lossless
/-!
# CommandScript — from one token on

A token is cut from the rest of the text and from two marks that are in the kinds of the
tokens before it. So from any token on, the tokens of a text are those of the rest of it,
walked from there (`walk_from`): what holds of the first token of every walk, or of the
first two, holds of each token of a text, or of each two neighbours.

The lexer takes the steps of that walk, and reports as it goes.
-/

namespace CommandScript

/-- What comes after tokens. -/
def Surroundings.behind (around : Surroundings) (ts : List Token) : Surroundings :=
  ts.foldl (fun s t => s.past t.kind) around

namespace Token

theorem walk_nil (offset covered : Nat) (around : Surroundings) :
    walk offset around covered [] = [atEnd offset around] := by
  cases covered <;> rfl

/-- **One step of the walk**: the lexeme that is scanned makes the token, and the walk goes on
behind it. -/
theorem walk_scan (offset : Nat) (around : Surroundings) (c : Char) (rest : List Char) :
    walk offset around 0 (c :: rest) = (Lexeme.scan c rest).token c offset around ::
      walk (offset + 1 + (Lexeme.scan c rest).tail.length) (around.past (Lexeme.scan c rest).kind) 0
        (rest.drop (Lexeme.scan c rest).tail.length) := by
  have htail := List.prefix_iff_eq_append.1 (Lexeme.scan_tail_isPrefix c rest)
  have hwalk := walk_append (offset + 1) (around.past (Lexeme.scan c rest).kind) (Lexeme.scan c rest).tail
    (rest.drop (Lexeme.scan c rest).tail.length)
  rw [htail] at hwalk
  rw [walk, hwalk]
  rfl

/-- **From any token on**, the tokens are those of the rest of the text, and the text before is
that of the tokens before. -/
theorem walk_from {before after : List Token} {t : Token} {offset : Nat} {around : Surroundings}
    {cs : List Char} (h : walk offset around 0 cs = before ++ t :: after) :
    ∃ rest, cs = before.flatMap (·.text.toList) ++ rest ∧
      t :: after = walk (offset + (before.flatMap (·.text.toList)).length) (around.behind before) 0 rest := by
  induction before generalizing offset around cs with
  | nil => exact ⟨cs, rfl, h.symm⟩
  | cons u before ih =>
    cases cs with
    | nil =>
      rw [walk_nil] at h
      simp at h
    | cons c rest =>
      rw [walk_scan] at h
      obtain ⟨rfl, hrest⟩ := List.cons.inj h
      obtain ⟨behind, hcs, hafter⟩ := ih hrest
      have htail := List.prefix_iff_eq_append.1 (Lexeme.scan_tail_isPrefix c rest)
      have htext : ((Lexeme.scan c rest).token c offset around).text.toList =
          c :: (Lexeme.scan c rest).tail := String.toList_ofList
      -- the first token takes what its lexeme does, and the walk goes on there
      refine ⟨behind, ?_, ?_⟩
      · rw [List.flatMap_cons, htext, List.cons_append, List.cons_append, List.append_assoc, ← hcs,
          htail]
      · rw [hafter, List.flatMap_cons, htext, List.length_append, List.length_cons]
        congr 1
        omega

/-- **A token of a text** stands for its end, with nothing behind it, or is made by the lexeme that
is scanned where the text of the tokens before it ends. -/
theorem token_cases {before after : List Token} {t : Token} {text : String}
    (h : tokenize text = before ++ t :: after) :
    (text.toList = before.flatMap (·.text.toList) ∧ after = [] ∧
        t = atEnd (before.flatMap (·.text.toList)).length (Surroundings.behind {} before)) ∨
      ∃ c rest, text.toList = before.flatMap (·.text.toList) ++ c :: rest ∧
        t = (Lexeme.scan c rest).token c (before.flatMap (·.text.toList)).length
          (Surroundings.behind {} before) ∧
        after = walk t.span.stop (Surroundings.behind {} (before ++ [t])) 0
          (rest.drop (Lexeme.scan c rest).tail.length) := by
  obtain ⟨cs, htext, hwalk⟩ := walk_from h
  rw [Nat.zero_add] at hwalk
  cases cs with
  | nil =>
    rw [walk_nil] at hwalk
    obtain ⟨ht, hafter⟩ := List.cons.inj hwalk
    exact .inl ⟨by rw [htext, List.append_nil], hafter, ht⟩
  | cons c rest =>
    rw [walk_scan] at hwalk
    obtain ⟨rfl, hafter⟩ := List.cons.inj hwalk
    refine .inr ⟨c, rest, htext, rfl, hafter.trans ?_⟩
    rw [Surroundings.behind, Surroundings.behind, List.foldl_append]
    rfl

/-- A token begins where the text of the tokens before it ends. -/
theorem start_eq {before after : List Token} {t : Token} {text : String}
    (h : tokenize text = before ++ t :: after) :
    t.span.start = (before.flatMap (·.text.toList)).length := by
  obtain ⟨-, -, rfl⟩ | ⟨c, rest, -, rfl, -⟩ := token_cases h <;> rfl

/-- The text before a token is that of the tokens before it. -/
theorem take_start {before after : List Token} {t : Token} {text : String}
    (h : tokenize text = before ++ t :: after) :
    text.toList.take t.span.start = before.flatMap (·.text.toList) := by
  obtain ⟨rest, htext, -⟩ := walk_from h
  rw [start_eq h, htext, List.take_left]

end Token

namespace Lexer

variable {x : Lexer} {c : Char} {rest : List Char}

theorem run_of_nil (h : x.rest = []) : x.run = ([.atEnd x.offset x.around], x) := by
  have hnext : x.next = (.atEnd x.offset x.around, x) := by rw [next, h]
  rw [run, hnext]
  rfl

theorem next_of_cons (h : x.rest = c :: rest) :
    x.next = ((Lexeme.scan c rest).token c x.offset x.around,
      ⟨rest.drop (Lexeme.scan c rest).tail.length, x.offset + 1 + (Lexeme.scan c rest).tail.length,
        x.around.past (Lexeme.scan c rest).kind,
        ((Lexeme.scan c rest).token c x.offset x.around).issue?.toList ++ x.reported⟩) := by
  rw [next, h]
  rfl

theorem next_kind_ne_endOfInput (h : x.rest = c :: rest) : x.next.1.kind ≠ .endOfInput := by
  rw [next_of_cons h]
  exact Lexeme.scan_kind_ne_endOfInput c rest

theorem run_of_cons (h : x.rest = c :: rest) :
    x.run = (x.next.1 :: x.next.2.run.1, x.next.2.run.2) := by
  rw [run]
  exact dif_neg (next_kind_ne_endOfInput h)

/-- **The lexer takes the steps of the walk**, and reports what the tokens give rise to. -/
theorem run_eq (x : Lexer) :
    x.run.1 = Token.walk x.offset x.around 0 x.rest ∧
      x.run.2.issues = x.issues ++ Token.issues (Token.walk x.offset x.around 0 x.rest) := by
  cases hrest : x.rest with
  | nil =>
    rw [run_of_nil hrest, Token.walk_nil]
    exact ⟨rfl, (List.append_nil _).symm⟩
  | cons c rest =>
    obtain ⟨htokens, hissues⟩ := run_eq x.next.2
    rw [run_of_cons hrest, Token.walk_scan]
    rw [next_of_cons hrest] at htokens hissues ⊢
    refine ⟨congrArg _ htokens, hissues.trans ?_⟩
    rw [issues, issues, List.reverse_append, List.append_assoc, Token.issues, Token.issues,
      List.filterMap_cons]
    cases ((Lexeme.scan c rest).token c x.offset x.around).issue? <;> rfl
termination_by x.rest.length
decreasing_by exact length_next_lt (next_kind_ne_endOfInput hrest)

theorem lex_eq (text : String) : lex text = (Token.tokenize text, Token.issues (Token.tokenize text)) :=
  Prod.ext (run_eq (start text)).1 (run_eq (start text)).2

end Lexer

end CommandScript
