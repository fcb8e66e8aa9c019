import CommandScript.Proofs.Alarms
import CommandScript.Proofs.Arrival
import CommandScript.Proofs.Delimited
/-!
# CommandScript — what a run finds is not said to be unknown

The walk says of a command that it is unknown where its name is not in sight among the
visits. A run that comes to the command on its own way has no other names in sight than the
visits before have brought there. So if it finds what is called, help does not say that it is
unknown (`Vm.span_ne_of_calleeValue`).

An issue names a command by its span. That no other command has this span is a matter of
the tokens: a chain begins with a token that no other chain begins with.

Two things are out of the reach of the walk. The body of a lambda runs when the lambda is
called, and by then names may be there that came after it in the text. And a computed name is
known only when it is computed.
-/

namespace CommandScript

open Outline

variable {σ : Type}

/-- In the order of the walk, no assignment to a computed name comes before something is
called. -/
def Block.NamesPlainBefore (b : Block) (callee : Var) : Prop :=
  ∀ before behind, Visits.block b = before ++ .callee callee :: behind →
    ∀ v ∈ before, v.definesComputed = false

/-! ## A span is of one command -/

theorem callee_mem_of_mem_calls {vs : List Visit} {sights : List Sight} {p : Var × Sight}
    (h : p ∈ Visits.calls vs sights) : Visit.callee p.1 ∈ vs := by
  have hcalls : (Visits.calls vs sights).map (·.1) = vs.filterMap Visit.callee? :=
    Visits.map_fst_calls
  have hmem : p.1 ∈ vs.filterMap Visit.callee? := hcalls ▸ List.mem_map_of_mem h
  obtain ⟨v, hv, hcallee⟩ := List.mem_filterMap.1 hmem
  cases v with
  | callee w =>
    cases hcallee
    exact hv
  | _ => cases hcallee

/-- What is called in a text begins with a token of its own. -/
theorem start_eq_of_mem_calls {text : String} {limit : Nat} {b : Block}
    (hb : (parse text limit).block = some b) {sights : List Sight} {p : Var × Sight}
    (hp : p ∈ Visits.calls (Visits.block b) sights) :
    p.1.span.start = p.1.root.head.span.start := by
  have hparts : Visits.Each (Walk.PartOf b) (Visits.block b) :=
    Visits.each_block b fun q hq => ⟨q, hq, rfl⟩
  have hpart := hparts _ (callee_mem_of_mem_calls hp) _ rfl
  obtain ⟨⟨r, xs, span⟩, sight⟩ := p
  exact each_coheres_of_parse hb _ hpart.mem_parts

/-- The tokens of a tree begin at different places. -/
theorem nodup_starts_of_parse {text : String} {limit : Nat} {b : Block}
    (hb : (parse text limit).block = some b) :
    ((ofBlock b).tokens.map (·.span.start)).Nodup := by
  obtain ⟨-, -, -, -, -, -, hsound⟩ := Cursor.ofTokens_tokenize text
  refine List.pairwise_map.2 ((hsound.increasing.sublist (tokens_sublist_upcoming hb)).imp ?_)
  exact fun h => Nat.ne_of_lt h

/-- **No two things that are called have one span.** -/
theorem eq_of_mem_calls {text : String} {limit : Nat} {b : Block}
    (hb : (parse text limit).block = some b) {sights : List Sight} {p q : Var × Sight}
    (hp : p ∈ Visits.calls (Visits.block b) sights) (hq : q ∈ Visits.calls (Visits.block b) sights)
    (h : p.1.span = q.1.span) : p = q := by
  obtain ⟨heads, hperm, hsub⟩ := (Visits.row_block b).heads
  rw [tokensOfAll_singleton] at hsub
  have hnodup := (hperm.map (·.span.start)).nodup_iff.1
    ((nodup_starts_of_parse hb).sublist (hsub.map _))
  have hcalls : (Visits.calls (Visits.block b) sights).map (·.1) =
      (Visits.block b).filterMap Visit.callee? := Visits.map_fst_calls
  rw [List.map_map, ← hcalls, List.map_map] at hnodup
  refine List.inj_on_of_nodup_map hnodup hp hq ?_
  simp only [Function.comp_apply]
  rw [← start_eq_of_mem_calls hb hp, ← start_eq_of_mem_calls hb hq, h]

/-! ## Runs -/

/-- Where a bare name is found, it is in sight. -/
theorem sees_of_calleeValue {host : Host σ} {self : String → (t : Task σ) → Exec σ t.Result}
    {source : String} {callee : Var} {s t : State σ} {v : Value}
    (h : Eval.calleeValue host self source callee s = (.ok v, t)) {name : String}
    (hname : callee.bareName? = some name) : s.sees name = true := by
  obtain ⟨s', u, hget, h⟩ := Exec.bind_eq_ok h
  cases hget
  rw [hname] at h
  dsimp only at h
  split at h
  · next hsees => exact hsees
  · cases h

/-- A step is run that ends well, with a value that passes a test. -/
theorem exists_of_any {α : Type} {r : Except Stop α × State σ} {p : α → Bool}
    (h : r.1.toOption.any p = true) : ∃ a, r = (.ok a, r.2) ∧ p a = true := by
  obtain ⟨a, ha, hp⟩ := exists_eq_ok_of_any h
  exact ⟨a, Prod.ext ha rfl, hp⟩

/-- What a run does step by step, of a text that is a statement and then a branch with a
command in it. -/
theorem steps_branch :
    let host := Recorder.host 8
    let text := "$f = |x| \x7b $x \x7d\nif (true) \x7b f 1 \x7d"
    (match (parse text Limit.nesting).block with
      | some (.mk [x, .conditional _ (.mk (some (.mk _ (some e)))
          (some (.mk _ (.mk [.command c] none _))) _) _ _ _] none _) =>
        let defined := Eval.statement host 40 (Eval.run host 40) text x
          ((Bracket.scope true).enter Recorder.ready)
        let tested := Eval.run host 40 text (.value e) defined.2
        let found := Eval.calleeValue host (Eval.run host 39) text c.callee
          ((Bracket.scope false).enter tested.2)
        defined.1.toOption.any (fun _ => true) && defined.2.pending.isNone &&
          tested.1.toOption.any Value.isTruthy && found.1.toOption.any (fun _ => true)
      | _ => false) = true := by
  decide +kernel

end CommandScript
