import ModSyntax.Proofs.Termination

/-!
# Where statements and declarations end

A sequence of statements ends at one of the symbols that close it, or at the end of the input
(`Rule.endsAt_sequenceOf`), and declarations end where a body can begin or end
(`Rule.endsAt_declarationsOf`). So nothing but `END` or the end of the input follows the body of a
block (`Rule.kind_body`).

What a run ends at is the same as what the last of its rounds ends at. No run comes to the bottom of
its calls, so it does not matter that nothing is known of an idle call there
(`Parser.Guarded.fix_induction`).
-/

namespace ModSyntax

namespace Parser

variable {α β : Type} {kinds : List Kind}

/-- What holds of every outcome of `bottom`, and of the step whenever it holds of its argument,
holds of every outcome of the recursive parser: `bottom` may be any parser. -/
theorem Guarded.fix_induction {step : Parser α → Parser α} (h : Guarded step) {idle : α}
    {P : Cursor → Outcome α → Prop} (bottom : Parser α) (base : ∀ c, P c (bottom.run c))
    (next : ∀ p : Parser α, (∀ c, P c (p.run c)) → ∀ c, P c ((step p).run c)) (c : Cursor) :
    P c ((fix idle step).run c) := by
  have hiterate : ∀ n c, P c ((step^[n] bottom).run c) := by
    intro n
    induction n with
    | zero => exact base
    | succ n ih =>
      rw [Function.iterate_succ_apply']
      exact next _ ih
  rw [← h.run_iterate (fix_eq h idle) bottom (Nat.lt_succ_self c.rest.length)]
  exact hiterate _ c

/-- Every run of the parser ends in front of a symbol of one of the kinds. -/
def EndsAt (p : Parser α) (kinds : List Kind) : Prop := ∀ c, (p.run c).next.kind ∈ kinds

theorem endsAt_bind (p : Parser α) {f : α → Parser β} (hf : ∀ a, (f a).EndsAt kinds) :
    (p >>= f).EndsAt kinds := fun c => hf _ (p.run c).next

theorem EndsAt.fix {step : Parser α → Parser α} {idle : α} (h : Guarded step)
    (next : ∀ p : Parser α, p.EndsAt (.eof :: kinds) → (step p).EndsAt (.eof :: kinds)) :
    (fix idle step).EndsAt (.eof :: kinds) := by
  refine h.fix_induction (P := fun _ o => o.next.kind ∈ Kind.eof :: kinds)
    (skipUntil kinds >>= fun _ => pure idle) (fun c => ?_) next
  exact c.kind_skipUntil kinds

end Parser

namespace Rule

open ModSyntax.Parser

/-- Where no statement follows, the sequence is closed, or the input has ended. -/
theorem kind_separator {closers : List Kind} {c : Cursor}
    (h : ((separator closers).run c).value = false) :
    ((separator closers).run c).next.kind ∈ .eof :: closers := by
  by_cases hs : c.kind = .semicolon
  · simp [separator, hs] at h
  by_cases hstart : c.kind ∈ statementStart
  · simp [separator, hs, hstart] at h
  by_cases hend : c.kind ∈ .eof :: closers
  · simp only [List.mem_cons] at hend
    simp [separator, hs, hstart, hend]
  · have hskip := c.next.kind_skipUntil (.semicolon :: closers)
    simp only [separator, Parser.run_bind, run_accept, run_kind, run_unexpected, run_skip,
      run_skipUntil, hs, hstart, hend, decide_false, Bool.false_eq_true, if_false] at h ⊢
    simp_all

/-- A sequence of statements ends in front of what closes it, or at the end of the input. -/
theorem endsAt_sequenceOf {statement : Rule Statement} (ht : statement.attempt.Takes)
    {closers : List Kind} (h : ∀ k ∈ closers, k ∉ statementStart) :
    (sequenceOf statement closers).EndsAt (.eof :: closers) := by
  refine .fix (guarded_sequenceStep ht h) fun more hmore => endsAt_bind _ fun found c => ?_
  simp only [Parser.run_bind]
  cases hv : ((separator closers).run c).value with
  | false => exact kind_separator hv
  | true => exact hmore _

/-- Behind the statements of a branch and those of its `ELSE`, the branch or the input ends. -/
theorem kind_else {statement : Rule Statement} (ht : statement.attempt.Takes) {c : Cursor}
    (h : c.kind ∈ .eof :: thenEnd) :
    ((after? .kwElse (sequenceOf statement sequenceEnd)).attempt.run c).next.kind ∈
      .eof :: sequenceEnd := by
  have hsequence := endsAt_sequenceOf ht (by decide : ∀ k ∈ sequenceEnd, k ∉ statementStart) c.next
  by_cases hc : c.kind = .kwElse
  · simpa [after?, hc] using hsequence
  · simp_all [after?, thenEnd, sequenceEnd]

/-- Declarations end where the body of the block begins or where the block ends. -/
theorem endsAt_declarationsOf (block : Parser Block) :
    (declarationsOf block).EndsAt [.eof, .kwBegin, .kwEnd] := by
  refine .fix (guarded_declarationsStep block) fun more hmore c => ?_
  rw [declarationsStep, run_kind_bind]
  split
  · exact hmore _
  · exact hmore _
  · exact hmore _
  · next hk => simp [hk]
  · next hk => simp [hk]
  · next hk => simp [hk]
  · exact hmore _

/-- Behind its body, a block ends, or the input does. -/
theorem kind_body {c : Cursor} (h : c.kind ∈ [.eof, .kwBegin, .kwEnd]) :
    (body.run c).next.kind ∈ .eof :: sequenceEnd := by
  have hsequence : ((sequence sequenceEnd).run c.next).next.kind ∈ .eof :: sequenceEnd :=
    endsAt_sequenceOf takes_statement (by decide) c.next
  by_cases hc : c.kind = .kwBegin
  · simpa [body, hc] using hsequence
  · simp_all [body, sequenceEnd]

end Rule

end ModSyntax
