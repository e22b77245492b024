import ModSyntax.Proofs.Truthfulness

/-!
# An `END` is missing at the end of the input only

A sequence of statements skips whatever it cannot read, up to a symbol that closes it. So where a
block, an `IF` or a `WHILE` expects its `END`, the `END` is there or the input has ended
(`Parser.ClosedAt`), and no diagnostic asks for `END` alone in the place of another token
(`sequence_closed`).
-/

namespace ModSyntax

namespace Parser

variable {α β : Type} {rule : Construct} {c : Cursor}

/-- At one place of its run the parser expects the `END` of `rule`: either it stands there and the
run ends behind it, or the input has ended and the `END` is reported as missing. -/
def ClosedAt (p : Parser α) (rule : Construct) (c : Cursor) : Prop :=
  ∃ d : Cursor, c.Reaches d ∧ d.Reaches (p.run c).next ∧
    (d.kind = .kwEnd ∧ (p.run c).next = d.next ∨
      d.kind = .eof ∧ Report.mk d.index (.unexpected rule [.kwEnd]) ∈ (p.run c).reports)

/-- The `END` is expected at once. -/
theorem closedAt_here {p : Parser α} (h : c.kind ∈ [.eof, .kwEnd])
    (hend : c.kind = .kwEnd → (p.run c).next = c.next)
    (hmissing : c.kind ≠ .kwEnd →
      Report.mk c.index (.unexpected rule [.kwEnd]) ∈ (p.run c).reports) : p.ClosedAt rule c := by
  refine ⟨c, .refl c, p.forward c, ?_⟩
  by_cases hc : c.kind = .kwEnd
  · exact .inl ⟨hc, hend hc⟩
  · exact .inr ⟨by simpa [hc] using h, hmissing hc⟩

/-- The `END` may be expected by what follows. -/
theorem ClosedAt.behind {p : Parser α} {f : α → Parser β}
    (h : (f (p.run c).value).ClosedAt rule (p.run c).next) : (p >>= f).ClosedAt rule c := by
  obtain ⟨d, hc, hd, hend⟩ := h
  refine ⟨d, (p.forward c).trans hc, hd, hend.imp_right fun ⟨heof, hr⟩ => ⟨heof, ?_⟩⟩
  exact List.mem_append_right _ hr

/-- What follows the `END` may look around, but not move. -/
theorem ClosedAt.stay {p : Parser α} {f : α → Parser β} (h : p.ClosedAt rule c)
    (hf : ∀ a d, ((f a).run d).next = d) : (p >>= f).ClosedAt rule c := by
  obtain ⟨d, hc, hd, hend⟩ := h
  have hnext : ((p >>= f).run c).next = (p.run c).next := hf _ _
  rw [ClosedAt, hnext]
  refine ⟨d, hc, hd, hend.imp_right fun ⟨heof, hr⟩ => ⟨heof, ?_⟩⟩
  exact List.mem_append_left _ hr

/-- Whatever a run of steps reports, the input has ended where it misses an `END`. -/
theorem StepsAt.end_missing {p : Parser α} (h : p.StepsAt c) {r : Report}
    (hr : r ∈ (p.run c).reports) (hmissing : r.complaint = .unexpected rule [.kwEnd]) :
    ∃ d : Cursor, c.Reaches d ∧ d.index = r.index ∧ d.kind = .eof := by
  obtain ⟨d, hc, -, hindex, hplace⟩ := h.justified r hr
  exact ⟨d, hc, hindex, hplace.end_missing rule hmissing⟩

end Parser

namespace Rule

open ModSyntax.Parser

variable {α β : Type} {rule : Construct} {c : Cursor}

theorem closedAt_terminate (rule : Construct) (sync : List Kind) (h : c.kind ∈ [.eof, .kwEnd]) :
    (terminate .kwEnd rule sync).ClosedAt rule c :=
  closedAt_here h (fun hc => by simp [terminate, hc]) fun hc => by simp [terminate, hc]

theorem closedAt_expect (rule : Construct) (h : c.kind ∈ [.eof, .kwEnd]) :
    (expect .kwEnd rule).attempt.ClosedAt rule c :=
  closedAt_here h (fun hc => by simp [expect, hc]) fun hc => by simp [expect, hc]

theorem closedAt_lift_bind {p : Parser α} {f : α → Rule β}
    (h : (f (p.run c).value).attempt.ClosedAt rule (p.run c).next) :
    ((liftM p : Rule α) >>= f).attempt.ClosedAt rule c := .behind h

theorem closedAt_after?_bind {p : Parser α} {k : Kind} {f : Option α → Rule β}
    (h : ∀ a?, (f a?).attempt.ClosedAt rule ((after? k (liftM p)).attempt.run c).next) :
    (after? k (liftM p) >>= f).attempt.ClosedAt rule c := by
  obtain ⟨a?, ha⟩ : ∃ a?, ((after? k (liftM p)).attempt.run c).value = some a? := by
    by_cases hc : c.kind = k <;> simp [after?, hc]
  refine .behind ?_
  rw [ha]
  exact h a?

/-- The statement is made of what was read before the `END`. -/
theorem closedAt_expect_bind {f : Unit → Rule β} (h : c.kind ∈ [.eof, .kwEnd])
    (hf : ∀ d, ((f ()).attempt.run d).next = d) :
    (discard (expect .kwEnd rule) >>= f).attempt.ClosedAt rule c := by
  have hexpect : (discard (expect .kwEnd rule)).attempt.ClosedAt rule c := by
    simpa [ClosedAt] using closedAt_expect rule h
  refine hexpect.stay fun a? d => ?_
  cases a? with
  | none => rfl
  | some u => exact hf d

theorem closedAt_block (c : Cursor) : block.ClosedAt .block c := by
  rw [block_eq]
  refine .behind (.behind (.stay (closedAt_terminate _ _ ?_) fun _ _ => rfl))
  exact kind_body (endsAt_declarationsOf block c)

theorem closedAt_branchOf (c : Cursor) :
    (branchOf statement).attempt.ClosedAt .ifStatement c := by
  refine closedAt_lift_bind (closedAt_lift_bind (closedAt_lift_bind ?_))
  have hthen := endsAt_sequenceOf takes_statement (by decide : ∀ k ∈ thenEnd, k ∉ statementStart)
  refine closedAt_after?_bind fun elseBody => ?_
  refine closedAt_expect_bind (kind_else takes_statement (hthen _)) fun d => ?_
  split <;> rfl

theorem closedAt_loopOf (c : Cursor) : (loopOf statement).attempt.ClosedAt .whileStatement c := by
  refine closedAt_lift_bind (closedAt_lift_bind (closedAt_lift_bind ?_))
  refine closedAt_expect_bind (endsAt_sequenceOf takes_statement (by decide) _) fun d => ?_
  split <;> rfl

end Rule

/-- A diagnostic that asks for `END` alone is made for a report that does. -/
theorem Report.complaint_of_unexpected_end {r : Report} {found? : Option Symbol}
    {found rule : String} (h : r.problem found? = .unexpected found rule ["END"]) :
    ∃ construct, r.complaint = .unexpected construct [.kwEnd] := by
  unfold problem at h
  split at h
  · next construct expected s hcomplaint =>
    obtain ⟨k, rfl, hk⟩ := List.map_eq_singleton_iff.1 (Problem.unexpected.inj h).2.2
    obtain rfl : k = .kwEnd := Kind.spelling_injective hk
    exact ⟨construct, hcomplaint⟩
  · cases h
  · cases h

/-- The reports of a parse ask for `END` alone at the end of the input only. -/
theorem TokenStream.problem_ne_unexpected_end {ts : List Token} {r : Report}
    (hr : r ∈ (ofTokens ts).parse.2) (found rule : String) :
    (r.diagnostic (.ofTokens ts)).problem ≠ .unexpected found rule ["END"] := by
  intro h
  obtain ⟨construct, hcomplaint⟩ := Report.complaint_of_unexpected_end h
  have hmem := (Report.firstPerSymbol_sublist _).subset hr
  obtain ⟨c, hc, hindex, heof⟩ :=
    (Rule.stepwise_compilationUnit (.start (ofTokens ts).symbols)).end_missing hmem hcomplaint
  obtain ⟨t, ht, htrue⟩ := (parse_reports ts).2 r hr
  obtain ⟨t', ht', hkind, -⟩ := hc.token
  obtain rfl : t = t' := Option.some.inj (by rw [← ht, ← ht', hindex])
  exact (htrue.unexpected _ _ _ h).1 (hkind.trans heof)

theorem mem_parseTokens {ts : List Token} {d : Diagnostic} :
    d ∈ (parseTokens ts).2 ↔ d ∈ parserDiagnostics ts := (List.mergeSort_perm _ _).mem_iff

/-- Wherever a sequence of statements begins, it ends in front of a symbol that closes it, or at the
end of the input. So a block, an `IF` and a `WHILE` miss their `END` at the end of the input only,
and no diagnostic says that another token stands in the place of an `END`. -/
theorem sequence_closed :
    (∀ c : Cursor, ((Rule.sequence Parser.sequenceEnd).run c).next.kind ∈ [Kind.eof, .kwEnd] ∧
      ((Rule.sequence Parser.thenEnd).run c).next.kind ∈ [Kind.eof, .kwElse, .kwEnd]) ∧
    (∀ c : Cursor, Rule.block.ClosedAt .block c ∧
      (Rule.branchOf Rule.statement).attempt.ClosedAt .ifStatement c ∧
      (Rule.loopOf Rule.statement).attempt.ClosedAt .whileStatement c) ∧
    ∀ (ts : List Token) (d : Diagnostic), d ∈ (parseTokens ts).2 →
      ∀ found rule, d.problem ≠ .unexpected found rule ["END"] := by
  refine ⟨fun c => ⟨?_, ?_⟩, fun c => ⟨Rule.closedAt_block c, Rule.closedAt_branchOf c,
    Rule.closedAt_loopOf c⟩, fun ts d hd found rule => ?_⟩
  · exact Rule.endsAt_sequenceOf Rule.takes_statement (by decide) c
  · exact Rule.endsAt_sequenceOf Rule.takes_statement (by decide) c
  · obtain ⟨r, hr, rfl⟩ := List.mem_map.1 (mem_parseTokens.1 hd)
    exact TokenStream.problem_ne_unexpected_end hr found rule

/-- A loop that is never closed, with an `ELSE` inside that belongs to nothing. -/
theorem sequence_closed_loop_cut_off :
    let word : List Symbol :=
      [.ofKind .kwModule, .identifier "M", .ofKind .semicolon, .ofKind .kwBegin, .ofKind .kwWhile,
        .identifier "a", .ofKind .kwDo, .identifier "b", .ofKind .kwElse, .identifier "c"]
    let ts : List Token := (word.zipIdx 1).map fun (s, column) => ⟨s, ⟨1, column⟩⟩
    let stray : Diagnostic := ⟨⟨1, 9⟩, .unexpected "ELSE" "statement sequence" [";", "END"]⟩
    let missing : Diagnostic := ⟨⟨1, 10⟩, .unterminated "while statement" ["END"]⟩
    parserDiagnostics ts = [stray, missing] ∧ stray ∈ (parseTokens ts).2 ∧
    (∀ found rule, stray.problem ≠ .unexpected found rule ["END"]) ∧
    (Rule.loopOf Rule.statement).attempt.ClosedAt .whileStatement (.start (word.drop 4)) := by
  intro word ts stray missing
  have hall : parserDiagnostics ts = [stray, missing] := by decide +kernel
  have hstray : stray ∈ (parseTokens ts).2 := mem_parseTokens.2 (hall ▸ List.mem_cons_self)
  exact ⟨hall, hstray, sequence_closed.2.2 ts stray hstray, (sequence_closed.2.1 _).2.2⟩

end ModSyntax
