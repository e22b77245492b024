import ModSyntax.Proofs.Simulation.Expr
import ModSyntax.TokenParser.Statement

/-!
# Simulation of the rules for statements

A statement reads the sequences in it behind the keyword that begins it. A sequence on `n` symbols
reads its statements there, and each of its rounds but the last takes a token.
-/

namespace ModSyntax.TokenParser

open ModSyntax.Parser (statementStart sequenceEnd thenEnd)

variable {ts : List Token} {α : Type} {n : Nat} {s : State} {c : Cursor}

theorem simulates_separator (closers : List Kind) :
    Simulates ts n (separator closers) (Rule.separator closers) :=
  (simulates_eat _).bind fun _ => .ite (fun _ => simulates_pure true) fun _ =>
    simulates_kind.bind fun _ => .ite
      (fun _ => (simulates_reportUnexpected _ _).bind fun _ => simulates_pure true) fun _ =>
    simulates_kind.bind fun _ => .ite (fun _ => simulates_pure false) fun _ =>
      (simulates_reportUnexpected _ _).bind fun _ => simulates_advance.bind fun _ =>
        (simulates_skipUntil _).bind fun _ => simulates_eat _

theorem simulates_condition (keyword : Kind) (rule : Construct) :
    Simulates ts n (condition keyword rule) (Rule.condition keyword rule) :=
  Simulates.orSkipUntil_bind simulatesRule_expr fun _ =>
    (simulates_require keyword rule).bind fun _ => simulates_pure _

theorem simulatesRule_designator : SimulatesRule ts n designator Rule.designator := by
  refine (simulatesRule_qualifiedName _).bind fun target =>
    SimulatesRule.bind (.lift simulates_kind) fun k => ?_
  by_cases hbecomes : k = .becomes
  · simp only [hbecomes]
    exact simulatesRule_advance.bind fun _ => simulatesRule_expr.bind fun _ => simulatesRule_pure _
  by_cases hparen : k = .lparen
  · simp only [hparen]
    exact (simulatesRule_arguments _).bind fun _ => simulatesRule_pure _
  simp only
  exact simulatesRule_pure _

theorem simulatesRule_leave : SimulatesRule ts n leave Rule.leave :=
  simulatesRule_advance.bind fun _ => SimulatesRule.bind (.lift simulates_kind) fun _ =>
    .ite (fun _ => simulatesRule_expr.bind fun _ => simulatesRule_pure _)
      fun _ => simulatesRule_pure _

/-- The keyword that closes a statement; what was read of it before is kept. -/
theorem simulates_closing {k : Kind} (hk : k ≠ .eof) (rule : Construct) {a? : Option α} {q : Rule α}
    (hq : q.attempt = pure a?) :
    Simulates ts n ((expect k rule).run >>= fun close => pure (close.bind fun _ => a?))
      (discard (Rule.expect k rule) >>= fun _ => q).attempt := by
  rw [Rule.attempt_bind, Rule.attempt_discard, bind_map_left]
  refine .expect_bind hk rule fun close => ?_
  cases close with
  | none => exact simulates_pure none
  | some t =>
    change Simulates ts n (pure a?) q.attempt
    rw [hq]
    exact simulates_pure a?

/-- What is read behind a keyword by a parser that never fails is read by a parser. -/
theorem after?_lift (k : Kind) (p : Parser α) :
    Rule.after? k (liftM p : Rule α) = liftM (do
      if ← Parser.accept k then
        return some (← p)
      else
        return none : Parser (Option α)) := by
  refine Rule.ext fun c => ?_
  by_cases hk : c.kind = k <;> simp [Rule.after?, hk]

section

variable {statement : TokenParser (Option Statement)}
  (h : Simulates ts n statement Rule.statement.attempt)
include h

/-- A statement, or what stands between it and the next one, takes a token. -/
theorem simulates_sequenceOf {closers : List Kind} (hclosers : ∀ k ∈ closers, k ∉ statementStart) :
    Simulates ts n (sequenceOf statement closers) (Rule.sequence closers) := by
  refine simulates_fix fun i hi more hmore s c hat hlt => ?_
  rw [Rule.sequence_eq hclosers, Rule.sequenceStep]
  refine (h s c hat (by omega)).orSkipUntil_bind hat rfl ?_
  have hd := hat.after (Rule.statement.orSkipUntil (.semicolon :: closers))
  refine (simulates_separator closers _ _ hd (Nat.lt_succ_self _)).bind ?_
  have he := hd.after (Rule.separator closers)
  split
  · next hv =>
    have hshort := Rule.length_separator_lt Rule.takes_statement hclosers rfl hv
    exact Simulates.bind hmore (fun _ => simulates_pure _) _ _ he (by omega)
  · exact simulates_pure _ _ _ he (Nat.lt_succ_self _)

theorem simulates_otherwiseOf :
    Simulates ts n (otherwiseOf? statement) (do
      if ← Parser.accept .kwElse then
        return some (← Rule.sequence sequenceEnd)
      else
        return none) :=
  (simulates_eat _).bind fun _ => .ite
    (fun _ => (simulates_sequenceOf h (by decide)).bind fun _ => simulates_pure _)
    fun _ => simulates_pure none

theorem simulates_branchOf (hat : s.At ts c) (hlt : c.rest.length < n + 1) (hc : c.kind ≠ .eof) :
    SimulatesAt ts (branchOf statement) (Rule.branchOf Rule.statement).attempt s c := by
  rw [branchOf, Rule.branchOf, attempt_lift_bind]
  refine Simulates.advance_bind ?_ hat hlt hc
  refine (simulates_condition _ _).lift_bind fun cond =>
    (simulates_sequenceOf h (by decide)).lift_bind fun thenBody => ?_
  rw [after?_lift]
  refine (simulates_otherwiseOf h).lift_bind fun elseBody => simulates_closing (by decide) _ ?_
  cases cond <;> rfl

theorem simulates_loopOf (hat : s.At ts c) (hlt : c.rest.length < n + 1) (hc : c.kind ≠ .eof) :
    SimulatesAt ts (loopOf statement) (Rule.loopOf Rule.statement).attempt s c := by
  rw [loopOf, Rule.loopOf, attempt_lift_bind]
  refine Simulates.advance_bind ?_ hat hlt hc
  refine (simulates_condition _ _).lift_bind fun cond =>
    (simulates_sequenceOf h (by decide)).lift_bind fun body => simulates_closing (by decide) _ ?_
  cases cond <;> rfl

theorem simulates_statementOf :
    Simulates ts (n + 1) (statementOf statement) Rule.statement.attempt := by
  intro s c hat hlt
  rw [statementOf, Rule.statement_eq, Rule.statementOf, attempt_lift_bind]
  refine .kind_bind hat ?_
  by_cases hname : c.kind = .identifier
  · simp only [hname]
    exact simulatesRule_designator s c hat hlt
  by_cases hif : c.kind = .kwIf
  · simp only [hif]
    exact simulates_branchOf h hat hlt (by simp [hif])
  by_cases hwhile : c.kind = .kwWhile
  · simp only [hwhile]
    exact simulates_loopOf h hat hlt (by simp [hwhile])
  by_cases hreturn : c.kind = .kwReturn
  · simp only [hreturn]
    exact simulatesRule_leave s c hat hlt
  simp only
  exact (simulates_reportUnexpected _ _).lift_bind (fun _ => simulates_pure none) s c hat hlt

end

theorem simulates_statement : Simulates ts n statement Rule.statement.attempt :=
  simulates_fix fun _ _ _ h => simulates_statementOf h

theorem simulates_sequence {closers : List Kind} (h : ∀ k ∈ closers, k ∉ statementStart) :
    Simulates ts n (sequence closers) (Rule.sequence closers) :=
  simulates_sequenceOf simulates_statement h

end ModSyntax.TokenParser
