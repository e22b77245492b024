import ModSyntax.Proofs.Steps.Basic
import ModSyntax.Proofs.Steps.Closing

/-!
# The rules of the grammar are made of steps

Every run of every rule is made of single steps, up to `stepwise_compilationUnit`. Only two things
are particular to a rule: that what it complains of is in place where it complains, and that it
calls itself behind a symbol.
-/

namespace ModSyntax

/-! ## Recovery -/

namespace Parser

theorem stepwise_require {k : Kind} (hk : k ≠ .kwEnd) (rule : Construct) :
    (require k rule).Stepwise :=
  fun _ => stepsAt_accept_bind (fun _ => stepwise_pure ()) fun hc =>
    stepsAt_unexpected (by simpa using hc) (by simp [hk])

theorem stepsAt_terminate {k : Kind} (rule : Construct) (sync : List Kind) {c : Cursor}
    (hend : k = .kwEnd → c.kind ∈ [.eof, .kwEnd]) : (terminate k rule sync).StepsAt c := by
  refine stepsAt_accept_bind (fun _ => stepwise_pure ()) fun hc => ?_
  refine (stepsAt_unexpected (by simpa using hc) fun heq => ?_).bind_any fun _ => ?_
  · obtain rfl : k = .kwEnd := by simpa using heq
    simpa [hc] using hend rfl
  · exact Stepwise.bind (.skipUntil sync) fun _ => (stepwise_accept k).discard

theorem stepwise_terminate {k : Kind} (hk : k ≠ .kwEnd) (rule : Construct) (sync : List Kind) :
    (terminate k rule sync).Stepwise := fun _ => stepsAt_terminate rule sync (absurd · hk)

theorem stepwise_leaveDeclaration : leaveDeclaration.Stepwise :=
  Stepwise.bind (.skipUntil declarationSync) fun _ => (stepwise_accept .semicolon).discard

theorem stepwise_endEntry (rule : Construct) : (endEntry rule).Stepwise := by
  refine fun c => stepsAt_accept_bind (fun _ => stepwise_pure ()) fun hc => ?_
  refine (stepsAt_unexpected (by simpa using hc) (by simp)).bind_any fun _ => ?_
  refine Stepwise.bind .kind fun k => ?_
  split
  · exact stepwise_pure ()
  · exact stepwise_leaveDeclaration

end Parser

namespace Rule

open ModSyntax.Parser

/-! ## Expressions -/

theorem stepwise_qualifiedName (rule : Construct) : (qualifiedName rule).Stepwise :=
  (stepwise_expect (by decide) rule).bind fun _ =>
    (stepwise_chain takes_dot .dot (stepwise_expect (by decide) rule)).bind_pure _

theorem stepsAt_literal {c : Cursor} (hc : c.kind = .integer) : literal.StepsAt c := by
  have hlook : (liftM (look Cursor.lexeme) : Rule String).attempt.run c =
      ⟨some c.lexeme, c, []⟩ := rfl
  refine .bind (.bind (.lexeme c) (.pure _ _)) ?_
  simp only [hlook]
  split
  · exact stepwise_skip_bind (fun _ => stepwise_pure _) c
  · next hv =>
    exact .bind (.bind (.report ⟨⟨hc, rfl, hv⟩, nofun⟩) (.pure _ _))
      (stepwise_skip_bind (fun _ => stepwise_fail) c)

section

variable {factor : Rule Factor} (h : factor.Stepwise)
include h

theorem stepwise_termOf : (termOf factor).Stepwise :=
  h.bind fun _ => (stepwise_chain (takes_operator (by decide)) (stepwise_operator _) h).bind_pure _

theorem stepwise_simpleExprOf : (simpleExprOf factor).Stepwise :=
  (stepwise_lift (stepwise_operator _)).bind fun _ => (stepwise_termOf h).bind fun _ =>
    (stepwise_chain (takes_operator (by decide)) (stepwise_operator _)
      (stepwise_termOf h)).bind_pure _

theorem stepwise_exprOf : (exprOf factor).Stepwise := by
  refine (stepwise_simpleExprOf h).bind fun left => ?_
  refine (stepwise_lift (stepwise_operator _)).bind fun op? => ?_
  cases op? with
  | none => exact stepwise_pure _
  | some op =>
    refine (stepwise_simpleExprOf h).bind fun right c => stepsAt_kind_bind ?_
    split
    · next hrel =>
      refine stepsAt_unexpected_bind (fun hmem => ?_) (by simp [expressionFollow])
        fun _ => stepwise_fail
      exact absurd hrel ((by decide : ∀ k ∈ expressionFollow, ¬k.isRelation = true) _ hmem)
    · exact stepwise_pure _ c

theorem stepwise_exprListOf : (exprListOf factor).Stepwise := by
  refine fun c => stepsAt_kind_bind ?_
  split
  · exact (stepwise_exprOf h).commaList c
  · exact stepwise_pure [] c

theorem stepwise_argumentsOf (rule : Construct) : (argumentsOf factor rule).Stepwise :=
  stepwise_skip_bind fun _ => (stepwise_exprListOf h).bind fun _ =>
    (stepwise_expect (by decide) rule).discard.bind_pure _

theorem stepwise_factorOf : (factorOf factor).Stepwise := by
  refine fun c => stepsAt_kind_bind ?_
  split
  · next hk => exact stepsAt_literal hk
  · exact stepwise_skip_bind (fun _ => (stepwise_exprOf h).bind fun _ =>
      (stepwise_expect (by decide) _).discard.bind_pure _) c
  · exact stepwise_skip_bind (fun _ => h.bind_pure _) c
  · refine (stepwise_qualifiedName _).bind (fun target d => stepsAt_kind_bind ?_) c
    split
    · exact (stepwise_argumentsOf h _).bind_pure _ d
    · exact stepwise_pure _ d
  · exact stepsAt_unexpected_bind (by simp_all) (by simp) fun _ => stepwise_fail

end

theorem stepwise_factor : factor.Stepwise :=
  stepwise_fix guarded_factorOf fun _ => stepwise_factorOf

theorem stepwise_expr : expr.Stepwise := stepwise_exprOf stepwise_factor

theorem stepwise_arguments (rule : Construct) : (arguments rule).Stepwise :=
  stepwise_argumentsOf stepwise_factor rule

/-! ## Statements -/

theorem stepwise_separator (closers : List Kind) : (separator closers).Stepwise := by
  refine fun c => stepsAt_accept_bind (fun _ => Parser.stepwise_pure true) fun hc => ?_
  refine Parser.stepsAt_kind_bind ?_
  split
  · exact (stepsAt_unexpected (by simpa using hc) (by simp)).bind_any fun _ =>
      Parser.stepwise_pure true
  refine Parser.stepsAt_kind_bind ?_
  split
  · exact .pure false c
  · next hend =>
    refine (stepsAt_unexpected (by simp_all) (by simp)).bind_any fun _ => ?_
    exact Parser.Stepwise.bind .skip fun _ => Parser.Stepwise.bind (.skipUntil _) fun _ =>
      stepwise_accept .semicolon

theorem stepwise_condition {keyword : Kind} (hk : keyword ≠ .kwEnd) (rule : Construct) :
    (condition keyword rule).Stepwise :=
  (stepwise_expr.orSkipUntil _).bind fun _ => (stepwise_require hk rule).bind fun _ =>
    Parser.stepwise_pure _

theorem stepwise_designator : designator.Stepwise := by
  refine (stepwise_qualifiedName _).bind fun target c => stepsAt_kind_bind ?_
  split
  · exact stepwise_skip_bind (fun _ => stepwise_expr.bind_pure _) c
  · exact (stepwise_arguments _).bind_pure _ c
  · exact stepwise_pure _ c

theorem stepwise_leave : leave.Stepwise := by
  refine stepwise_skip_bind fun _ c => stepsAt_kind_bind ?_
  split
  · exact stepwise_expr.bind_pure _ c
  · exact stepwise_pure _ c

section

variable {statement : Rule Statement} (ht : statement.attempt.Takes) (h : statement.Stepwise)
include ht h

theorem stepwise_sequenceOf {closers : List Kind} (hclosers : ∀ k ∈ closers, k ∉ statementStart) :
    (sequenceOf statement closers).Stepwise := by
  refine Parser.stepwise_fix (guarded_sequenceStep ht hclosers) fun more hmore => ?_
  refine (h.orSkipUntil _).bind fun found => (stepwise_separator closers).bind fun another => ?_
  split
  · exact hmore.bind fun _ => Parser.stepwise_pure _
  · exact Parser.stepwise_pure _

theorem stepwise_branchOf : (branchOf statement).Stepwise := by
  refine stepwise_skip_bind fun _ =>
    (stepwise_lift (stepwise_condition (by decide) _)).bind fun cond c => ?_
  refine (stepwise_lift (stepwise_sequenceOf ht h (by decide)) c).bind_next fun thenBody => ?_
  have hthen := endsAt_sequenceOf ht (by decide : ∀ k ∈ thenEnd, k ∉ statementStart) c
  refine ((stepwise_lift (stepwise_sequenceOf ht h (by decide))).after? _ _).bind_next
    fun elseBody => ?_
  refine (stepsAt_expect _ fun _ => kind_else ht hthen).discard.bind_next fun _ => ?_
  cases cond with
  | none => exact stepwise_fail _
  | some cond => exact stepwise_pure _ _

theorem stepwise_loopOf : (loopOf statement).Stepwise := by
  refine stepwise_skip_bind fun _ =>
    (stepwise_lift (stepwise_condition (by decide) _)).bind fun cond c => ?_
  refine (stepwise_lift (stepwise_sequenceOf ht h (by decide)) c).bind_next fun body => ?_
  have hbody := endsAt_sequenceOf ht (by decide : ∀ k ∈ sequenceEnd, k ∉ statementStart) c
  refine (stepsAt_expect _ fun _ => hbody).discard.bind_next fun _ => ?_
  cases cond with
  | none => exact stepwise_fail _
  | some cond => exact stepwise_pure _ _

theorem stepwise_statementOf : (statementOf statement).Stepwise := by
  refine fun c => stepsAt_kind_bind ?_
  split
  · exact stepwise_designator c
  · exact stepwise_branchOf ht h c
  · exact stepwise_loopOf ht h c
  · exact stepwise_leave c
  · exact stepsAt_unexpected_bind (by simp_all [statementStart]) (by simp [statementStart])
      fun _ => stepwise_fail

end

theorem stepwise_statement : statement.Stepwise :=
  stepwise_fix_of (fun r => r.attempt.Takes) guarded_statementOf (fun c h => by simp at h)
    fun r ht hr => ⟨takes_statementOf r, stepwise_statementOf ht hr⟩

/-! ## Declarations -/

theorem stepwise_constant : constant.Stepwise :=
  (stepwise_expect (by decide) _).bind fun _ =>
    (stepwise_expect (by decide) _).discard.bind fun _ => stepwise_expr.bind_pure _

theorem stepwise_identifierList (rule : Construct) : (identifierList rule).Stepwise :=
  (stepwise_expect (by decide) rule).commaList

theorem stepwise_vars : vars.Stepwise :=
  (stepwise_identifierList _).bind fun _ => (stepwise_expect (by decide) _).discard.bind fun _ =>
    (stepwise_qualifiedName _).bind_pure _

theorem stepwise_entries (rule : Construct) {entry : Rule Declaration}
    (henters : entry.Enters .identifier) (hentry : entry.Stepwise) :
    (entries rule entry).Stepwise := by
  refine Parser.stepwise_fix (guarded_entriesStep rule henters) fun more hmore c => ?_
  refine Parser.stepsAt_kind_bind ?_
  split
  · refine stepwise_attempt_bind hentry (fun d? => ?_) c
    cases d? with
    | some d =>
      exact (stepwise_endEntry rule).bind fun _ => hmore.bind fun _ => Parser.stepwise_pure _
    | none => exact stepwise_leaveDeclaration.bind fun _ => hmore
  · exact .pure [] c

theorem stepwise_parameter : parameter.Stepwise :=
  (stepwise_lift (stepwise_accept _)).bind fun _ => (stepwise_identifierList _).bind fun _ =>
    (stepwise_expect (by decide) _).discard.bind fun _ => (stepwise_qualifiedName _).bind_pure _

theorem stepwise_parameterList : parameterList.Stepwise := by
  refine Parser.stepwise_fix guarded_parameterListStep fun more hmore => ?_
  refine (stepwise_parameter.orSkipUntil _).bind fun found => ?_
  refine (stepwise_accept _).bind fun another => ?_
  split
  · exact hmore.bind fun _ => Parser.stepwise_pure _
  · exact Parser.stepwise_pure _

theorem stepwise_parameterItems : parameterItems.Stepwise := by
  refine fun c => Parser.stepsAt_kind_bind ?_
  split
  · exact stepwise_parameterList c
  · exact .pure _ c

theorem stepwise_orLeave {α : Type} {rule : Rule α} (h : rule.Stepwise) :
    (parameters.orLeave rule).Stepwise := by
  refine (stepwise_lift (p := rule.attempt) h).bind fun a? => ?_
  cases a? with
  | some a => exact stepwise_pure a
  | none => exact (stepwise_lift (Parser.StepsAt.skipUntil _)).bind fun _ => stepwise_fail

theorem stepwise_parameters : parameters.Stepwise := by
  refine stepwise_skip_bind fun _ => (stepwise_lift stepwise_parameterItems).bind fun params => ?_
  refine (stepwise_orLeave (stepwise_expect (by decide) _)).discard.bind fun _ => ?_
  refine ((stepwise_orLeave (stepwise_qualifiedName _)).after? _).bind fun result => ?_
  cases params with
  | some params => exact stepwise_pure _
  | none => exact stepwise_fail

theorem stepwise_parameters? : parameters?.Stepwise := by
  refine fun c => stepsAt_kind_bind ?_
  split
  · exact stepwise_parameters.bind_pure _ c
  · exact stepwise_pure none c

theorem stepwise_procedureOf {block : Parser Block} (h : block.Stepwise) :
    (procedureOf block).Stepwise := by
  refine stepwise_skip_bind fun _ => ?_
  refine (stepwise_lift (p := (identifier .procedure).attempt) (stepwise_expect (by decide) _)).bind
    fun name => ?_
  refine (stepwise_lift (p := parameters?.attempt) stepwise_parameters?).bind fun params => ?_
  refine (stepwise_lift (stepwise_require (by decide) _)).bind fun _ => ?_
  refine (stepwise_lift h).bind fun body => ?_
  refine (stepwise_lift (p := (identifier .procedure).attempt) (stepwise_expect (by decide) _)).bind
    fun endName => ?_
  split
  · exact stepwise_pure _
  · exact stepwise_fail

theorem stepwise_declarationsOf {block : Parser Block} (h : block.Stepwise) :
    (declarationsOf block).Stepwise := by
  refine Parser.stepwise_fix (guarded_declarationsStep block) fun more hmore c => ?_
  refine Parser.stepsAt_kind_bind ?_
  split
  · exact Parser.Stepwise.bind .skip (fun _ =>
      (stepwise_entries _ enters_constant stepwise_constant).bind fun _ =>
        hmore.bind fun _ => Parser.stepwise_pure _) c
  · exact Parser.Stepwise.bind .skip (fun _ =>
      (stepwise_entries _ enters_vars stepwise_vars).bind fun _ =>
        hmore.bind fun _ => Parser.stepwise_pure _) c
  · exact stepwise_attempt_bind (stepwise_procedureOf h) (fun found =>
      (stepwise_endEntry _).bind fun _ => hmore.bind fun _ => Parser.stepwise_pure _) c
  · exact .pure [] c
  · exact .pure [] c
  · exact .pure [] c
  · exact (stepsAt_unexpected (by simp_all) (by simp)).bind_any fun _ =>
      stepwise_leaveDeclaration.bind fun _ => hmore

theorem stepwise_body : body.Stepwise := by
  refine (stepwise_accept _).bind fun found => ?_
  split
  · exact stepwise_sequenceOf takes_statement stepwise_statement (by decide)
  · exact Parser.stepwise_pure []

theorem stepwise_block : block.Stepwise := by
  refine Parser.stepwise_fix guarded_blockOf fun block h c => ?_
  have hbody := kind_body (endsAt_declarationsOf block c)
  exact .bind (stepwise_declarationsOf h c) (.bind (stepwise_body _)
    (.bind (stepsAt_terminate _ _ fun _ => hbody) (.pure _ _)))

/-! ## Modules -/

theorem stepwise_importNames : importNames.Stepwise :=
  ((stepwise_expect (by decide) _).after? _).bind fun _ =>
    (stepwise_expect (by decide) _).discard.bind fun _ => (stepwise_identifierList _).bind_pure _

theorem stepwise_importItem : importItem.Stepwise := by
  refine stepwise_attempt_bind stepwise_importNames fun found => ?_
  cases found with
  | some found => exact (stepwise_terminate (by decide) _ _).bind fun _ => Parser.stepwise_pure _
  | none =>
    exact Parser.Stepwise.bind (.skipUntil _) fun _ => (stepwise_accept _).discard.bind fun _ =>
      Parser.stepwise_pure none

theorem stepwise_imports : imports.Stepwise := by
  refine Parser.stepwise_fix guarded_importsStep fun more hmore c => ?_
  refine Parser.stepsAt_kind_bind ?_
  split
  · exact stepwise_importItem.bind (fun _ => hmore.bind fun _ => Parser.stepwise_pure _) c
  · exact .pure [] c

theorem stepwise_moduleKeyword : moduleKeyword.Stepwise := by
  refine fun c => stepsAt_accept_bind (fun _ => Parser.stepwise_pure true) fun hc => ?_
  refine (stepsAt_unexpected (by simpa using hc) (by simp)).bind_any fun _ => ?_
  refine Parser.Stepwise.bind (.skipUntil _) fun _ => (stepwise_accept _).bind fun found => ?_
  split
  · exact Parser.stepwise_pure true
  · exact (stepwise_accept _).discard.bind fun _ => Parser.stepwise_pure false

theorem stepwise_heading : heading.Stepwise := by
  refine stepwise_moduleKeyword.bind fun found => ?_
  split
  · exact stepwise_attempt_bind (stepwise_expect (by decide) _) fun _ =>
      (stepwise_terminate (by decide) _ _).bind fun _ => Parser.stepwise_pure _
  · exact Parser.stepwise_pure ""

theorem stepwise_fullStop : fullStop.Stepwise := by
  refine stepwise_attempt_bind (stepwise_expect (by decide) _) fun found c => ?_
  refine Parser.stepsAt_kind_bind ?_
  split
  · next h => exact stepsAt_unexpected (by simpa using h.2) (by simp)
  · exact .pure () c

/-- Whatever the symbols are, the parser goes over them in single steps. -/
theorem stepwise_compilationUnit : compilationUnit.Stepwise :=
  stepwise_heading.bind fun _ => stepwise_imports.bind fun _ => stepwise_block.bind fun _ =>
    stepwise_attempt_bind (stepwise_expect (by decide) _) fun _ => stepwise_fullStop.bind fun _ =>
      Parser.stepwise_pure _

end Rule

end ModSyntax
