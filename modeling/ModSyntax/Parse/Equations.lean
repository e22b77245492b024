import ModSyntax.Parse.Module
import ModSyntax.Parse.Progress

/-!
# Equations of the grammar

Every rule that calls itself is given by its own production: `factor_eq`, `statement_eq`,
`sequence_eq`, `entries_eq`, `parameterList_eq`, `declarationsOf_eq`, `block_eq` and `imports_eq`.
Each holds because the production calls the rule only behind a symbol that it has passed over.
-/

namespace ModSyntax.Rule

open ModSyntax.Parser

variable {n : Nat}

/-! ## Expressions -/

theorem takes_dot : dot.Takes := by
  intro c
  by_cases hc : c.kind = .period ∧ c.secondKind = .identifier
  · simpa [dot, hc] using Cursor.length_next_lt (by simp [hc.1])
  · simp [dot, hc]

theorem takes_qualifiedName (rule : Construct) : (qualifiedName rule).attempt.Takes :=
  takes_bind (takes_expect (by decide) rule) _

theorem AgreeBelow.termOf {r s : Rule Factor} (h : AgreeBelow n r s) :
    AgreeBelow n (termOf r) (termOf s) :=
  .bind h fun _ => .bind (.chain _ h) fun _ => .refl _

theorem AgreeBelow.simpleExprOf {r s : Rule Factor} (h : AgreeBelow n r s) :
    AgreeBelow n (simpleExprOf r) (simpleExprOf s) :=
  .bind (.refl _) fun _ => .bind h.termOf fun _ => .bind (.chain _ h.termOf) fun _ => .refl _

theorem AgreeBelow.exprOf {r s : Rule Factor} (h : AgreeBelow n r s) :
    AgreeBelow n (exprOf r) (exprOf s) := by
  refine .bind h.simpleExprOf fun left => .bind (.refl _) fun op? => ?_
  cases op? with
  | none => exact .refl _
  | some op => exact .bind h.simpleExprOf fun _ => .refl _

theorem AgreeBelow.exprListOf {r s : Rule Factor} (h : AgreeBelow n r s) :
    AgreeBelow n (exprListOf r) (exprListOf s) := by
  refine .bind (.refl _) fun k => ?_
  split
  · exact .commaList h.exprOf
  · exact .refl _

theorem attempt_argumentsOf (rule : Construct) {r s : Rule Factor} {c : Cursor}
    (hc : c.kind ≠ .eof) (h : AgreeBelow c.rest.length r s) :
    (argumentsOf r rule).attempt.run c = (argumentsOf s rule).attempt.run c :=
  attempt_skip_bind hc (.bind h.exprListOf fun _ => .refl _)

theorem guarded_factorOf : Guarded factorOf := by
  intro r s c h
  rw [factorOf, factorOf, attempt_kind_bind, attempt_kind_bind]
  split
  · rfl
  · next hk => exact attempt_skip_bind (by simp [hk]) (.bind h.exprOf fun _ => .refl _)
  · next hk => exact attempt_skip_bind (by simp [hk]) (.bind h fun _ => .refl _)
  · refine attempt_bind_congr fun target d hd => ?_
    rw [attempt_kind_bind, attempt_kind_bind]
    split
    · next hk =>
      have hle := hd.length_le
      have hd : d.kind ≠ .eof := by simp [hk]
      have := attempt_argumentsOf .factor hd fun e he => h e (by omega)
      simp only [attempt_bind, Parser.run_bind, this]
    · rfl
  · rfl

/-- A factor is made of the factors inside it. -/
theorem factor_eq : factor = factorOf factor := fix_eq guarded_factorOf

/-! ## Statements -/

theorem AgreeBelow.sequenceOf {r s : Rule Statement} (h : AgreeBelow n r s) (closers : List Kind) :
    Parser.AgreeBelow n (sequenceOf r closers) (sequenceOf s closers) := by
  refine .fix [] fun p q hpq => .bind (h.orSkipUntil _) fun found => .bind (.refl _) fun more => ?_
  split
  · exact .bind hpq fun _ => .refl _
  · exact .refl _

theorem guarded_statementOf : Guarded statementOf := by
  intro r s c h
  rw [statementOf, statementOf, attempt_kind_bind, attempt_kind_bind]
  split
  · rfl
  · next hk =>
    exact attempt_skip_bind (by simp [hk]) (.bind (.refl _) fun _ =>
      .bind (.lift (h.sequenceOf _)) fun _ =>
        .bind (.after? (.lift (h.sequenceOf _)) _) fun _ => .refl _)
  · next hk =>
    exact attempt_skip_bind (by simp [hk]) (.bind (.refl _) fun _ =>
      .bind (.lift (h.sequenceOf _)) fun _ => .refl _)
  · rfl
  · rfl

/-- A statement is made of the statements inside it. -/
theorem statement_eq : statement = statementOf statement := fix_eq guarded_statementOf

theorem takes_statementOf (statement : Rule Statement) : (statementOf statement).attempt.Takes := by
  intro c
  rw [statementOf, attempt_kind_bind]
  split
  · exact takes_bind (takes_qualifiedName _) _ c
  · next hk => exact fun _ => length_skip_bind_lt _ (by simp [hk])
  · next hk => exact fun _ => length_skip_bind_lt _ (by simp [hk])
  · next hk => exact fun _ => length_skip_bind_lt _ (by simp [hk])
  · simp

theorem takes_statement : statement.attempt.Takes := by
  rw [statement_eq]
  exact takes_statementOf statement

/-- Where another statement follows, a symbol is passed over before it, or it is there already. -/
theorem separator_cases (closers : List Kind) (c : Cursor)
    (h : ((separator closers).run c).value = true) :
    ((separator closers).run c).next.rest.length < c.rest.length ∨
      ((separator closers).run c).next = c ∧ c.kind ∈ statementStart ∧ c.kind ≠ .semicolon := by
  by_cases hs : c.kind = .semicolon
  · exact .inl (by simpa [separator, hs] using Cursor.length_next_lt (by simp [hs]))
  by_cases hstart : c.kind ∈ statementStart
  · exact .inr (by simp [separator, hs, hstart])
  by_cases hend : c.kind ∈ .eof :: closers
  · simp only [List.mem_cons] at hend
    simp [separator, hs, hstart, hend] at h
  · have hne : c.kind ≠ .eof := fun he => hend (by simp [he])
    have hlt := Cursor.length_next_lt hne
    have hskip := (Cursor.reaches_skipUntil c.next (.semicolon :: closers)).length_le
    have hnext := (Cursor.reaches_next (c.next.skipUntil (.semicolon :: closers))).length_le
    simp only [List.mem_cons] at hend
    left
    simp only [separator, Parser.run_bind, run_accept, run_kind, run_unexpected, run_skip,
      run_skipUntil, List.mem_cons, hs, hstart, hend, decide_false, Bool.false_eq_true, if_false]
    split <;> omega

/-- Where another statement follows, the one before it or what stands between them took a symbol. -/
theorem length_separator_lt {statement : Rule Statement} (ht : statement.attempt.Takes)
    {closers : List Kind} (h : ∀ k ∈ closers, k ∉ statementStart) {c d : Cursor}
    (hd : ((statement.orSkipUntil (.semicolon :: closers)).run c).next = d)
    (hv : ((separator closers).run d).value = true) :
    ((separator closers).run d).next.rest.length < c.rest.length := by
  have hle := ((statement.orSkipUntil (.semicolon :: closers)).forward c).length_le
  have hcases := orSkipUntil_cases ht (.semicolon :: closers) c
  rw [hd] at hle hcases
  rcases separator_cases closers d hv with hlt | ⟨heq, hstart, hs⟩
  · omega
  · rw [heq]
    refine hcases.resolve_right fun hk => ?_
    simp only [List.mem_cons, hs, false_or] at hk
    rcases hk with hk | hk
    · simp [hk, statementStart] at hstart
    · exact h _ hk hstart

theorem guarded_sequenceStep {statement : Rule Statement} (ht : statement.attempt.Takes)
    {closers : List Kind} (h : ∀ k ∈ closers, k ∉ statementStart) :
    Parser.Guarded (sequenceStep statement closers) := by
  refine fun p q c hpq => run_bind_congr (run_bind_congr ?_)
  generalize hd : ((statement.orSkipUntil (.semicolon :: closers)).run c).next = d
  cases hv : ((separator closers).run d).value with
  | false => rfl
  | true => simp [hpq _ (length_separator_lt ht h hd hv)]

/-- A statement, and the sequence behind it. -/
theorem sequence_eq {closers : List Kind} (h : ∀ k ∈ closers, k ∉ statementStart) :
    sequence closers = sequenceStep statement closers (sequence closers) :=
  Parser.fix_eq (guarded_sequenceStep takes_statement h) []

/-! ## Declarations -/

theorem enters_constant : constant.Enters .identifier := (enters_expect (by decide) _).bind _

theorem enters_vars : vars.Enters .identifier :=
  Enters.bind (Enters.bind (enters_expect (by decide) _) _) _

theorem guarded_entriesStep (rule : Construct) {entry : Rule Declaration}
    (h : entry.Enters .identifier) : Parser.Guarded (entriesStep rule entry) := by
  intro p q c hpq
  rw [entriesStep, entriesStep, run_kind_bind, run_kind_bind]
  split
  · next hk =>
    have hlt := h c hk
    refine run_bind_congr ?_
    split
    · have hle := ((endEntry rule).forward (entry.attempt.run c).next).length_le
      simp [hpq _ (Nat.lt_of_le_of_lt hle hlt)]
    · have hle := (leaveDeclaration.forward (entry.attempt.run c).next).length_le
      simp [hpq _ (Nat.lt_of_le_of_lt hle hlt)]
  · rfl

/-- One entry, and the entries behind it. -/
theorem entries_eq (rule : Construct) {entry : Rule Declaration} (h : entry.Enters .identifier) :
    entries rule entry = entriesStep rule entry (entries rule entry) :=
  Parser.fix_eq (guarded_entriesStep rule h) []

theorem guarded_parameterListStep : Parser.Guarded parameterListStep := by
  refine fun p q c hpq => run_bind_congr ?_
  have hle := ((parameter.orSkipUntil parameterSync).forward c).length_le
  generalize ((parameter.orSkipUntil parameterSync).run c).next = d at *
  by_cases hs : d.kind = .semicolon
  · have hd : d.kind ≠ .eof := by simp [hs]
    have hlt := Cursor.length_next_lt hd
    simp [hs, hpq d.next (by omega)]
  · simp [hs]

/-- One parameter, and the parameters behind it. -/
theorem parameterList_eq : parameterList = parameterListStep parameterList :=
  Parser.fix_eq guarded_parameterListStep none

/-- Leaving a declaration passes over a symbol, unless a section or the body is next. -/
theorem length_leaveDeclaration_lt {c : Cursor}
    (h : c.kind ∉ [.kwConst, .kwVar, .kwProcedure, .kwBegin, .kwEnd, .eof]) :
    (leaveDeclaration.run c).next.rest.length < c.rest.length := by
  by_cases hs : c.kind = .semicolon
  · have hstay : c.skipUntil declarationSync = c :=
      Cursor.skipUntil_of_mem (by simp [hs, declarationSync])
    simpa [leaveDeclaration, hstay, hs] using Cursor.length_next_lt (by simp [hs])
  · have hk : c.kind ∉ .eof :: declarationSync := by simp_all [declarationSync]
    have hlt := Cursor.length_skipUntil_lt hk
    have hle := ((accept .semicolon).forward (c.skipUntil declarationSync)).length_le
    simp only [leaveDeclaration, Parser.run_bind, run_discard, run_skipUntil]
    omega

theorem attempt_procedureOf {p q : Parser Block} {c : Cursor} (hc : c.kind ≠ .eof)
    (h : Parser.AgreeBelow c.rest.length p q) :
    (procedureOf p).attempt.run c = (procedureOf q).attempt.run c :=
  attempt_skip_bind hc (.bind (.refl _) fun _ => .bind (.refl _) fun _ => .bind (.refl _) fun _ =>
    .bind (.lift h) fun _ => .refl _)

theorem agreeBelow_declarationsOf {p q : Parser Block} (h : Parser.AgreeBelow n p q) :
    Parser.AgreeBelow (n + 1) (declarationsOf p) (declarationsOf q) := by
  refine .fix [] fun r s hrs c hc => ?_
  rw [declarationsStep, declarationsStep, run_kind_bind, run_kind_bind]
  split
  · exact Parser.AgreeBelow.bind (.refl _)
      (fun _ => .bind (.refl _) fun _ => .bind hrs fun _ => .refl _) c hc
  · exact Parser.AgreeBelow.bind (.refl _)
      (fun _ => .bind (.refl _) fun _ => .bind hrs fun _ => .refl _) c hc
  · next hk =>
    have hne : c.kind ≠ .eof := by simp [hk]
    have hproc := attempt_procedureOf hne (h.mono (by omega))
    have hle := ((procedureOf q).attempt.forward c).length_le
    have hend := ((endEntry .procedure).forward ((procedureOf q).attempt.run c).next).length_le
    simp only [Parser.run_bind, hproc]
    rw [hrs _ (by omega)]
  · rfl
  · rfl
  · rfl
  · exact Parser.AgreeBelow.bind (.refl _) (fun _ => .bind (.refl _) fun _ => hrs) c hc

theorem guarded_declarationsStep (block : Parser Block) :
    Parser.Guarded (declarationsStep block) := by
  intro r s c hrs
  rw [declarationsStep, declarationsStep, run_kind_bind, run_kind_bind]
  split
  · next hk =>
    have hne : c.kind ≠ .eof := by simp [hk]
    have hle := ((entries .constant constant).forward c.next).length_le
    simp [hrs _ (Nat.lt_of_le_of_lt hle (Cursor.length_next_lt hne))]
  · next hk =>
    have hne : c.kind ≠ .eof := by simp [hk]
    have hle := ((entries .vars vars).forward c.next).length_le
    simp [hrs _ (Nat.lt_of_le_of_lt hle (Cursor.length_next_lt hne))]
  · next hk =>
    have hlt : ((procedureOf block).attempt.run c).next.rest.length < c.rest.length :=
      length_skip_bind_lt _ (by simp [hk])
    have hle := ((endEntry .procedure).forward ((procedureOf block).attempt.run c).next).length_le
    simp [hrs _ (Nat.lt_of_le_of_lt hle hlt)]
  · rfl
  · rfl
  · rfl
  · have hlt : (leaveDeclaration.run c).next.rest.length < c.rest.length :=
      length_leaveDeclaration_lt (by simp_all)
    simp [hrs _ hlt]

/-- A section or a procedure, and the declarations behind it. -/
theorem declarationsOf_eq (block : Parser Block) :
    declarationsOf block = declarationsStep block (declarationsOf block) :=
  Parser.fix_eq (guarded_declarationsStep block) []

theorem guarded_blockOf : Parser.Guarded blockOf := by
  intro p q c hpq
  have := agreeBelow_declarationsOf hpq c (by omega)
  simp only [blockOf, Parser.run_bind, this]

/-- A block is made of the blocks inside it. -/
theorem block_eq : block = blockOf block := Parser.fix_eq guarded_blockOf Block.empty

/-! ## Imports -/

theorem length_importNames_lt {c : Cursor} (h : c.kind ∈ [.kwFrom, .kwImport]) :
    (importNames.attempt.run c).next.rest.length < c.rest.length := by
  simp only [List.mem_cons, List.not_mem_nil, or_false] at h
  rcases h with hk | hk
  · exact Enters.bind (enters_after? (by decide) _) _ c hk
  · have hlt := Enters.bind (Enters.discard (enters_expect (by decide) .imports))
      (fun _ => Import.mk none <$> identifierList .imports) c hk
    simpa [importNames, after?, hk] using hlt

theorem length_importItem_lt {c : Cursor} (h : c.kind ∈ [.kwFrom, .kwImport]) :
    (importItem.run c).next.rest.length < c.rest.length := by
  have hlt := length_importNames_lt h
  rw [importItem]
  cases hv : (importNames.attempt.run c).value with
  | some found =>
    have hle := ((terminate .semicolon .imports importSync).forward
      (importNames.attempt.run c).next).length_le
    simp only [Parser.run_bind, hv, run_pure]
    omega
  | none =>
    have hskip := (Cursor.reaches_skipUntil (importNames.attempt.run c).next importSync).length_le
    have hle := ((accept .semicolon).forward
      ((importNames.attempt.run c).next.skipUntil importSync)).length_le
    simp only [Parser.run_bind, hv, run_skipUntil, run_discard, run_pure]
    omega

theorem guarded_importsStep : Parser.Guarded importsStep := by
  intro p q c hpq
  rw [importsStep, importsStep, run_kind_bind, run_kind_bind]
  split
  · next hk => simp [hpq _ (length_importItem_lt hk)]
  · rfl

/-- An import, and those behind it. -/
theorem imports_eq : imports = importsStep imports := Parser.fix_eq guarded_importsStep []

end ModSyntax.Rule
