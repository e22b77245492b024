import ModSyntax.Proofs.Simulation.Statement
import ModSyntax.TokenParser.Module

/-!
# The token parser parses what the parser of symbols parses

A block reads the blocks of its procedures behind the word `PROCEDURE` (`simulates_blockOf`). At the
start of the tokens, simulation of the whole unit says what the token parser returns (`parse_eq`): it
ends, with the module that the symbols make, and with the diagnostics of their reports.
-/

namespace ModSyntax

namespace TokenParser

open ModSyntax.Parser (declarationSync importSync headingSync parameterSync sequenceEnd)

variable {ts : List Token} {α β : Type} {n : Nat} {s : State} {c : Cursor}

/-! ## Declarations -/

theorem simulatesRule_constant : SimulatesRule ts n constant Rule.constant :=
  (simulatesRule_identifier _).bind fun _ =>
    (simulatesRule_discard_expect (by decide) _).bind fun _ =>
      simulatesRule_expr.bind fun _ => simulatesRule_pure _

theorem simulatesRule_vars : SimulatesRule ts n vars Rule.vars :=
  (simulatesRule_identifierList _).bind fun _ =>
    (simulatesRule_discard_expect (by decide) _).bind fun _ =>
      (simulatesRule_qualifiedName _).bind fun _ => simulatesRule_pure _

theorem simulates_entries (rule : Construct) {entry : TokenRule Declaration} {q : Rule Declaration}
    (hq : q.Enters .identifier) (h : SimulatesRule ts n entry q) :
    Simulates ts n (entries rule entry) (Rule.entries rule q) := by
  refine simulates_fix fun i hi more hmore s c hat hlt => ?_
  rw [Rule.entries_eq rule hq, Rule.entriesStep]
  refine .kind_bind hat ?_
  split
  · next hk =>
    have hshort := hq c hk
    have hd := hat.after q.attempt
    refine (h s c hat (by omega)).bind ?_
    cases (q.attempt.run c).value with
    | some d =>
      exact Simulates.bind (simulates_endEntry rule) (fun _ => hmore.bind fun _ => simulates_pure _)
        _ _ hd (by omega)
    | none => exact Simulates.bind simulates_recoverDeclaration (fun _ => hmore) _ _ hd (by omega)
  · exact simulates_pure [] s c hat hlt

theorem simulatesRule_parameter : SimulatesRule ts n parameter Rule.parameter :=
  SimulatesRule.bind (.lift (simulates_eat _)) fun _ =>
    (simulatesRule_identifierList _).bind fun _ =>
      (simulatesRule_discard_expect (by decide) _).bind fun _ =>
        (simulatesRule_qualifiedName _).bind fun _ => simulatesRule_pure _

theorem simulates_parameterList : Simulates ts n parameterList Rule.parameterList := by
  refine simulates_fix fun i _ more hmore s c hat hlt => ?_
  rw [Rule.parameterList_eq, Rule.parameterListStep]
  refine (simulatesRule_parameter s c hat hlt).orSkipUntil_bind hat rfl ?_
  have hd := hat.after (Rule.parameter.orSkipUntil parameterSync)
  have hle := ((Rule.parameter.orSkipUntil parameterSync).forward c).length_le
  refine (simulates_eat .semicolon _ _ hd (Nat.lt_succ_self _)).bind ?_
  have he := hd.after (Parser.accept .semicolon)
  split
  · next hv =>
    have hshort := Parser.length_accept_lt (by decide) hv
    exact Simulates.bind hmore (fun _ => simulates_pure _) _ _ he (by omega)
  · exact simulates_pure _ _ _ he (Nat.lt_succ_self _)

theorem simulates_parameterItems : Simulates ts n parameterItems Rule.parameterItems :=
  simulates_kind.bind fun _ =>
    .ite (fun _ => simulates_parameterList) fun _ => simulates_pure (some [])

theorem attempt_orLeave_bind (r : Rule α) (f : α → Rule β) :
    (Rule.parameters.orLeave r >>= f).attempt = r.attempt >>= fun a? =>
      a?.elim (Parser.skipUntil declarationSync >>= fun _ => pure none) fun a => (f a).attempt := by
  rw [Rule.parameters.orLeave, bind_assoc, attempt_lift_bind]
  refine bind_congr fun a? => ?_
  cases a? <;> simp

/-- The parameters, with each way to leave them early. -/
theorem attempt_parameters : Rule.parameters.attempt = do
    Parser.skip
    let params ← Rule.parameterItems
    if (← (Rule.expect .rparen .parameters).attempt).isNone then
      Parser.skipUntil declarationSync
      return none
    else if ← Parser.accept .colon then
      match ← (Rule.qualifiedName .parameters).attempt with
      | some result => return params.map fun params => ⟨params, some result⟩
      | none =>
        Parser.skipUntil declarationSync
        return none
    else
      return params.map fun params => ⟨params, none⟩ := by
  rw [Rule.parameters, attempt_lift_bind]
  refine bind_congr fun _ => ?_
  rw [attempt_lift_bind]
  refine bind_congr fun params => ?_
  simp only [discard, map_const, Function.comp_apply, bind_map_left]
  rw [attempt_orLeave_bind]
  refine bind_congr fun close => ?_
  cases close with
  | none => rfl
  | some _ =>
    simp only [Rule.after?, bind_assoc, Option.elim_some, attempt_lift_bind]
    refine bind_congr fun colon => ?_
    cases colon with
    | false => cases params <;> rfl
    | true =>
      simp only [if_true, bind_assoc, attempt_orLeave_bind]
      refine bind_congr fun result => ?_
      cases result <;> cases params <;> rfl

theorem simulates_parameters : Simulates ts n parameters Rule.parameters.attempt := by
  rw [attempt_parameters]
  refine simulates_advance.bind fun _ => simulates_parameterItems.bind fun params =>
    .expect_bind (by decide) _ fun close => ?_
  rw [Option.isNone_map]
  refine .ite (fun _ => (simulates_skipUntil _).bind fun _ => simulates_pure none) fun _ =>
    (simulates_eat _).bind fun _ => .ite (fun _ => ?_) fun _ => simulates_pure _
  refine Simulates.bind (simulatesRule_qualifiedName _) fun result? => ?_
  cases result? with
  | none => exact (simulates_skipUntil _).bind fun _ => simulates_pure none
  | some result => exact simulates_pure _

theorem simulates_parameters? : Simulates ts n parameters? Rule.parameters?.attempt := by
  refine simulates_kind.lift_bind fun _ => ?_
  split
  · rw [bind_pure_comp, bind_pure_comp, Rule.attempt_map]
    exact simulates_parameters.map _
  · exact simulates_pure (some none)

theorem simulates_body : Simulates ts n body Rule.body :=
  (simulates_eat _).bind fun _ =>
    .ite (fun _ => simulates_sequence (by decide)) fun _ => simulates_pure []

section

variable {block : TokenParser Block} (h : Simulates ts n block Rule.block)
include h

theorem simulates_procedureOf (hat : s.At ts c) (hlt : c.rest.length < n + 1) (hc : c.kind ≠ .eof) :
    SimulatesAt ts (procedureOf block) (Rule.procedureOf Rule.block).attempt s c := by
  rw [procedureOf, Rule.procedureOf, attempt_lift_bind]
  refine Simulates.advance_bind ?_ hat hlt hc
  refine Simulates.lift_bind (simulatesRule_identifier _) fun name =>
    simulates_parameters?.lift_bind fun params => (simulates_require _ _).lift_bind fun _ =>
    h.lift_bind fun body => Simulates.lift_bind (simulatesRule_identifier _) fun endName => ?_
  cases name <;> cases params <;> cases endName <;> exact simulates_pure _

theorem simulates_declarationsOf :
    Simulates ts (n + 1) (declarationsOf block) (Rule.declarationsOf Rule.block) := by
  refine simulates_fix fun i hi more hmore s c hat hlt => ?_
  rw [Rule.declarationsOf_eq, Rule.declarationsStep]
  refine .kind_bind hat ?_
  by_cases hconst : c.kind = .kwConst
  · simp only [hconst]
    refine Simulates.advance_bind ?_ hat hlt (by simp [hconst])
    exact (simulates_entries _ Rule.enters_constant simulatesRule_constant).bind fun _ =>
      hmore.bind fun _ => simulates_pure _
  by_cases hvar : c.kind = .kwVar
  · simp only [hvar]
    refine Simulates.advance_bind ?_ hat hlt (by simp [hvar])
    exact (simulates_entries _ Rule.enters_vars simulatesRule_vars).bind fun _ =>
      hmore.bind fun _ => simulates_pure _
  by_cases hprocedure : c.kind = .kwProcedure
  · have hne : c.kind ≠ .eof := by simp [hprocedure]
    have hshort : ((Rule.procedureOf Rule.block).attempt.run c).next.rest.length < c.rest.length :=
      Rule.length_skip_bind_lt _ hne
    simp only [hprocedure]
    refine (simulates_procedureOf h hat (by omega) hne).bind ?_
    exact Simulates.bind (simulates_endEntry _) (fun _ => hmore.bind fun _ => simulates_pure _) _ _
      (hat.after (Rule.procedureOf Rule.block).attempt) (by omega)
  by_cases hend : c.kind ∈ [.kwBegin, .kwEnd, .eof]
  · simp only [List.mem_cons, List.not_mem_nil, or_false] at hend
    rcases hend with hk | hk | hk <;> simp only [hk] <;> exact simulates_pure [] s c hat hlt
  -- What begins no declaration is left, and with it at least one token.
  have hshort : (Parser.leaveDeclaration.run c).next.rest.length < c.rest.length :=
    Rule.length_leaveDeclaration_lt (by simp_all)
  obtain ⟨hbegin, hkwEnd, heof⟩ : c.kind ≠ .kwBegin ∧ c.kind ≠ .kwEnd ∧ c.kind ≠ .eof := by
    simpa using hend
  simp only
  have hreported := hat.after
    (Parser.unexpected .block [.kwConst, .kwVar, .kwProcedure, .kwBegin, .kwEnd])
  refine (simulates_reportUnexpected _ _ s c hat hlt).bind ?_
  refine (simulates_recoverDeclaration _ _ hreported hlt).bind ?_
  refine hmore _ _ (hreported.after Parser.leaveDeclaration) ?_
  change (Parser.leaveDeclaration.run c).next.rest.length < i
  omega

theorem simulates_blockOf : Simulates ts (n + 1) (blockOf block) Rule.block := by
  rw [Rule.block_eq]
  exact (simulates_declarationsOf h).bind fun _ => simulates_body.bind fun _ =>
    (simulates_terminate _ _ _).bind fun _ => simulates_pure _

end

theorem simulates_block : Simulates ts n block Rule.block :=
  simulates_fix fun _ _ _ h => simulates_blockOf h

/-! ## Modules -/

theorem simulatesRule_importNames : SimulatesRule ts n importNames Rule.importNames :=
  SimulatesRule.bind
    (SimulatesRule.bind (.lift (simulates_eat _)) fun _ => .ite
      (fun _ => (simulatesRule_identifier _).bind fun _ => simulatesRule_pure _)
      fun _ => simulatesRule_pure none)
    fun _ => (simulatesRule_discard_expect (by decide) _).bind fun _ =>
      (simulatesRule_identifierList _).bind fun _ => simulatesRule_pure _

theorem simulates_importItem : Simulates ts n importItem Rule.importItem := by
  refine Simulates.bind simulatesRule_importNames fun found? => ?_
  cases found? with
  | none =>
    exact (simulates_skipUntil _).bind fun _ => (simulates_eat _).discarded.bind fun _ =>
      simulates_pure none
  | some found => exact (simulates_terminate _ _ _).bind fun _ => simulates_pure (some found)

theorem simulates_imports : Simulates ts n imports Rule.imports := by
  refine simulates_fix fun i _ more hmore s c hat hlt => ?_
  rw [Rule.imports_eq, Rule.importsStep]
  refine .kind_bind hat ?_
  split
  · next hk =>
    have hshort := Rule.length_importItem_lt hk
    refine (simulates_importItem s c hat hlt).bind ?_
    exact Simulates.bind hmore (fun _ => simulates_pure _) _ _ (hat.after Rule.importItem) (by omega)
  · exact simulates_pure [] s c hat hlt

theorem simulates_moduleKeyword : Simulates ts n moduleKeyword Rule.moduleKeyword :=
  (simulates_eat _).bind fun _ => .ite (fun _ => simulates_pure true) fun _ =>
    (simulates_reportUnexpected _ _).bind fun _ => (simulates_skipUntil _).bind fun _ =>
      (simulates_eat _).bind fun _ => .ite (fun _ => simulates_pure true) fun _ =>
        (simulates_eat _).discarded.bind fun _ => simulates_pure false

theorem simulates_heading : Simulates ts n heading Rule.heading :=
  simulates_moduleKeyword.bind fun _ => .ite
    (fun _ => Simulates.bind (simulatesRule_identifier _) fun _ =>
      (simulates_terminate _ _ _).bind fun _ => simulates_pure _)
    fun _ => simulates_pure ""

theorem simulates_fullStop : Simulates ts n fullStop Rule.fullStop := by
  refine .expect_bind (by decide) _ fun stop => simulates_kind.bind fun _ => ?_
  rw [Option.isSome_map]
  exact .ite (fun _ => simulates_reportUnexpected _ _) fun _ => simulates_pure ()

theorem simulates_compilationUnit : Simulates ts n compilationUnit Rule.compilationUnit :=
  simulates_heading.bind fun _ => simulates_imports.bind fun _ => simulates_block.bind fun _ =>
    Simulates.bind (simulatesRule_identifier _) fun _ => simulates_fullStop.bind fun _ =>
      simulates_pure _

end TokenParser

/-! ## The log -/

/-- What is added to the log for a report. -/
def Reported.ofReport (ts : List Token) (r : Report) : Reported :=
  ⟨r.index, r.diagnostic (.ofTokens ts)⟩

theorem Log.reported_foldl_record (ts : List Token) (rs : List Report) (log : Log) (last : Nat)
    (hlast : log.lastErrorAt = some last) :
    (rs.foldl (Log.record ts) log).reported =
      log.reported ++ (Report.firstPerSymbol.afterIndex last rs).map (Reported.ofReport ts) := by
  induction rs generalizing log last with
  | nil => simp [Report.firstPerSymbol.afterIndex]
  | cons r rs ih =>
    rw [List.foldl_cons, Report.firstPerSymbol.afterIndex]
    by_cases hr : r.index = last
    · have hstay : Log.record ts log r = log := by simp [Log.record, Log.add, hlast, hr]
      rw [hstay, if_pos hr]
      exact ih log last hlast
    · have hadd : Log.record ts log r =
          ⟨log.reported ++ [Reported.ofReport ts r], some r.index⟩ := by
        simp [Log.record, Log.add, Reported.ofReport, hlast, Ne.symm hr]
      rw [hadd, if_neg hr, ih _ r.index rfl]
      simp

/-- A log that is begun with nothing in it has the first report on each symbol. -/
theorem Log.reported_record (ts : List Token) (rs : List Report) :
    (rs.foldl (Log.record ts) ⟨[], none⟩).reported =
      (Report.firstPerSymbol rs).map (Reported.ofReport ts) := by
  cases rs with
  | nil => rfl
  | cons r rs => exact Log.reported_foldl_record ts rs ⟨[Reported.ofReport ts r], _⟩ r.index rfl

/-- The token parser ends and never reads behind the last token. Its module and its diagnostics are
those of the symbols. -/
theorem TokenParser.parse_eq (ts : List Token) :
    parse ts = some ((TokenStream.ofTokens ts).parse.1,
      (TokenStream.ofTokens ts).parse.2.map (Reported.ofReport ts)) := by
  have hstart : State.At ts ⟨terminated ts, 0, ⟨[], none⟩⟩
      (.start (TokenStream.ofTokens ts).symbols) := ⟨rfl, rfl, .refl _⟩
  have hrun : SimulatesAt ts compilationUnit Rule.compilationUnit _ _ :=
    simulates_compilationUnit _ _ hstart (Nat.lt_succ_self _)
  rw [SimulatesAt] at hrun
  simp [parse, hrun, State.after, Log.reported_record, TokenStream.parse]

end ModSyntax
