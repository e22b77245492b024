import ModSyntax.Proofs.Grammar
import ModSyntax.Proofs.Reading.Module

/-!
# Every sentence is read

`readsPhrase_of_derives`: in front of a phrase of the grammar, the parser takes its symbols, gives
its tree, and has nothing to report. The proof goes over the derivation; each of its steps is one
law of reading.
-/

namespace ModSyntax.Rule

open ModSyntax.Parser

/-- The parser takes the symbols of the phrase and gives its tree. What is repeated behind the first
item of a list is read together with that item, whatever the reports on the other part. -/
def ReadsPhrase : (p : Phrase) → List Symbol → p.Tree → Prop
  | .compilationUnit, w, m => compilationUnit.Reads w m [.eof]
  | .imports, w, is => ∀ i, ImportsAt is i w []
  | .importItem, w, item => ∀ i v is rs, ImportsAt is (i + w.length) v rs →
      ImportsAt (item :: is) i (w ++ v) rs
  | .block, w, b => ∀ i, BlockAt b i w []
  | .declarations, w, ds => ∀ i, DeclarationsAt ds i w []
  | .declaration, w, ds => ∀ i v es rs, DeclarationsAt es (i + w.length) v rs →
      DeclarationsAt (ds ++ es) i (w ++ v) rs
  | .constDecls, w, ds => ∀ i, EntriesAt .constant constant ds i w []
  | .constant, w, d => constant.ReadsFrom [.identifier] w d afterEntry
  | .varDecls, w, ds => ∀ i, EntriesAt .vars vars ds i w []
  | .vars, w, d => vars.ReadsFrom [.identifier] w d afterEntry
  | .procedure, w, d => (procedureOf block).Reads w d Kind.all ∧ headKind w = .kwProcedure
  | .parameters, w, ps => parameters.ReadsFrom [.lparen] w ps afterHeading
  | .parameterList, w, ps => parameterItems.Reads w (some ps) [.rparen]
  | .moreParameters, w, ps => ∀ u p, parameter.Reads u p [.semicolon, .rparen] →
      parameterList.Reads (u ++ w) (some (p :: ps)) [.rparen]
  | .parameter, w, p => parameter.ReadsFrom [.kwVar, .identifier] w p [.semicolon, .rparen]
  | .sequence, w, ss => ∀ closers, Closing closers → (sequence closers).Reads w ss closers
  | .moreStatements, w, ss => ∀ closers, Closing closers → ∀ i u s rs,
      statement.ReadsAt i u s rs (afterStatement s) →
        (sequence closers).ReadsAt i (u ++ w) (s :: ss) rs closers
  | .statement, w, s => statement.Reads w s (afterStatement s)
  | .arguments, w, es => ∀ rule follow, (arguments rule).ReadsFrom [.lparen] w es follow
  | .exprList, w, es => (exprListOf factor).ReadsFrom Kind.expressionStart w es [.rparen]
  | .moreExprs, w, es =>
      (chain (operator fun k => if k = .comma then some () else none) expr).ReadsMore [.comma]
        w (unlabelled es) [.rparen]
  | .expr, w, e => expr.ReadsFrom Kind.expressionStart w e afterExpr
  | .simpleExpr, w, e => (simpleExprOf factor).ReadsFrom Kind.expressionStart w e afterSimple
  | .moreTerms, w, ts =>
      (chain (operator AddOp.ofKind?) (termOf factor)).ReadsMore [.plus, .minus, .kwOr] w ts
        afterSimple
  | .term, w, t => (termOf factor).ReadsFrom factorStart w t afterTerm
  | .moreFactors, w, fs =>
      (chain (operator MulOp.ofKind?) factor).ReadsMore
        [.star, .slash, .kwDiv, .kwMod, .kwAnd] w fs afterTerm
  | .factor, w, f => factor.ReadsFrom factorStart w f afterFactor
  | .qualident, w, q => ∀ rule follow, .period ∉ follow →
      (qualifiedName rule).ReadsFrom [.identifier] w q follow
  | .moreSegments, w, ns => ∀ rule follow, .period ∉ follow →
      (chain dot (identifier rule)).Reads w (unlabelled ns) follow
  | .identList, w, ns => ∀ rule follow, .comma ∉ follow →
      (identifierList rule).ReadsFrom [.identifier] w ns follow
  | .moreNames, w, ns => ∀ rule follow, .comma ∉ follow →
      (chain (operator fun k => if k = .comma then some () else none) (identifier rule)).Reads
        w (unlabelled ns) follow

/-- Every phrase of the grammar is read as its tree. -/
theorem readsPhrase_of_derives {p : Phrase} {w : List Symbol} {t : p.Tree} (h : Derives p w t) :
    ReadsPhrase p w t := by
  induction h with
  | compilationUnit _ _ ihis ihb =>
    exact Parser.reads_of_readsAt fun i =>
      (readsAt_compilationUnit _ _ _ _ (.present _) (ihis _) (ihb _) :)
  | noImports => exact importsAt_nil
  | imports _ _ ihi ihis => exact fun i => ihi i _ _ _ (ihis _)
  | importModules _ ih =>
    intro i v is rs his
    rw [← List.cons_append, List.length_append, ← Nat.add_assoc] at his
    rw [← List.cons_append, List.append_assoc]
    have hnames := (ih .imports (.semicolon :: afterImport) (by decide)).reads
    exact importsAt_cons ⟨reads_importModules _ hnames, by simp⟩ (.present _) his
  | importFrom _ ih =>
    intro i v is rs his
    rw [← List.cons_append, ← List.cons_append, ← List.cons_append, List.length_append,
      ← Nat.add_assoc] at his
    rw [← List.cons_append, ← List.cons_append, ← List.cons_append, List.append_assoc]
    have hnames := (ih .imports (.semicolon :: afterImport) (by decide)).reads
    exact importsAt_cons ⟨reads_importFrom _ _ hnames, by simp⟩ (.present _) his
  | block _ ih => exact fun i => blockAt _ (ih i) (reads_body_nil.readsAt _) (by simp)
  | blockWithBody _ _ ihds ihss =>
    exact fun i => blockAt _ (ihds i)
      (readsAt_body _ ((ihss _ closing_sequenceEnd).readsAt _)) (by simp)
  | noDeclarations => exact declarationsAt_nil
  | declarations _ _ ihd ihds => exact fun i => ihd i _ _ _ (ihds _)
  | constSection _ ih => exact fun i v es rs h => declarationsAt_const _ (ih _) h
  | varSection _ ih => exact fun i v es rs h => declarationsAt_var _ (ih _) h
  | procedureSection _ ih =>
    intro i v es rs h
    rw [List.length_append, ← Nat.add_assoc] at h
    rw [List.append_assoc]
    exact declarationsAt_procedure (ih.1.readsAt i) ih.2 (.present _) h
  | noConstDecls => exact entriesAt_nil enters_constant
  | constDecls _ _ ihd ihds =>
    exact fun i => entriesAt_cons enters_constant ihd (.present _) (ihds _)
  | noVarDecls => exact entriesAt_nil enters_vars
  | varDecls _ _ ihd ihds => exact fun i => entriesAt_cons enters_vars ihd (.present _) (ihds _)
  | constant _ ih => exact reads_constant _ ih
  | vars _ _ ihns ihq => exact reads_vars _ (ihns _ _ (by decide)) (ihq _ _ (by decide)).reads
  | procedure _ ih =>
    exact ⟨reads_of_readsAt fun i =>
      (readsAt_procedure _ _ _ reads_parameters?_absent (.present _) (ih _) :), rfl⟩
  | procedureWith _ _ ihps ih =>
    exact ⟨reads_of_readsAt fun i =>
      (readsAt_procedure _ _ _ (reads_parameters? ihps) (.present _) (ih _) :), rfl⟩
  | parameters _ ih => exact reads_parameters _ _ ih (reads_after?_absent _ (by decide))
  | parametersWithResult _ _ ihps ihq =>
    exact reads_parameters _ _ ihps (reads_after? _ _ (reads_orLeave (ihq _ _ (by decide)).reads))
  | noParameters => exact reads_parameterItems_nil
  | parameterList _ _ ihp ihps =>
    exact reads_parameterItems (ihp.headKind_append (by decide) _) (ihps _ _ ihp.reads)
  | noMoreParameters =>
    intro u p hp
    rw [List.append_nil]
    exact reads_parameterList_single hp
  | moreParameters _ _ ihp ihps =>
    exact fun u p hp => reads_parameterList_cons _ hp (ihps _ _ ihp.reads)
  | valueParameter _ _ ihns ihq =>
    exact reads_valueParameter _ (ihns _ _ (by decide)) (ihq _ _ (by decide)).reads
  | varParameter _ _ ihns ihq =>
    exact reads_varParameter _ _ (ihns _ _ (by decide)) (ihq _ _ (by decide)).reads
  | sequence _ _ ihs ihss =>
    exact fun closers h => Parser.reads_of_readsAt fun i =>
      ihss closers h i _ _ _ (ihs.readsAt i)
  | noMoreStatements =>
    intro closers h i u s rs hs
    rw [List.append_nil]
    exact readsAt_sequence_single h hs
  | moreStatements _ _ ihs ihss =>
    intro closers h i u s rs hs
    have hmore := ihss closers h (i + u.length + 1) _ _ _ (ihs.readsAt _)
    exact List.append_nil rs ▸ readsAt_sequence_cons h _ hs hmore
  | assign _ _ ihq ihe =>
    exact reads_assign _ (ihq _ _ (by decide))
      (ihe.reads.mono (by decide : .identifier :: afterReturn ⊆ afterExpr))
  | callStatement _ _ ihq ihes => exact reads_callStatement (ihq _ _ (by decide)) (ihes _ _)
  | bare _ ih => exact (reads_bare (by decide) (ih _ (.identifier :: afterReturn) (by decide)) :)
  | branch _ _ ihe ihss =>
    exact reads_of_readsAt fun i => readsAt_branch ihe _ _ _ _ ((ihss _ closing_thenEnd).readsAt _)
  | branchElse _ _ _ ihe ihss ihts =>
    exact reads_of_readsAt fun i => readsAt_branchElse ihe _ _ _ _ _
      ((ihss _ closing_thenEnd).readsAt _) ((ihts _ closing_sequenceEnd).readsAt _)
  | loop _ _ ihe ihss =>
    exact reads_of_readsAt fun i =>
      readsAt_loop ihe _ _ _ _ ((ihss _ closing_sequenceEnd).readsAt _)
  | leave => exact (reads_leave _ (by decide) : statement.Reads _ _ afterReturn)
  | leaveWith _ ih =>
    exact reads_leaveWith _ (ih.mono (by decide : .identifier :: afterReturn ⊆ afterExpr))
  | noArguments => exact fun rule follow => ⟨reads_arguments _ _ rule reads_noExprs follow, by simp⟩
  | arguments _ ih => exact fun rule follow => ⟨reads_arguments _ _ rule ih.reads follow, by simp⟩
  | exprList _ _ ihe ihes => exact reads_exprList ihe ihes
  | noMoreExprs => exact readsMore_chain_nil takes_comma (reads_comma_absent (by decide)) _
  | moreExprs _ _ ihe ihes =>
    exact readsMore_chain_cons takes_comma (reads_comma _) (by simp) (by decide)
      ⟨ihe.reads.mono (by decide), ihe.opens⟩ ihes
  | simple _ ih => exact reads_simple (by decide) (ih.mono (List.subset_append_right _ _))
  | compare op _ _ iha ihb =>
    exact reads_compare op _ (by decide) iha (ihb.mono (List.subset_append_right _ _))
  | unsigned _ _ iht ihts => exact reads_unsigned iht ihts
  | signed sign _ _ iht ihts => exact reads_signed sign _ iht ihts
  | noMoreTerms =>
    exact readsMore_chain_nil (takes_operator rfl) (reads_operator_absent (by decide)) _
  | moreTerms op _ _ iht ihts =>
    exact readsMore_chain_cons (takes_operator rfl)
      (reads_operator (AddOp.ofKind?_eq_some_iff.2 rfl) _) (by cases op <;> simp [AddOp.kind])
      (by decide) iht ihts
  | term _ _ ihf ihfs => exact reads_term ihf ihfs
  | noMoreFactors =>
    exact readsMore_chain_nil (takes_operator rfl) (reads_operator_absent (by decide)) _
  | moreFactors op _ _ ihf ihfs =>
    exact readsMore_chain_cons (takes_operator rfl)
      (reads_operator (MulOp.ofKind?_eq_some_iff.2 rfl) _) (by cases op <;> simp [MulOp.kind])
      (by decide) ihf ihfs
  | int h => exact reads_int h _
  | paren _ ih => exact reads_paren _ _ ih _
  | not _ ih => exact reads_not _ ih
  | ref _ ih => exact reads_ref (by decide) (ih _ _ (by decide))
  | call _ _ ihq ihes => exact reads_call (ihq _ _ (by decide)) (ihes _ _)
  | qualident _ ih => exact fun rule follow h => ⟨reads_qualifiedName (ih rule follow h), by simp⟩
  | noMoreSegments => exact fun rule follow h => reads_moreSegments_nil rule h
  | moreSegments _ ih => exact fun rule follow h => reads_moreSegments_cons _ (ih rule follow h)
  | identList _ ih => exact fun rule follow h => ⟨reads_identifierList (ih rule follow h), by simp⟩
  | noMoreNames => exact fun rule follow h => reads_moreNames_nil rule h
  | moreNames _ ih => exact fun rule follow h => reads_moreNames_cons _ (ih rule follow h)

end ModSyntax.Rule
