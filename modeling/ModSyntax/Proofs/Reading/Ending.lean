import ModSyntax.Proofs.Completeness

/-!
# Where statements end

A statement ends in front of every symbol that cannot go on with it, also of those that never follow
one in a sentence (`Rule.reads_statement_of_derives`). Only the last part of a statement has to be
looked at for this: what stands before it is read as in any sentence.
-/

namespace ModSyntax.Rule

open ModSyntax.Parser

variable {α : Type} {word : List Symbol} {a : α} {follow near : List Kind}

/-- What goes on with an expression: a dot, a bracket or an operator. -/
def expressionGoesOn : List Kind :=
  [Kind.period, .lparen, .star, .slash, .kwDiv, .kwMod, .kwAnd, .plus, .minus, .kwOr] ++
    Kind.relations

/-- What goes on with a statement: what goes on with its last expression, `:=` behind a name, and
what begins the value of a `RETURN`. -/
def statementGoesOn : List Kind := .becomes :: (Kind.expressionStart ++ expressionGoesOn)

/-- What ends a word of a list may also be what stands between its items. -/
theorem ReadsFrom.append {start ops : List Kind} {r : Rule α} (h : r.ReadsFrom start word a near)
    (hops : ops ⊆ near) (h' : r.ReadsFrom start word a follow) :
    r.ReadsFrom start word a (ops ++ follow) := by
  refine ⟨fun rest index hrest => ?_, h.opens⟩
  rcases List.mem_append.1 hrest with hrest | hrest
  · exact h.reads rest index (hops hrest)
  · exact h'.reads rest index hrest

/-- The phrases an expression can end with are read up to one of the kinds `follow`. -/
def ReadsBefore (follow : List Kind) : (p : Phrase) → List Symbol → p.Tree → Prop
  | .expr, w, e => expr.ReadsFrom Kind.expressionStart w e follow
  | .simpleExpr, w, e => (simpleExprOf factor).ReadsFrom Kind.expressionStart w e follow
  | .moreTerms, w, ts =>
      (chain (operator AddOp.ofKind?) (termOf factor)).ReadsMore [.plus, .minus, .kwOr] w ts follow
  | .term, w, t => (termOf factor).ReadsFrom factorStart w t follow
  | .moreFactors, w, fs =>
      (chain (operator MulOp.ofKind?) factor).ReadsMore
        [.star, .slash, .kwDiv, .kwMod, .kwAnd] w fs follow
  | .factor, w, f => factor.ReadsFrom factorStart w f follow
  | _, _, _ => True

theorem readsBefore_of_derives (hend : ∀ k ∈ follow, k ∉ expressionGoesOn) {p : Phrase}
    {w : List Symbol} {t : p.Tree} (h : Derives p w t) : ReadsBefore follow p w t := by
  -- No kind that ends the expression is an operator, a dot or a bracket.
  have hadd : ∀ k ∈ follow, AddOp.ofKind? k = none := fun k hk =>
    (by decide : ∀ k ∈ Kind.all, k ∉ expressionGoesOn → AddOp.ofKind? k = none) k (Kind.mem_all k)
      (hend k hk)
  have hmul : ∀ k ∈ follow, MulOp.ofKind? k = none := fun k hk =>
    (by decide : ∀ k ∈ Kind.all, k ∉ expressionGoesOn → MulOp.ofKind? k = none) k (Kind.mem_all k)
      (hend k hk)
  have hrel : ∀ k ∈ follow, Relation.ofKind? k = none ∧ k.isRelation = false := fun k hk =>
    (by decide : ∀ k ∈ Kind.all, k ∉ expressionGoesOn →
      Relation.ofKind? k = none ∧ k.isRelation = false) k (Kind.mem_all k) (hend k hk)
  have hperiod : .period ∉ follow := fun hk => hend _ hk (by decide)
  have hparen : .lparen ∉ follow := fun hk => hend _ hk (by decide)
  induction h with
  | simple _ ih => exact reads_simple (fun k hk => (hrel k hk).1) ih
  | compare op ha _ _ ihb =>
    exact reads_compare op _ (fun k hk => (hrel k hk).2) (readsPhrase_of_derives ha) ihb
  | unsigned ht _ iht ihts =>
    exact reads_unsigned ((readsPhrase_of_derives ht).append (by decide) iht) ihts
  | signed sign ht _ iht ihts =>
    exact reads_signed sign _ ((readsPhrase_of_derives ht).append (by decide) iht) ihts
  | noMoreTerms => exact readsMore_chain_nil (takes_operator rfl) (reads_operator_absent hadd) _
  | moreTerms op ht _ iht ihts =>
    exact readsMore_chain_cons (takes_operator rfl)
      (reads_operator (AddOp.ofKind?_eq_some_iff.2 rfl) _) (by cases op <;> simp [AddOp.kind])
      (by decide) ((readsPhrase_of_derives ht).append (by decide) iht) ihts
  | term hf _ ihf ihfs =>
    exact reads_term ((readsPhrase_of_derives hf).append (by decide) ihf) ihfs
  | noMoreFactors => exact readsMore_chain_nil (takes_operator rfl) (reads_operator_absent hmul) _
  | moreFactors op hf _ ihf ihfs =>
    exact readsMore_chain_cons (takes_operator rfl)
      (reads_operator (MulOp.ofKind?_eq_some_iff.2 rfl) _) (by cases op <;> simp [MulOp.kind])
      (by decide) ((readsPhrase_of_derives hf).append (by decide) ihf) ihfs
  | int h => exact reads_int h follow
  | paren he => exact reads_paren _ _ (readsPhrase_of_derives he) follow
  | not _ ih => exact reads_not _ ih
  | ref hq => exact reads_ref hparen (readsPhrase_of_derives hq _ _ hperiod)
  | call hq hes =>
    exact reads_call (readsPhrase_of_derives hq _ _ (by decide)) (readsPhrase_of_derives hes _ _)
  | _ => trivial

/-- A statement is read up to any symbol that does not go on with it. -/
theorem reads_statement_of_derives {s : Statement} (h : Derives .statement word s)
    (hend : ∀ k ∈ follow, k ∉ statementGoesOn) : statement.Reads word s follow := by
  have hexpr : ∀ k ∈ follow, k ∉ expressionGoesOn := fun k hk hgo =>
    hend k hk (List.mem_cons_of_mem _ (List.mem_append_right _ hgo))
  cases h with
  | assign hq he =>
    exact reads_assign _ (readsPhrase_of_derives hq _ _ (by decide))
      (readsBefore_of_derives hexpr he).reads
  | callStatement hq hes =>
    exact reads_callStatement (readsPhrase_of_derives hq _ _ (by decide))
      (readsPhrase_of_derives hes _ _)
  | bare hq =>
    refine reads_bare (fun k hk => ⟨?_, ?_⟩) (readsPhrase_of_derives hq _ _ fun hk => ?_)
    · rintro rfl
      exact hend _ hk (by decide)
    · rintro rfl
      exact hend _ hk (by decide)
    · exact hend _ hk (by decide)
  | branch he hss =>
    exact reads_of_readsAt fun i => readsAt_branch (readsPhrase_of_derives he) _ _ _ follow
      ((readsPhrase_of_derives hss _ closing_thenEnd).readsAt _)
  | branchElse he hss hts =>
    exact reads_of_readsAt fun i => readsAt_branchElse (readsPhrase_of_derives he) _ _ _ _ follow
      ((readsPhrase_of_derives hss _ closing_thenEnd).readsAt _)
      ((readsPhrase_of_derives hts _ closing_sequenceEnd).readsAt _)
  | loop he hss =>
    exact reads_of_readsAt fun i => readsAt_loop (readsPhrase_of_derives he) _ _ _ follow
      ((readsPhrase_of_derives hss _ closing_sequenceEnd).readsAt _)
  | leave =>
    exact reads_leave _ fun k hk => by
      simpa [Kind.startsExpression] using fun hstart =>
        hend k hk (List.mem_cons_of_mem _ (List.mem_append_left _ hstart))
  | leaveWith he => exact reads_leaveWith _ (readsBefore_of_derives hexpr he)

end ModSyntax.Rule
