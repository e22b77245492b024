import ModSyntax.Proofs.Grammar
import ModSyntax.Proofs.Soundness.Basic

/-!
# Expressions and statements up to the first report

Where a rule for names, expressions or statements has nothing to report, the symbols that it takes
derive the tree that it gives. What it has taken before its first report begins such a phrase.
-/

namespace ModSyntax.Rule

open ModSyntax.Parser

variable {c : Cursor} {n : Nat}

/-! ## Names -/

theorem follows_identifier (rule : Construct) :
    (identifier rule).Follows n fun w name => w = [⟨.identifier, name⟩] :=
  follows_expect (by decide) rule

theorem follows_dot :
    dot.Follows n fun w o? =>
      (∃ o s, o? = some o ∧ w = [s] ∧ s.kind = .period) ∨ o? = none ∧ w = [] := by
  refine Parser.follows_of_at fun c => ?_
  by_cases hc : c.kind = .period ∧ c.secondKind = .identifier
  · refine SoundAt.follows (fun _ => ?_) (by simp [dot, hc])
    exact ⟨[⟨.period, c.lexeme⟩], by simpa [dot, hc] using Cursor.rest_eq hc.1 (by decide),
      .inl ⟨(), ⟨.period, c.lexeme⟩, by simp [dot, hc], rfl, rfl⟩⟩
  · exact SoundAt.follows (fun _ => ⟨[], by simp [dot, hc], by simp [dot, hc]⟩) (by simp [dot, hc])

theorem follows_qualifiedName (rule : Construct) :
    (qualifiedName rule).Follows n (Derives .qualident) := by
  have hmore : (chain dot (identifier rule)).Follows n fun v ns =>
      Derives .moreSegments v (ns.map Prod.snd) := by
    refine follows_chain takes_dot (fun _ => follows_dot) (follows_identifier rule)
      .noMoreSegments ?_
    rintro ⟨k, l⟩ o u name v ns (rfl : k = .period) rfl hv
    exact .moreSegments hv
  refine (follows_identifier rule).bind fun w name hw => ?_
  subst hw
  exact hmore.bind_pure fun v ns hv => .qualident hv

theorem follows_identifierList (rule : Construct) :
    (identifierList rule).Follows n (Derives .identList) := by
  have hmore : (chain (operator fun k => if k = .comma then some () else none)
      (identifier rule)).Follows n fun v ns => Derives .moreNames v (ns.map Prod.snd) := by
    refine follows_chain (takes_operator (by simp)) (fun _ => follows_operator (by simp))
      (follows_identifier rule) .noMoreNames ?_
    rintro ⟨k, l⟩ o u name v ns hk rfl hv
    obtain rfl : k = .comma := by simpa using hk
    exact .moreNames hv
  refine (follows_identifier rule).bind fun w name hw => ?_
  subst hw
  exact hmore.bind_pure fun v ns hv => .identList hv

/-! ## Expressions -/

theorem exists_factor : ∃ w f, Derives .factor w f :=
  ⟨[⟨.identifier, ""⟩], _, .ref (.qualident .noMoreSegments)⟩

theorem followsAt_literal (hc : c.kind = .integer) : literal.FollowsAt c (Derives .factor) := by
  cases hv : literalValue? c.lexeme with
  | none =>
    -- Another literal may stand in the place of one that is out of range.
    obtain ⟨w, f, hf⟩ := exists_factor
    refine ⟨fun h => by simp [literal, hv] at h, fun r hr => ?_⟩
    obtain rfl : _ = r := by simpa [literal, hv] using hr
    exact ⟨[], c.rest, w, some f, rfl, rfl, f, rfl, hf⟩
  | some value =>
    refine SoundAt.follows (fun _ => ?_) (by simp [literal, hv])
    exact ⟨[⟨.integer, c.lexeme⟩], by simpa [literal, hv] using Cursor.rest_eq hc (by decide),
      .int value, by simp [literal, hv], .int hv⟩

section

-- The rules above factors keep to their phrases where factors do.
variable (h : factor.Follows n (Derives .factor))

include h

theorem follows_term : (termOf factor).Follows n (Derives .term) := by
  have hmore : (chain (operator MulOp.ofKind?) factor).Follows n (Derives .moreFactors) := by
    refine follows_chain (takes_operator rfl) (fun _ => follows_operator rfl) h
      .noMoreFactors ?_
    rintro ⟨k, l⟩ o u f v fs hk hu hv
    obtain rfl := MulOp.ofKind?_eq_some_iff.1 hk
    exact .moreFactors o hu hv
  exact h.bind fun u f hu => hmore.bind_pure fun v fs hv => .term hu hv

theorem follows_simpleExpr : (simpleExprOf factor).Follows n (Derives .simpleExpr) := by
  have hterm := follows_term h
  have hmore : (chain (operator AddOp.ofKind?) (termOf factor)).Follows n
      (Derives .moreTerms) := by
    refine follows_chain (takes_operator rfl) (fun _ => follows_operator rfl) hterm
      .noMoreTerms ?_
    rintro ⟨k, l⟩ o u t v ts hk hu hv
    obtain rfl := AddOp.ofKind?_eq_some_iff.1 hk
    exact .moreTerms o hu hv
  refine (follows_lift (follows_operator rfl)).bind fun w sign hsign => ?_
  rcases hsign with ⟨sign, ⟨k, l⟩, rfl, rfl, hk⟩ | ⟨rfl, rfl⟩
  · obtain rfl := Sign.ofKind?_eq_some_iff.1 hk
    exact hterm.bind fun u t hu => hmore.bind_pure fun v ts hv =>
      .signed (u := u) (v := v) sign hu hv
  · exact hterm.bind fun u t hu => hmore.bind_pure fun v ts hv =>
      .unsigned (u := u) (v := v) hu hv

theorem follows_exprOf : (exprOf factor).Follows n (Derives .expr) := by
  have hsimple := follows_simpleExpr h
  refine hsimple.bind fun u a hu => ?_
  refine (follows_lift (follows_operator rfl)).bind fun w op hop => ?_
  rcases hop with ⟨op, ⟨k, l⟩, rfl, rfl, hk⟩ | ⟨rfl, rfl⟩
  · obtain rfl := Relation.ofKind?_eq_some_iff.1 hk
    refine hsimple.bind fun v b hv => follows_of_at fun c => followsAt_kind_bind ?_
    have hcompare : Derives .expr (u ++ ([⟨op.kind, l⟩] ++ (v ++ []))) (.compare op a b) := by
      simpa using .compare op hu hv
    split
    · exact followsAt_unexpected_bind _ _ _ ⟨[], _, hcompare⟩
    · exact followsAt_pure hcompare
  · exact follows_pure (by simpa using .simple hu)

theorem follows_exprList :
    (exprListOf factor).Follows n fun w es => Derives .exprList w es ∨ w = [] ∧ es = [] := by
  have hexpr := follows_exprOf h
  have hmore : (chain (operator fun k => if k = .comma then some () else none)
      (exprOf factor)).Follows n fun v es => Derives .moreExprs v (es.map Prod.snd) := by
    refine follows_chain (takes_operator (by simp)) (fun _ => follows_operator (by simp)) hexpr
      .noMoreExprs ?_
    rintro ⟨k, l⟩ o u e v es hk hu hv
    obtain rfl : k = .comma := by simpa using hk
    exact .moreExprs hu hv
  refine ⟨⟨[], some [], [], rfl, .inr ⟨rfl, rfl⟩⟩, fun c hc => followsAt_kind_bind ?_⟩
  split
  · exact (hexpr.bind fun u e hu =>
      hmore.bind_pure fun v es hv => .inl (.exprList hu hv)).below c hc
  · exact followsAt_pure (.inr ⟨rfl, rfl⟩)

/-- The brackets of a list of arguments come with one symbol more. -/
theorem followsAt_arguments (rule : Construct) {c : Cursor} (hc : c.kind = .lparen)
    (hn : c.rest.length ≤ n) : (argumentsOf factor rule).FollowsAt c (Derives .arguments) := by
  refine (followsAt_lift (followsAt_skip hc (by decide))).bind fun w _ hw => ?_
  obtain ⟨l₁, rfl⟩ := hw
  refine ((follows_exprList h).bind fun u es hes => ?_).mono (by simpa using hn)
  refine (follows_discard_expect (by decide) rule).bind_pure fun v _ hv => ?_
  obtain ⟨l₂, rfl⟩ := hv
  rcases hes with hes | ⟨rfl, rfl⟩
  · exact .arguments hes
  · exact .noArguments

end

theorem follows_factor : factor.Follows n (Derives .factor) := by
  induction n with
  | zero => exact follows_zero exists_factor
  | succ n ih =>
    refine follows_succ fun c hc => ?_
    rw [factor_eq]
    refine followsAt_kind_bind ?_
    split
    · next hk => exact followsAt_literal hk
    · next hk =>
      refine (followsAt_lift (followsAt_skip hk (by decide))).bind fun w _ hw => ?_
      obtain ⟨l₁, rfl⟩ := hw
      refine ((follows_exprOf ih).bind fun u e hu => ?_).mono (by simp; omega)
      refine (follows_discard_expect (by decide) .factor).bind_pure fun v _ hv => ?_
      obtain ⟨l₂, rfl⟩ := hv
      exact .paren hu
    · next hk =>
      refine (followsAt_lift (followsAt_skip hk (by decide))).bind fun w _ hw => ?_
      obtain ⟨l, rfl⟩ := hw
      exact (ih.bind_pure fun u f hu => .not hu).mono (by simp; omega)
    · refine ((follows_qualifiedName .factor).below c hc).bind fun u q hu => ?_
      refine Follows.mono (follows_succ fun d hd => followsAt_kind_bind ?_) (by omega : _ ≤ n + 1)
      split
      · next hk =>
        exact (followsAt_arguments ih .factor hk (by omega)).bind_pure fun v es hv => .call hu hv
      · exact followsAt_pure (by simpa using .ref hu)
    · exact followsAt_unexpected_bind _ _ _ exists_factor

theorem follows_expr : expr.Follows n (Derives .expr) := follows_exprOf follows_factor

/-! ## Statements -/

theorem exists_statement : ∃ w s, Derives .statement w s :=
  ⟨[⟨.kwReturn, ""⟩], _, .leave⟩

theorem follows_condition {keyword : Kind} (hk : keyword ≠ .eof) (rule : Construct) :
    (condition keyword rule).Follows n fun w e? =>
      ∃ e u l, e? = some e ∧ w = u ++ [⟨keyword, l⟩] ∧ Derives .expr u e := by
  refine (follows_expr.orSkipUntil _).bind fun u e? he => ?_
  obtain ⟨e, rfl, he⟩ := he
  refine (follows_require hk rule).bind_pure fun v _ hv => ?_
  obtain ⟨l, rfl⟩ := hv
  exact ⟨e, u, l, rfl, rfl, he⟩

/-- Only a semicolon parts two statements without a report. -/
theorem follows_separator (closers : List Kind) :
    (separator closers).Follows n fun w more =>
      more = true ∧ (∃ l, w = [⟨.semicolon, l⟩]) ∨ more = false ∧ w = [] := by
  refine (follows_accept (by decide)).bind fun w found hfound => ?_
  rcases hfound with ⟨rfl, l, rfl⟩ | ⟨rfl, rfl⟩
  · exact Parser.follows_pure (.inl ⟨rfl, l, rfl⟩)
  · refine Parser.follows_of_at fun c => Parser.followsAt_kind_bind ?_
    split
    · exact Parser.followsAt_unexpected_bind _ _ _ ⟨[], false, .inr ⟨rfl, rfl⟩⟩
    · refine Parser.followsAt_kind_bind ?_
      split
      · exact Parser.followsAt_pure (.inr ⟨rfl, rfl⟩)
      · exact Parser.followsAt_unexpected_bind _ _ _ ⟨[], false, .inr ⟨rfl, rfl⟩⟩

theorem follows_designator : designator.Follows n (Derives .statement) := by
  refine (follows_qualifiedName .statement).bind fun u q hu => ?_
  refine follows_of_at fun c => followsAt_kind_bind ?_
  split
  · next hk =>
    refine (followsAt_lift (followsAt_skip hk (by decide))).bind fun w _ hw => ?_
    obtain ⟨l, rfl⟩ := hw
    exact follows_expr.bind_pure fun v e hv => .assign hu hv
  · next hk =>
    exact (followsAt_arguments follows_factor .statement hk (Nat.le_refl _)).bind_pure
      fun v es hv => .callStatement hu hv
  · exact followsAt_pure (by simpa using .bare hu)

theorem followsAt_leave (hc : c.kind = .kwReturn) : leave.FollowsAt c (Derives .statement) := by
  refine (followsAt_lift (followsAt_skip hc (by decide))).bind fun w _ hw => ?_
  obtain ⟨l, rfl⟩ := hw
  refine follows_of_at fun c => followsAt_kind_bind ?_
  split
  · exact (follows_expr.below c (Nat.lt_succ_self _)).bind_pure fun u e hu => .leaveWith hu
  · exact followsAt_pure .leave

section

variable (h : statement.Follows n (Derives .statement))

include h

theorem follows_sequence {closers : List Kind} (hclose : ∀ k ∈ closers, k ∉ statementStart) :
    (sequence closers).Follows n (Derives .sequence) := by
  induction n with
  | zero =>
    obtain ⟨u, s, hs⟩ := exists_statement
    exact Parser.follows_zero ⟨_, _, .sequence hs .noMoreStatements⟩
  | succ n ih =>
    have hmore := ih (h.mono (Nat.le_succ n))
    refine Parser.follows_succ fun c hc => ?_
    rw [sequence_eq hclose]
    refine ((h.orSkipUntil _).below c hc).bind fun u s? hs => ?_
    obtain ⟨s, rfl, hs⟩ := hs
    refine Parser.Follows.mono (Parser.follows_succ fun d hd => ?_) (by omega : _ ≤ n + 1)
    refine ((follows_separator closers).below d hd).bind fun w another hanother => ?_
    rcases hanother with ⟨rfl, l, rfl⟩ | ⟨rfl, rfl⟩
    · refine (hmore.bind_pure fun v ss hv => ?_).mono (by simp; omega)
      cases hv with
      | @sequence u' _ v' _ hs' hss =>
        exact .sequence hs (.moreStatements (u := u') (v := v') hs' hss)
    · exact Parser.follows_pure (.sequence hs .noMoreStatements)

theorem followsAt_branch (hc : c.kind = .kwIf) (hn : c.rest.length ≤ n) :
    (branchOf statement).FollowsAt c (Derives .statement) := by
  have hthen : (sequence thenEnd).Follows n (Derives .sequence) :=
    follows_sequence h (by decide)
  have helse : Follows n (liftM (sequence sequenceEnd)) (Derives .sequence) :=
    follows_lift (follows_sequence h (by decide))
  refine (followsAt_lift (followsAt_skip hc (by decide))).bind fun w _ hw => ?_
  obtain ⟨l₁, rfl⟩ := hw
  refine ((follows_lift (follows_condition (by decide) .ifStatement)).bind
    fun w cond hcond => ?_).mono (by simpa using hn)
  obtain ⟨cond, u, l₂, rfl, rfl, hu⟩ := hcond
  refine (follows_lift hthen).bind fun v ss hv => ?_
  refine (helse.after? (by decide)).bind fun w ts? hts => ?_
  refine (follows_discard_expect (by decide) .ifStatement).bind_pure fun z _ hz => ?_
  obtain ⟨l₃, rfl⟩ := hz
  rcases hts with ⟨ts, l₄, z, rfl, rfl, hz⟩ | ⟨rfl, rfl⟩
  · simpa using Derives.branchElse hu hv hz
  · simpa using Derives.branch hu hv

theorem followsAt_loop (hc : c.kind = .kwWhile) (hn : c.rest.length ≤ n) :
    (loopOf statement).FollowsAt c (Derives .statement) := by
  refine (followsAt_lift (followsAt_skip hc (by decide))).bind fun w _ hw => ?_
  obtain ⟨l₁, rfl⟩ := hw
  refine ((follows_lift (follows_condition (by decide) .whileStatement)).bind
    fun w cond hcond => ?_).mono (by simpa using hn)
  obtain ⟨cond, u, l₂, rfl, rfl, hu⟩ := hcond
  refine (follows_lift (follows_sequence h (by decide))).bind fun v ss hv => ?_
  refine (follows_discard_expect (by decide) .whileStatement).bind_pure fun z _ hz => ?_
  obtain ⟨l₃, rfl⟩ := hz
  simpa using Derives.loop hu hv

end

theorem follows_statement : statement.Follows n (Derives .statement) := by
  induction n with
  | zero => exact follows_zero exists_statement
  | succ n ih =>
    refine follows_succ fun c hc => ?_
    rw [statement_eq]
    refine followsAt_kind_bind ?_
    split
    · exact follows_designator.below c hc
    · next hk => exact followsAt_branch ih hk (by omega)
    · next hk => exact followsAt_loop ih hk (by omega)
    · next hk => exact followsAt_leave hk
    · exact followsAt_unexpected_bind _ _ _ exists_statement

theorem follows_body :
    body.Follows n fun w ss =>
      (∃ l v, w = ⟨.kwBegin, l⟩ :: v ∧ Derives .sequence v ss) ∨ w = [] ∧ ss = [] := by
  refine (follows_accept (by decide)).bind fun w found hfound => ?_
  rcases hfound with ⟨rfl, l, rfl⟩ | ⟨rfl, rfl⟩
  · exact (follows_sequence follows_statement (by decide)).imp fun v ss hv =>
      .inl ⟨l, v, rfl, hv⟩
  · exact Parser.follows_pure (.inr ⟨rfl, rfl⟩)

end ModSyntax.Rule
