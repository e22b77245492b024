import ModSyntax.Parse.Equations
import ModSyntax.Proofs.Simulation.Basic
import ModSyntax.TokenParser.Expr

/-!
# Simulation of the rules for expressions

A loop is followed round by round (`simulatesRule_chain`). What the readers between factors and
expressions do on `n` symbols follows from what the reader of factors does there, and a factor calls
them only behind a token that it has taken (`simulatesRule_factorOf`).
-/

namespace ModSyntax.TokenParser

variable {ts : List Token} {α β ω : Type} {n : Nat} {s : State} {c : Cursor}

/-! ## Loops -/

/-- A loop that tests for a round, and keeps `keep` of it, simulates a chain of rounds. -/
theorem simulatesRule_chain {op : Parser (Option ω)} (hop : op.Takes)
    {test : TokenParser (Option ω)} (htest : ∀ n, Simulates ts n test op) {item : TokenRule α}
    {q : Rule α} (hitem : SimulatesRule ts n item q) {keep : ω × α → β}
    {step : TokenRule (List β) → TokenRule (List β)}
    (hstep : ∀ more, (step more).run = test >>= fun op? => op?.elim (pure (some [])) fun o =>
      (do return keep (o, ← item) :: (← more) : TokenRule (List β)).run) :
    SimulatesRule ts n (fixRule step) (List.map keep <$> Rule.chain op q) := by
  refine simulatesRule_fix fun i hi more hmore s c hat hlt => ?_
  rw [hstep, Rule.chain_eq hop, Rule.chainStep, map_bind, attempt_lift_bind]
  refine (htest _ s c hat hlt).bind ?_
  cases hv : (op.run c).value with
  | none =>
    have hnil : List.map keep <$> (pure [] : Rule (List (ω × α))) = pure [] := map_pure _ _
    rw [hnil]
    exact simulates_pure (some []) _ _ (hat.after op) (Nat.lt_succ_self _)
  | some o =>
    have hshort := hop c (by simp [hv])
    have hround : List.map keep <$>
        (do return (o, ← q) :: (← Rule.chain op q) : Rule (List (ω × α))) =
          do return keep (o, ← q) :: (← List.map keep <$> Rule.chain op q) := by
      simp
    have hrest : SimulatesRule ts i (do return keep (o, ← item) :: (← more))
        (do return keep (o, ← q) :: (← List.map keep <$> Rule.chain op q)) :=
      (hitem.mono (Nat.le_of_lt hi)).bind fun _ => hmore.bind fun _ => simulatesRule_pure _
    rw [hround]
    exact hrest _ _ (hat.after op) (by omega)

/-- Takes the next token if its kind stands for an operator. -/
def tryOperator (ofKind? : Kind → Option ω) : TokenParser (Option ω) := do
  match ofKind? (← kind) with
  | some op =>
    discard advance
    return some op
  | none => return none

theorem simulates_tryOperator (ofKind? : Kind → Option ω) :
    Simulates ts n (tryOperator ofKind?) (Parser.operator ofKind?) := by
  refine simulates_kind.bind fun k => ?_
  cases ofKind? k with
  | none => exact simulates_pure none
  | some op => exact simulates_advance.bind fun _ => simulates_pure (some op)

/-- To look whether an operator is next, and then to take it, is to try for it. -/
theorem SimulatesRule.operator_bind {ofKind? : Kind → Option ω} {f : Kind → TokenRule β}
    {g : Option ω → Rule β} (hnone : ∀ k, ofKind? k = none → SimulatesRule ts n (f k) (g none))
    (hsome : ∀ k op, ofKind? k = some op →
      SimulatesRule ts n (f k) (liftM Parser.skip >>= fun _ => g (some op))) :
    SimulatesRule ts n (liftM kind >>= f) (liftM (Parser.operator ofKind?) >>= g) := by
  rw [SimulatesRule, run_lift_bind, attempt_lift_bind, Parser.operator, bind_assoc]
  refine simulates_kind.bind fun k => ?_
  cases hk : ofKind? k with
  | none => simpa [SimulatesRule] using hnone k hk
  | some op => simpa [SimulatesRule] using hsome k op hk

theorem simulatesRule_moreOperands {ofKind? : Kind → Option ω} (heof : ofKind? .eof = none)
    {item : TokenRule α} {q : Rule α} (hitem : SimulatesRule ts n item q) :
    SimulatesRule ts n (moreOperands ofKind? item) (Rule.chain (Parser.operator ofKind?) q) := by
  have hchain : SimulatesRule ts n (moreOperands ofKind? item)
      (List.map id <$> Rule.chain (Parser.operator ofKind?) q) := by
    refine simulatesRule_chain (Parser.takes_operator heof) (fun _ => simulates_tryOperator ofKind?)
      hitem fun more => ?_
    simp only [tryOperator, run_lift_bind, bind_assoc]
    refine bind_congr fun k => ?_
    cases ofKind? k <;> simp [Option.elimM]
  rwa [List.map_id_fun, id_map] at hchain

theorem simulatesRule_commaList {item : TokenRule α} {q : Rule α}
    (hitem : SimulatesRule ts n item q) :
    SimulatesRule ts n (do return (← item) :: (← moreItems item)) (Rule.commaList q) := by
  let comma? (k : Kind) : Option Unit := if k = .comma then some () else none
  have hchain : SimulatesRule ts n (moreItems item)
      (List.map Prod.snd <$> Rule.chain (Parser.operator comma?) q) := by
    refine simulatesRule_chain (Parser.takes_operator rfl) (fun _ => simulates_tryOperator comma?)
      hitem fun more => ?_
    simp only [tryOperator, eat, run_lift_bind, bind_assoc]
    refine bind_congr fun k => ?_
    by_cases hk : k = .comma <;> simp [comma?, hk]
  have hlist : Rule.commaList q = do
      return (← q) :: (← List.map Prod.snd <$> Rule.chain (Parser.operator comma?) q) := by
    simp [Rule.commaList, comma?]
  rw [hlist]
  exact hitem.bind fun _ => hchain.bind fun _ => simulatesRule_pure _

/-! ## Names -/

/-- The token behind the next one shows the symbol there, unless the next one is an end of input:
tokens may follow that, but no symbols. -/
theorem State.At.run_peekKind (h : s.At ts c) (hc : c.kind ≠ .eof) :
    (peekKind 1).run s = some (c.secondKind, s) := by
  obtain ⟨_ | ⟨symbol, rest⟩, index⟩ := c
  · exact absurd rfl hc
  · obtain ⟨t, hget, hkind, -⟩ := (h.after Parser.skip).reaches.token
    have hsecond : Cursor.secondKind ⟨symbol :: rest, index⟩ = t.kind := by
      rw [hkind]
      cases rest <;> rfl
    change (terminated ts)[index + 1]? = some t at hget
    have hpos : s.pos = index := h.pos
    simp [peekKind, TokenParser.index, h.tokens, hpos, hget, hsecond]

/-- Takes a dot that an identifier follows. -/
def tryDot : TokenParser (Option Unit) := do
  if (← kind) = .period ∧ (← peekKind 1) = .identifier then
    discard advance
    return some ()
  else
    return none

theorem simulates_tryDot : Simulates ts n tryDot Rule.dot := by
  intro s c hat hlt
  rw [SimulatesAt, tryDot, hat.run_kind_bind, Rule.dot, Parser.run_kind_bind]
  by_cases hc : c.kind = .period
  · have hpeek := hat.run_peekKind (by simp [hc])
    have hadvance := simulates_advance s c hat hlt
    unfold SimulatesAt at hadvance
    by_cases hsecond : c.secondKind = .identifier
    · simp [hc, hpeek, hsecond, hadvance, State.after]
    · simp [hc, hpeek, hsecond, hat.after_stay]
  · simp [hc, peekKind, index, hat.after_stay]

theorem simulatesRule_qualifiedName (rule : Construct) :
    SimulatesRule ts n (qualifiedName rule) (Rule.qualifiedName rule) := by
  have hchain : SimulatesRule ts n (moreSegments rule)
      (List.map Prod.snd <$> Rule.chain Rule.dot (Rule.identifier rule)) := by
    refine simulatesRule_chain Rule.takes_dot (fun _ => simulates_tryDot)
      (simulatesRule_identifier rule) fun more => ?_
    simp only [tryDot, run_lift_bind, bind_assoc]
    refine bind_congr fun k => bind_congr fun k' => ?_
    by_cases hk : k = .period ∧ k' = .identifier <;> simp [hk, Option.elimM]
  have hname : Rule.qualifiedName rule = do
      return ⟨(← Rule.identifier rule) ::
        (← List.map Prod.snd <$> Rule.chain Rule.dot (Rule.identifier rule))⟩ := by
    simp [Rule.qualifiedName]
  rw [hname]
  exact (simulatesRule_identifier rule).bind fun _ => hchain.bind fun _ => simulatesRule_pure _

theorem simulatesRule_identifierList (rule : Construct) :
    SimulatesRule ts n (identifierList rule) (Rule.identifierList rule) :=
  simulatesRule_commaList (simulatesRule_identifier rule)

/-! ## Factors -/

/-- A literal is taken before it is looked at; what is reported of it is said where it stands. -/
theorem State.At.simulates_literal (h : s.At ts c) (hc : c.kind = .integer) :
    SimulatesAt ts literal.run Rule.literal.attempt s c := by
  obtain ⟨t, hadvance, ht⟩ := h.run_advance
  have hlexeme : t.lexeme = c.lexeme := ht.lexeme (by simp [ht.kind, hc])
  have hd := ht.diagnostic (.outOfRange c.lexeme)
  simp only [SimulatesAt, literal, run_lift_bind]
  cases hvalue : literalValue? c.lexeme <;>
    simp [Rule.literal, index, hadvance, hlexeme, hvalue, State.after, Log.record, hd, h.pos,
      Report.problem]

section

variable {factor : TokenRule Factor} (h : SimulatesRule ts n factor Rule.factor)
include h

theorem simulatesRule_termOf : SimulatesRule ts n (termOf factor) (Rule.termOf Rule.factor) :=
  h.bind fun _ => (simulatesRule_moreOperands (by decide) h).bind fun _ => simulatesRule_pure _

theorem simulatesRule_simpleExprOf :
    SimulatesRule ts n (simpleExprOf factor) (Rule.simpleExprOf Rule.factor) := by
  have hterm := simulatesRule_termOf h
  have hterms (sign : Option Sign) :
      SimulatesRule ts n
        (do return ⟨sign, ← termOf factor, ← moreOperands AddOp.ofKind? (termOf factor)⟩ :
          TokenRule SimpleExpr)
        (do return ⟨sign, ← Rule.termOf Rule.factor,
          ← Rule.chain (Parser.operator AddOp.ofKind?) (Rule.termOf Rule.factor)⟩) :=
    hterm.bind fun _ => (simulatesRule_moreOperands (by decide) hterm).bind fun _ =>
      simulatesRule_pure _
  refine SimulatesRule.operator_bind (fun k hk => ?_) fun k sign hk => ?_
  · simpa [hk] using hterms none
  · simpa [hk] using simulatesRule_advance.bind fun _ => hterms (some sign)

theorem simulatesRule_exprOf : SimulatesRule ts n (exprOf factor) (Rule.exprOf Rule.factor) := by
  have hsimple := simulatesRule_simpleExprOf h
  refine hsimple.bind fun left => SimulatesRule.operator_bind (fun k hk => ?_) fun k op hk => ?_
  · rw [hk]
    exact simulatesRule_pure _
  · rw [hk]
    exact simulatesRule_advance.bind fun _ => hsimple.bind fun _ =>
      SimulatesRule.bind (.lift simulates_kind) fun _ =>
        .ite (fun _ => simulatesRule_unexpected _ _) fun _ => simulatesRule_pure _

theorem simulatesRule_exprListOf :
    SimulatesRule ts n (exprListOf factor) (Rule.exprListOf Rule.factor) :=
  SimulatesRule.bind (.lift simulates_kind) fun _ =>
    .ite (fun _ => simulatesRule_commaList (simulatesRule_exprOf h)) fun _ => simulatesRule_pure _

theorem simulatesRule_argumentsOf (rule : Construct) :
    SimulatesRule ts n (argumentsOf factor rule) (Rule.argumentsOf Rule.factor rule) :=
  simulatesRule_advance.bind fun _ => (simulatesRule_exprListOf h).bind fun _ =>
    (simulatesRule_discard_expect (by decide) rule).bind fun _ => simulatesRule_pure _

/-- A factor takes a token before it reads the factors inside it. -/
theorem simulatesRule_factorOf : SimulatesRule ts (n + 1) (factorOf factor) Rule.factor := by
  intro s c hat hlt
  rw [factorOf, Rule.factor_eq, Rule.factorOf]
  refine .rule_kind_bind hat ?_
  -- Each of the readers has a match of its own on the kind; a kind that is known opens both.
  by_cases hinteger : c.kind = .integer
  · simp only [hinteger]
    exact hat.simulates_literal hinteger
  by_cases hparen : c.kind = .lparen
  · simp only [hparen]
    refine SimulatesRule.advance_bind ?_ hat hlt (by simp [hparen])
    exact (simulatesRule_exprOf h).bind fun _ =>
      (simulatesRule_discard_expect (by decide) _).bind fun _ => simulatesRule_pure _
  by_cases hnot : c.kind = .kwNot
  · simp only [hnot]
    refine SimulatesRule.advance_bind ?_ hat hlt (by simp [hnot])
    exact h.bind fun _ => simulatesRule_pure _
  by_cases hname : c.kind = .identifier
  · simp only [hname]
    refine (simulatesRule_qualifiedName _ s c hat hlt).bind_takes (Rule.takes_qualifiedName _) hat
      hlt fun target => ?_
    exact SimulatesRule.bind (.lift simulates_kind) fun _ => .ite
      (fun _ => (simulatesRule_argumentsOf h _).bind fun _ => simulatesRule_pure _)
      fun _ => simulatesRule_pure _
  simp only
  exact simulatesRule_unexpected _ _ s c hat hlt

end

theorem simulatesRule_factor : SimulatesRule ts n factor Rule.factor :=
  simulatesRule_fix fun _ _ _ h => simulatesRule_factorOf h

theorem simulatesRule_expr : SimulatesRule ts n expr Rule.expr :=
  simulatesRule_exprOf simulatesRule_factor

theorem simulatesRule_arguments (rule : Construct) :
    SimulatesRule ts n (arguments rule) (Rule.arguments rule) :=
  simulatesRule_argumentsOf simulatesRule_factor rule

end ModSyntax.TokenParser
