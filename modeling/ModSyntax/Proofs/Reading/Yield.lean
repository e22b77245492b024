import ModSyntax.Parse.Module
import ModSyntax.Parse.Progress
import ModSyntax.Proofs.Scan.Written
import ModSyntax.Proofs.Tree.Parts

/-!
# What parsing a text can give

Whatever is wrong with a text, the trees that are made of it have proper parts: names are
identifiers, literals have no sign, and no list of names is empty. Only the two names of the module
may be missing (`yields_compilationUnit`).

`Parser.Yields` is the invariant. It holds of what is parsed from written symbols, goes through
every way to put parsers together, and so holds of a parser that calls itself if its step keeps it.
-/

namespace ModSyntax

/-! ## Symbols at a cursor -/

theorem Cursor.written (c : Cursor) (hc : ∀ s ∈ c.rest, s.Written) (hk : c.kind ≠ .eof) :
    Symbol.Written ⟨c.kind, c.lexeme⟩ := by
  obtain ⟨rest, index⟩ := c
  cases rest with
  | nil => exact absurd rfl hk
  | cons s rest => exact hc s (.head rest)

/-- Digits without a sign stand for no negative value. -/
theorem Symbol.Written.literal_nonneg {l : String} {value : Int64} (h : Written ⟨.integer, l⟩)
    (hv : literalValue? l = some value) : 0 ≤ value.toInt := by
  rw [literalValue?_of_digits h.isDigit] at hv
  obtain ⟨n, -, hn⟩ := Option.bind_eq_some_iff.1 hv
  rw [toInt_of_inInt64? hn]
  exact Int.natCast_nonneg n

/-! ## The invariant -/

namespace Parser

variable {α β : Type} {P : α → Prop} {Q : β → Prop}

/-- From written symbols, the parser gives only values with the property. -/
def Yields (p : Parser α) (P : α → Prop) : Prop :=
  ∀ c : Cursor, (∀ s ∈ c.rest, s.Written) → P (p.run c).value

theorem yields_any (p : Parser α) : p.Yields fun _ => True := fun _ _ => trivial

theorem yields_pure {a : α} (h : P a) : (pure a : Parser α).Yields P := fun _ _ => h

theorem Yields.bind {p : Parser α} {f : α → Parser β} (hp : p.Yields P)
    (hf : ∀ a, P a → (f a).Yields Q) : (p >>= f).Yields Q := by
  intro c hc
  obtain ⟨passed, hrest, -⟩ := p.forward c
  exact hf _ (hp c hc) _ fun s hs => hc s (by rw [hrest]; exact List.mem_append_right passed hs)

/-- The value of the first parser does not matter. -/
theorem yields_bind {p : Parser α} {f : α → Parser β} (hf : ∀ a, (f a).Yields Q) :
    (p >>= f).Yields Q := p.yields_any.bind fun a _ => hf a

theorem Yields.fix {idle : α} {step : Parser α → Parser α} (base : P idle)
    (next : ∀ p : Parser α, p.Yields P → (step p).Yields P) : (fix idle step).Yields P :=
  fix_induction (P := fun c o => (∀ s ∈ c.rest, s.Written) → P o.value) (fun _ _ => base) next

end Parser

namespace Rule

open ModSyntax.Parser

variable {α β ω : Type} {P : α → Prop} {Q : β → Prop}

/-- From written symbols, the rule gives only values with the property. -/
def Yields (r : Rule α) (P : α → Prop) : Prop := r.attempt.Yields fun a? => ∀ a ∈ a?, P a

theorem yields_any (r : Rule α) : r.Yields fun _ => True := fun _ _ _ _ => trivial

theorem yields_pure {a : α} (h : P a) : (pure a : Rule α).Yields P :=
  Parser.yields_pure fun _ ha => Option.some.inj ha ▸ h

theorem yields_fail : (fail : Rule α).Yields P := Parser.yields_pure fun _ ha => nomatch ha

theorem yields_lift {p : Parser α} (h : p.Yields P) : (liftM p : Rule α).Yields P :=
  fun c hc _ ha => Option.some.inj ha ▸ h c hc

theorem Yields.bind {r : Rule α} {f : α → Rule β} (hr : r.Yields P)
    (hf : ∀ a, P a → (f a).Yields Q) : (r >>= f).Yields Q := by
  refine Parser.Yields.bind hr fun a? ha => ?_
  cases a? with
  | none => exact Parser.yields_pure fun _ hb => nomatch hb
  | some a => exact hf a (ha a rfl)

/-- The value of the first rule does not matter. -/
theorem yields_bind {r : Rule α} {f : α → Rule β} (hf : ∀ a, (f a).Yields Q) :
    (r >>= f).Yields Q := r.yields_any.bind fun a _ => hf a

theorem Yields.bind_pure {r : Rule α} {f : α → β} (hr : r.Yields P) (hf : ∀ a, P a → Q (f a)) :
    (r >>= fun a => pure (f a)).Yields Q := hr.bind fun a ha => yields_pure (hf a ha)

theorem Yields.fix {step : Rule α → Rule α} (next : ∀ r : Rule α, r.Yields P → (step r).Yields P) :
    (fix step).Yields P :=
  Parser.Yields.fix (fun _ ha => nomatch ha) fun p hp => next ⟨p⟩ hp

theorem yields_orSkipUntil {r : Rule α} (hr : r.Yields P) (kinds : List Kind) :
    (r.orSkipUntil kinds).Yields fun a? => ∀ a ∈ a?, P a := by
  refine Parser.Yields.bind hr fun a? ha => ?_
  cases a? with
  | none => exact Parser.yields_bind fun _ => Parser.yields_pure fun _ h => nomatch h
  | some a => exact Parser.yields_pure ha

theorem yields_after? {r : Rule α} (hr : r.Yields P) (k : Kind) :
    (after? k r).Yields fun a? => ∀ a ∈ a?, P a := by
  refine yields_bind fun found => ?_
  split
  · exact hr.bind_pure fun a ha b hb => Option.some.inj hb ▸ ha
  · exact yields_pure fun _ h => nomatch h

/-- A chain keeps what holds of no items and goes on with one more. -/
theorem yields_chain {op : Parser (Option ω)} {item : Rule α} {R : List (ω × α) → Prop}
    (hitem : item.Yields P) (hnil : R []) (hcons : ∀ o a as, P a → R as → R ((o, a) :: as)) :
    (chain op item).Yields R := by
  refine .fix fun more hmore => yields_bind fun o? => ?_
  cases o? with
  | none => exact yields_pure hnil
  | some o => exact hitem.bind fun a ha => hmore.bind_pure fun as has => hcons o a as ha has

theorem yields_commaList {item : Rule α} {R : List α → Prop} (hitem : item.Yields P)
    (hnil : R []) (hcons : ∀ a as, P a → R as → R (a :: as)) :
    (commaList item).Yields fun as => as ≠ [] ∧ R as := by
  have hmore : (chain (operator fun k => if k = .comma then some () else none) item).Yields
      fun as => R (as.map Prod.snd) :=
    yields_chain hitem hnil fun _ a as ha has => hcons a (as.map Prod.snd) ha has
  exact hitem.bind fun a ha => hmore.bind_pure fun as has =>
    ⟨List.cons_ne_nil _ _, hcons a _ ha has⟩

/-! ## Names and literals -/

theorem yields_identifier (rule : Construct) :
    (identifier rule).Yields fun n => isIdentifier n = true := by
  intro c hc n hn
  by_cases hk : c.kind = .identifier
  · have hwritten := c.written hc (by simp [hk])
    rw [hk] at hwritten
    obtain rfl : c.lexeme = n := by simpa [identifier, expect, hk] using hn
    exact hwritten.isIdentifier
  · simp [identifier, expect, hk] at hn

theorem yields_qualifiedName (rule : Construct) :
    (qualifiedName rule).Yields fun q => ∀ p ∈ q.parts, p.Proper := by
  have hmore : (chain dot (identifier rule)).Yields
      fun ns => ∀ p ∈ (ns.map Prod.snd).map Part.name, p.Proper :=
    yields_chain (yields_identifier rule) (by simp) fun _ n ns hn hns =>
      List.forall_mem_cons.2 ⟨hn, hns⟩
  exact (yields_identifier rule).bind fun n hn => hmore.bind_pure fun ns hns =>
    List.forall_mem_cons.2 ⟨hn, hns⟩

theorem yields_identifierList (rule : Construct) :
    (identifierList rule).Yields fun ns => ∀ p ∈ nameParts ns, p.Proper := by
  intro c hc ns hns
  have hlist := yields_commaList (yields_identifier rule)
    (R := fun ns => ∀ p ∈ ns.map Part.name, p.Proper) (by simp) fun n ns hn hns =>
      List.forall_mem_cons.2 ⟨hn, hns⟩
  exact List.forall_mem_cons.2 (hlist c hc ns hns)

theorem literal_proper {c : Cursor} (hc : ∀ s ∈ c.rest, s.Written) (hk : c.kind = .integer) :
    ∀ f ∈ (literal.attempt.run c).value, ∀ p ∈ f.parts, p.Proper := by
  intro f hf
  have hwritten := c.written hc (by simp [hk])
  rw [hk] at hwritten
  cases hv : literalValue? c.lexeme with
  | none => simp [literal, hv] at hf
  | some value =>
    obtain rfl : Factor.int value = f := by simpa [literal, hv] using hf
    simpa [Factor.parts, Part.Proper] using hwritten.literal_nonneg hv

/-! ## Expressions -/

section

-- The rules above factors keep what factors keep.
variable {r : Rule Factor} (h : r.Yields fun f => ∀ p ∈ f.parts, p.Proper)

include h

theorem yields_termOf : (termOf r).Yields fun t => ∀ p ∈ t.parts, p.Proper := by
  have hmore : (chain (operator MulOp.ofKind?) r).Yields
      fun fs => ∀ p ∈ Factor.partsTail fs, p.Proper :=
    yields_chain h (by simp [Factor.partsTail]) fun _ f fs hf hfs =>
      List.forall_mem_append.2 ⟨hf, hfs⟩
  exact h.bind fun f hf => hmore.bind_pure fun fs hfs => List.forall_mem_append.2 ⟨hf, hfs⟩

theorem yields_simpleExprOf : (simpleExprOf r).Yields fun e => ∀ p ∈ e.parts, p.Proper := by
  have hterm := yields_termOf h
  have hmore : (chain (operator AddOp.ofKind?) (termOf r)).Yields
      fun ts => ∀ p ∈ Term.partsTail ts, p.Proper :=
    yields_chain hterm (by simp [Term.partsTail]) fun _ t ts ht hts =>
      List.forall_mem_append.2 ⟨ht, hts⟩
  exact yields_bind fun _ => hterm.bind fun t ht => hmore.bind_pure fun ts hts =>
    List.forall_mem_append.2 ⟨ht, hts⟩

theorem yields_exprOf : (exprOf r).Yields fun e => ∀ p ∈ e.parts, p.Proper := by
  have hsimple := yields_simpleExprOf h
  refine hsimple.bind fun left hleft => yields_bind fun op? => ?_
  cases op? with
  | none => exact yields_pure hleft
  | some op =>
    refine hsimple.bind fun right hright => yields_bind fun k => ?_
    split
    · exact yields_bind fun _ => yields_fail
    · exact yields_pure (List.forall_mem_append.2 ⟨hleft, hright⟩)

theorem yields_argumentsOf (rule : Construct) :
    (argumentsOf r rule).Yields fun es => ∀ p ∈ Expr.partsList es, p.Proper := by
  have hlist := yields_commaList (yields_exprOf h)
    (R := fun es => ∀ p ∈ Expr.partsList es, p.Proper) (by simp [Expr.partsList])
    fun e es he hes => List.forall_mem_append.2 ⟨he, hes⟩
  have hargs : (exprListOf r).Yields fun es => ∀ p ∈ Expr.partsList es, p.Proper := by
    refine yields_bind fun k => ?_
    split
    · exact fun c hc es hes => (hlist c hc es hes).2
    · exact yields_pure (by simp [Expr.partsList])
  exact yields_bind fun _ => hargs.bind fun es hes => yields_bind fun _ => yields_pure hes

theorem yields_factorOf : (factorOf r).Yields fun f => ∀ p ∈ f.parts, p.Proper := by
  intro c hc
  rw [factorOf, attempt_kind_bind]
  split
  · next hk => exact literal_proper hc hk
  · refine Yields.bind (yields_any _) (fun _ _ => ?_) c hc
    exact (yields_exprOf h).bind fun e he => yields_bind fun _ => yields_pure he
  · exact Yields.bind (yields_any _) (fun _ _ => h.bind_pure fun f hf => hf) c hc
  · refine (yields_qualifiedName .factor).bind (fun q hq => yields_bind fun k => ?_) c hc
    split
    · exact (yields_argumentsOf h .factor).bind_pure fun es hes =>
        List.forall_mem_append.2 ⟨hq, hes⟩
    · exact yields_pure hq
  · exact Yields.bind (yields_any _) (fun _ _ => yields_fail) c hc

end

theorem yields_factor : factor.Yields fun f => ∀ p ∈ f.parts, p.Proper :=
  .fix fun _ h => yields_factorOf h

theorem yields_expr : expr.Yields fun e => ∀ p ∈ e.parts, p.Proper := yields_exprOf yields_factor

/-! ## Statements -/

theorem yields_condition (keyword : Kind) (rule : Construct) :
    (condition keyword rule).Yields fun e? => ∀ e ∈ e?, ∀ p ∈ e.parts, p.Proper :=
  (yields_orSkipUntil yields_expr _).bind fun _ he =>
    Parser.yields_bind fun _ => Parser.yields_pure he

theorem yields_designator : designator.Yields fun s => ∀ p ∈ s.parts, p.Proper := by
  refine (yields_qualifiedName .statement).bind fun q hq => yields_bind fun k => ?_
  split
  · exact yields_bind fun _ => yields_expr.bind_pure fun e he => List.forall_mem_append.2 ⟨hq, he⟩
  · exact (yields_argumentsOf yields_factor .statement).bind_pure fun es hes =>
      List.forall_mem_append.2 ⟨hq, hes⟩
  · exact yields_pure hq

theorem yields_leave : leave.Yields fun s => ∀ p ∈ s.parts, p.Proper := by
  refine yields_bind fun _ => yields_bind fun k => ?_
  split
  · exact yields_expr.bind_pure fun e he => he
  · exact yields_pure (by simp [Statement.parts])

section

variable {r : Rule Statement} (h : r.Yields fun s => ∀ p ∈ s.parts, p.Proper)

include h

theorem yields_sequenceOf (closers : List Kind) :
    (sequenceOf r closers).Yields fun ss => ∀ p ∈ Statement.partsList ss, p.Proper := by
  refine .fix (by simp [Statement.partsList]) fun more hmore => ?_
  refine (yields_orSkipUntil h _).bind fun s? hs => Parser.yields_bind fun goesOn => ?_
  have hfound : ∀ ss, (∀ p ∈ Statement.partsList ss, p.Proper) →
      ∀ p ∈ Statement.partsList (s?.toList ++ ss), p.Proper := by
    intro ss hss
    cases s? with
    | none => exact hss
    | some s => exact List.forall_mem_append.2 ⟨hs s rfl, hss⟩
  split
  · exact hmore.bind fun ss hss => Parser.yields_pure (hfound ss hss)
  · exact Parser.yields_pure (by simpa using hfound [] (by simp [Statement.partsList]))

theorem yields_branchOf : (branchOf r).Yields fun s => ∀ p ∈ s.parts, p.Proper := by
  refine yields_bind fun _ => (yields_lift (yields_condition _ _)).bind fun cond? hcond => ?_
  refine (yields_lift (yields_sequenceOf h _)).bind fun ss hss => ?_
  refine (yields_after? (yields_lift (yields_sequenceOf h _)) _).bind fun ts? hts => ?_
  refine yields_bind fun _ => ?_
  cases cond? with
  | none => exact yields_fail
  | some cond =>
    refine yields_pure ?_
    cases ts? with
    | none => exact List.forall_mem_append.2 ⟨hcond cond rfl, hss⟩
    | some ts =>
      exact List.forall_mem_append.2
        ⟨hcond cond rfl, List.forall_mem_append.2 ⟨hss, hts ts rfl⟩⟩

theorem yields_loopOf : (loopOf r).Yields fun s => ∀ p ∈ s.parts, p.Proper := by
  refine yields_bind fun _ => (yields_lift (yields_condition _ _)).bind fun cond? hcond => ?_
  refine (yields_lift (yields_sequenceOf h _)).bind fun ss hss => yields_bind fun _ => ?_
  cases cond? with
  | none => exact yields_fail
  | some cond => exact yields_pure (List.forall_mem_append.2 ⟨hcond cond rfl, hss⟩)

theorem yields_statementOf : (statementOf r).Yields fun s => ∀ p ∈ s.parts, p.Proper := by
  refine yields_bind fun k => ?_
  split
  · exact yields_designator
  · exact yields_branchOf h
  · exact yields_loopOf h
  · exact yields_leave
  · exact yields_bind fun _ => yields_fail

end

theorem yields_statement : statement.Yields fun s => ∀ p ∈ s.parts, p.Proper :=
  .fix fun _ h => yields_statementOf h

theorem yields_sequence (closers : List Kind) :
    (sequence closers).Yields fun ss => ∀ p ∈ Statement.partsList ss, p.Proper :=
  yields_sequenceOf yields_statement closers

/-! ## Declarations and blocks -/

theorem yields_constant : constant.Yields fun d => ∀ p ∈ d.parts, p.Proper :=
  (yields_identifier .constant).bind fun _ hn => yields_bind fun _ =>
    yields_expr.bind_pure fun _ he => List.forall_mem_cons.2 ⟨hn, he⟩

theorem yields_vars : vars.Yields fun d => ∀ p ∈ d.parts, p.Proper :=
  (yields_identifierList .vars).bind fun _ hns => yields_bind fun _ =>
    (yields_qualifiedName .vars).bind_pure fun _ hq => List.forall_mem_append.2 ⟨hns, hq⟩

theorem yields_entries (rule : Construct) {entry : Rule Declaration}
    (h : entry.Yields fun d => ∀ p ∈ d.parts, p.Proper) :
    (entries rule entry).Yields fun ds => ∀ p ∈ Declaration.partsList ds, p.Proper := by
  refine .fix (by simp [Declaration.partsList]) fun more hmore => Parser.yields_bind fun k => ?_
  split
  · refine Parser.Yields.bind h fun d? hd => ?_
    cases d? with
    | none => exact Parser.yields_bind fun _ => hmore
    | some d =>
      exact Parser.yields_bind fun _ => hmore.bind fun ds hds =>
        Parser.yields_pure (List.forall_mem_append.2 ⟨hd d rfl, hds⟩)
  · exact Parser.yields_pure (by simp [Declaration.partsList])

theorem yields_parameter : parameter.Yields fun p => ∀ q ∈ p.parts, q.Proper :=
  yields_bind fun _ => (yields_identifierList .parameter).bind fun _ hns => yields_bind fun _ =>
    (yields_qualifiedName .parameter).bind_pure fun _ hq => List.forall_mem_append.2 ⟨hns, hq⟩

theorem yields_parameterList :
    parameterList.Yields fun ps? => ∀ ps ∈ ps?, ∀ q ∈ ps.flatMap Parameter.parts, q.Proper := by
  refine .fix (fun _ h => nomatch h) fun more hmore => ?_
  refine (yields_orSkipUntil yields_parameter _).bind fun p? hp =>
    Parser.yields_bind fun goesOn => ?_
  split
  · refine hmore.bind fun ps? hps => Parser.yields_pure fun qs hqs => ?_
    obtain ⟨p, rfl, hqs⟩ := Option.bind_eq_some_iff.1 hqs
    obtain ⟨ps, rfl, rfl⟩ := Option.map_eq_some_iff.1 hqs
    exact List.forall_mem_append.2 ⟨hp p rfl, hps ps rfl⟩
  · refine Parser.yields_pure fun qs hqs => ?_
    obtain ⟨p, rfl, rfl⟩ := Option.map_eq_some_iff.1 hqs
    simpa using hp p rfl

theorem yields_orLeave {α : Type} {P : α → Prop} {r : Rule α} (h : r.Yields P) :
    (parameters.orLeave r).Yields P := by
  refine (yields_lift h).bind fun a? ha => ?_
  cases a? with
  | none => exact yields_bind fun _ => yields_fail
  | some a => exact yields_pure (ha a rfl)

theorem yields_parameters : parameters.Yields fun p => ∀ q ∈ p.parts, q.Proper := by
  have hitems : parameterItems.Yields
      fun ps? => ∀ ps ∈ ps?, ∀ q ∈ ps.flatMap Parameter.parts, q.Proper := by
    refine Parser.yields_bind fun k => ?_
    split
    · exact yields_parameterList
    · exact Parser.yields_pure fun ps hps => by simp [← Option.some.inj hps]
  refine yields_bind fun _ => (yields_lift hitems).bind fun ps? hps => yields_bind fun _ => ?_
  refine (yields_after? (yields_orLeave (yields_qualifiedName _)) _).bind fun q? hq => ?_
  cases ps? with
  | none => exact yields_fail
  | some ps =>
    refine yields_pure (List.forall_mem_append.2 ⟨hps ps rfl, ?_⟩)
    cases q? with
    | none => simp
    | some q => exact hq q rfl

theorem yields_parameters? :
    parameters?.Yields fun p? => ∀ q ∈ (p?.map Parameters.parts).getD [], q.Proper := by
  refine yields_bind fun k => ?_
  split
  · exact yields_parameters.bind_pure fun p hp => hp
  · exact yields_pure (by simp)

theorem yields_procedureOf {block : Parser Block}
    (h : block.Yields fun b => ∀ p ∈ b.parts, p.Proper) :
    (procedureOf block).Yields fun d => ∀ p ∈ d.parts, p.Proper := by
  refine yields_bind fun _ => (yields_lift (yields_identifier _)).bind fun n? hn => ?_
  refine (yields_lift yields_parameters?).bind fun ps? hps => yields_bind fun _ => ?_
  refine (yields_lift h).bind fun b hb => (yields_lift (yields_identifier _)).bind fun m? hm => ?_
  split
  · next n ps m =>
    have hm : ∀ p ∈ [Part.name m], p.Proper := List.forall_mem_singleton.2 (hm m rfl)
    exact yields_pure (List.forall_mem_cons.2 ⟨hn n rfl,
      List.forall_mem_append.2 ⟨hps ps rfl, List.forall_mem_append.2 ⟨hb, hm⟩⟩⟩)
  · exact yields_fail

theorem yields_declarationsOf {block : Parser Block}
    (h : block.Yields fun b => ∀ p ∈ b.parts, p.Proper) :
    (declarationsOf block).Yields fun ds => ∀ p ∈ Declaration.partsList ds, p.Proper := by
  have happend : ∀ {ds es : List Declaration}, (∀ p ∈ Declaration.partsList ds, p.Proper) →
      (∀ p ∈ Declaration.partsList es, p.Proper) →
      ∀ p ∈ Declaration.partsList (ds ++ es), p.Proper := by
    intro ds es hds hes
    rw [Declaration.partsList_append]
    exact List.forall_mem_append.2 ⟨hds, hes⟩
  refine .fix (by simp [Declaration.partsList]) fun more hmore => Parser.yields_bind fun k => ?_
  split
  · exact Parser.yields_bind fun _ => (yields_entries _ yields_constant).bind fun ds hds =>
      hmore.bind fun es hes => Parser.yields_pure (happend hds hes)
  · exact Parser.yields_bind fun _ => (yields_entries _ yields_vars).bind fun ds hds =>
      hmore.bind fun es hes => Parser.yields_pure (happend hds hes)
  · refine Parser.Yields.bind (yields_procedureOf h) fun d? hd => Parser.yields_bind fun _ =>
      hmore.bind fun es hes => Parser.yields_pure (happend ?_ hes)
    cases d? with
    | none => simp [Declaration.partsList]
    | some d => simpa [Declaration.partsList] using hd d rfl
  · exact Parser.yields_pure (by simp [Declaration.partsList])
  · exact Parser.yields_pure (by simp [Declaration.partsList])
  · exact Parser.yields_pure (by simp [Declaration.partsList])
  · exact Parser.yields_bind fun _ => Parser.yields_bind fun _ => hmore

theorem yields_body : body.Yields fun ss => ∀ p ∈ Statement.partsList ss, p.Proper := by
  refine Parser.yields_bind fun found => ?_
  split
  · exact yields_sequence _
  · exact Parser.yields_pure (by simp [Statement.partsList])

theorem yields_block : block.Yields fun b => ∀ p ∈ b.parts, p.Proper := by
  refine .fix (by decide) fun p hp => (yields_declarationsOf hp).bind fun ds hds => ?_
  exact yields_body.bind fun ss hss => Parser.yields_bind fun _ =>
    Parser.yields_pure (List.forall_mem_append.2 ⟨hds, hss⟩)

/-! ## Modules -/

theorem yields_importNames : importNames.Yields fun i => ∀ p ∈ i.parts, p.Proper := by
  refine (yields_after? (yields_identifier _) _).bind fun m? hm => yields_bind fun _ => ?_
  refine (yields_identifierList _).bind_pure fun ns hns => List.forall_mem_append.2 ⟨hns, ?_⟩
  cases m? with
  | none => simp
  | some m => exact List.forall_mem_singleton.2 (hm m rfl)

theorem yields_imports : imports.Yields fun is => ∀ p ∈ is.flatMap Import.parts, p.Proper := by
  have hitem : importItem.Yields fun i? => ∀ i ∈ i?, ∀ p ∈ i.parts, p.Proper := by
    refine Parser.Yields.bind yields_importNames fun i? hi => ?_
    cases i? with
    | none =>
      exact Parser.yields_bind fun _ => Parser.yields_bind fun _ =>
        Parser.yields_pure fun _ h => nomatch h
    | some i => exact Parser.yields_bind fun _ => Parser.yields_pure hi
  refine .fix (by simp) fun more hmore => Parser.yields_bind fun k => ?_
  split
  · refine hitem.bind fun i? hi => hmore.bind fun is his => Parser.yields_pure ?_
    cases i? with
    | none => exact his
    | some i => exact List.forall_mem_append.2 ⟨hi i rfl, his⟩
  · exact Parser.yields_pure (by simp)

theorem yields_missingName (rule : Construct) :
    (identifier rule).attempt.Yields
      fun n? => n?.getD "" = "" ∨ isIdentifier (n?.getD "") = true := by
  intro c hc
  have hn := yields_identifier rule c hc
  cases hv : ((identifier rule).attempt.run c).value with
  | none => exact .inl rfl
  | some n => exact .inr (hn n hv)

theorem yields_heading : heading.Yields fun n => n = "" ∨ isIdentifier n = true := by
  refine Parser.yields_bind fun found => ?_
  split
  · exact (yields_missingName _).bind fun _ hn => Parser.yields_bind fun _ => Parser.yields_pure hn
  · exact Parser.yields_pure (.inl rfl)

/-- Every part of a module that is parsed from written symbols is proper, but for the names of the
module. -/
theorem yields_compilationUnit : compilationUnit.Yields Module.Salvaged :=
  yields_heading.bind fun _ hname => yields_imports.bind fun _ himports =>
    yields_block.bind fun _ hblock => (yields_missingName _).bind fun _ hend =>
      Parser.yields_bind fun _ => Parser.yields_pure ⟨hname, himports, hblock, hend⟩

end Rule

/-- The symbols of a text are written. -/
theorem written_of_mem_symbols {source : String} :
    ∀ s ∈ (TokenStream.ofTokens (tokenize source).1).symbols, s.Written := by
  intro s hs
  obtain ⟨t, ht, rfl⟩ := List.mem_map.1 hs
  have hbody := List.all_eq_true.1 List.all_takeWhile t ht
  exact written_of_mem_tokenize ((List.takeWhile_sublist _).subset ht) (by simpa using hbody)

/-- Whatever the text, its module is salvaged. -/
theorem salvaged_parseSource (source : String) : (parseSource source).1.Salvaged := by
  simp only [parseSource_eq, TokenStream.parse]
  exact Rule.yields_compilationUnit _ written_of_mem_symbols

end ModSyntax
