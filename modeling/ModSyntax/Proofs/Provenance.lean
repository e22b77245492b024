import Mathlib.Data.List.Forall2
import Mathlib.Data.List.NodupEquivFin
import ModSyntax.Parse.Module
import ModSyntax.Parse.Progress
import ModSyntax.Proofs.Tree.Leaves

/-!
# Every leaf comes from a token

Whatever is wrong with the tokens, the leaves of the tree that is made of them are made of tokens,
in their order and none twice (`parseTokens_leaves`): recovery leaves out, but it neither invents
nor repeats nor reorders.

`Parser.Gathers` is the invariant. A parser that runs behind symbols which make the leaves `before`
gives a value whose leaves are made of those symbols and of the ones it passes over. So the leaves
of a value may be put together from what several parsers read, or be dropped.
-/

namespace ModSyntax

/-- The leaves are made of some of the symbols, in the order of the symbols. -/
def Gathered (ls : List Leaf) (word : List Symbol) : Prop :=
  List.SublistForall₂ Leaf.MadeOf ls word

namespace Gathered

theorem nil (word : List Symbol) : Gathered [] word := List.SublistForall₂.nil

theorem single {l : Leaf} {s : Symbol} (h : l.MadeOf s) : Gathered [l] [s] :=
  List.SublistForall₂.cons h .nil

theorem append {ls ms : List Leaf} {word rest : List Symbol} (h : Gathered ls word)
    (k : Gathered ms rest) : Gathered (ls ++ ms) (word ++ rest) := by
  obtain ⟨used, hused, hsub⟩ := List.sublistForall₂_iff.1 h
  obtain ⟨used', hused', hsub'⟩ := List.sublistForall₂_iff.1 k
  exact List.sublistForall₂_iff.2 ⟨used ++ used', List.rel_append hused hused', hsub.append hsub'⟩

/-- Leaves may be dropped. -/
theorem sublist {ls ms : List Leaf} {word : List Symbol} (h : Gathered ls word)
    (hsub : ms.Sublist ls) : Gathered ms word := by
  induction h generalizing ms with
  | nil =>
    obtain rfl := List.sublist_nil.1 hsub
    exact .nil _
  | cons hl _ ih =>
    cases hsub with
    | cons _ hsub => exact .cons_right (ih hsub)
    | cons_cons _ hsub => exact .cons hl (ih hsub)
  | cons_right _ ih => exact .cons_right (ih hsub)

/-- More symbols may follow. -/
theorem append_right {ls : List Leaf} {word : List Symbol} (h : Gathered ls word)
    (rest : List Symbol) : Gathered ls (word ++ rest) := by
  simpa using h.append (.nil rest)

end Gathered

namespace Parser

variable {α β : Type} {before : List Leaf} {view : α → List Leaf} {view' : β → List Leaf}

/-- At the cursor, behind symbols that make the leaves `before`, the leaves of the value are made of
those symbols and of the ones that the parser passes over. -/
def GathersAt (p : Parser α) (c : Cursor) (before : List Leaf) (view : α → List Leaf) : Prop :=
  ∀ word, Gathered before word → ∃ passed, c.rest = passed ++ (p.run c).next.rest ∧
    Gathered (view (p.run c).value) (word ++ passed)

/-- `GathersAt` at every cursor. -/
def Gathers (p : Parser α) (before : List Leaf) (view : α → List Leaf) : Prop :=
  ∀ c, p.GathersAt c before view

/-- Leaves of a value that are already there need nothing of the parser. -/
theorem gathers_of_sublist {p : Parser α} (h : ∀ a, (view a).Sublist before) :
    p.Gathers before view := by
  intro c word hword
  obtain ⟨passed, hrest, -⟩ := p.forward c
  exact ⟨passed, hrest, (hword.sublist (h _)).append_right passed⟩

theorem gathers_any (p : Parser α) : p.Gathers before fun _ => before :=
  gathers_of_sublist fun _ => .refl _

theorem gathers_pure {a : α} (h : (view a).Sublist before) :
    (pure a : Parser α).Gathers before view := fun _ _ hword =>
  ⟨[], rfl, (hword.sublist h).append_right []⟩

theorem GathersAt.bind {p : Parser α} {f : α → Parser β} {c : Cursor}
    (hp : p.GathersAt c before view) (hf : ∀ a, (f a).Gathers (view a) view') :
    (p >>= f).GathersAt c before view' := by
  intro word hword
  obtain ⟨passed, hrest, hgathered⟩ := hp word hword
  obtain ⟨passed', hrest', hgathered'⟩ := hf (p.run c).value (p.run c).next _ hgathered
  exact ⟨passed ++ passed', by rw [hrest, hrest', List.append_assoc]; rfl,
    by simpa using hgathered'⟩

theorem Gathers.bind {p : Parser α} {f : α → Parser β} (hp : p.Gathers before view)
    (hf : ∀ a, (f a).Gathers (view a) view') : (p >>= f).Gathers before view' :=
  fun c => (hp c).bind hf

/-- The first parser adds nothing. -/
theorem gathers_bind {p : Parser α} {f : α → Parser β} (hf : ∀ a, (f a).Gathers before view') :
    (p >>= f).Gathers before view' := (gathers_any p).bind hf

theorem Gathers.mono {p : Parser α} {less : α → List Leaf} (h : p.Gathers before view)
    (hsub : ∀ a, (less a).Sublist (view a)) : p.Gathers before less := by
  intro c word hword
  obtain ⟨passed, hrest, hgathered⟩ := h c word hword
  exact ⟨passed, hrest, hgathered.sublist (hsub _)⟩

/-- What is gathered by itself may be gathered behind other leaves. -/
theorem GathersAt.behind {p : Parser α} {c : Cursor} (h : p.GathersAt c [] view)
    (before : List Leaf) : p.GathersAt c before fun a => before ++ view a := by
  intro word hword
  obtain ⟨passed, hrest, hgathered⟩ := h [] (.nil [])
  exact ⟨passed, hrest, hword.append hgathered⟩

theorem Gathers.behind {p : Parser α} (h : p.Gathers [] view) (before : List Leaf) :
    p.Gathers before fun a => before ++ view a := fun c => (h c).behind before

theorem Gathers.fix {idle : α} {step : Parser α → Parser α} (base : view idle = [])
    (next : ∀ p : Parser α, p.Gathers [] view → (step p).Gathers [] view) :
    (fix idle step).Gathers [] view := by
  refine fix_induction (P := fun c o => ∀ word, Gathered [] word →
    ∃ passed, c.rest = passed ++ o.next.rest ∧ Gathered (view o.value) (word ++ passed)) ?_ next
  exact fun c word hword => ⟨[], rfl, by simpa [base] using hword⟩

/-- The symbol that is passed over makes a leaf. -/
theorem gathersAt_skip {c : Cursor} {l : Leaf} (hc : c.kind ≠ .eof)
    (hl : l.MadeOf ⟨c.kind, c.lexeme⟩) : skip.GathersAt c [] fun _ => [l] := by
  intro word _
  obtain ⟨rest, index⟩ := c
  cases rest with
  | nil => exact absurd rfl hc
  | cons s rest => exact ⟨[s], rfl, (Gathered.nil word).append (.single hl)⟩

theorem gathersAt_kind_bind {f : Kind → Parser β} {c : Cursor}
    (h : (f c.kind).GathersAt c before view') : (kind >>= f).GathersAt c before view' := h

theorem gathers_operator (ofKind? : Kind → Option α) {kindOf : α → Kind}
    (hne : ofKind? .eof = none) (h : ∀ {k a}, ofKind? k = some a → kindOf a = k) :
    (operator ofKind?).Gathers [] fun a? => (a?.map fun a => [.operator (kindOf a)]).getD [] := by
  refine fun c => gathersAt_kind_bind ?_
  split
  · next a ha =>
    have hc : c.kind ≠ .eof := fun hc => by simp [hc, hne] at ha
    have hskip := gathersAt_skip (l := .operator (kindOf a)) hc (h ha).symm
    exact hskip.bind fun _ => gathers_pure (.refl _)
  · exact gathers_pure (List.nil_sublist _) c

end Parser

namespace Rule

open ModSyntax.Parser

variable {α β ω : Type} {before : List Leaf} {view : α → List Leaf} {view' : β → List Leaf}

/-- The leaves of what the rule gives are gathered; if it fails, there are none. -/
def GathersAt (r : Rule α) (c : Cursor) (before : List Leaf) (view : α → List Leaf) : Prop :=
  r.attempt.GathersAt c before fun a? => (a?.map view).getD []

def Gathers (r : Rule α) (before : List Leaf) (view : α → List Leaf) : Prop :=
  r.attempt.Gathers before fun a? => (a?.map view).getD []

theorem gathers_pure {a : α} (h : (view a).Sublist before) :
    (pure a : Rule α).Gathers before view := Parser.gathers_pure h

theorem gathers_fail : (fail : Rule α).Gathers before view :=
  Parser.gathers_pure (List.nil_sublist _)

theorem gathersAt_lift {p : Parser α} {c : Cursor} (h : p.GathersAt c before view) :
    (liftM p : Rule α).GathersAt c before view := h

theorem gathers_lift {p : Parser α} (h : p.Gathers before view) :
    (liftM p : Rule α).Gathers before view := h

theorem GathersAt.bind {r : Rule α} {f : α → Rule β} {c : Cursor} (hr : r.GathersAt c before view)
    (hf : ∀ a, (f a).Gathers (view a) view') : (r >>= f).GathersAt c before view' := by
  refine Parser.GathersAt.bind hr fun a? => ?_
  cases a? with
  | none => exact Parser.gathers_pure (.refl _)
  | some a => exact hf a

theorem Gathers.bind {r : Rule α} {f : α → Rule β} (hr : r.Gathers before view)
    (hf : ∀ a, (f a).Gathers (view a) view') : (r >>= f).Gathers before view' :=
  fun c => GathersAt.bind (hr c) hf

theorem gathers_any (r : Rule α) : r.Gathers before fun _ => before := by
  refine Parser.gathers_of_sublist fun a? => ?_
  cases a? with
  | none => exact List.nil_sublist _
  | some => exact .refl _

/-- The first rule adds nothing. -/
theorem gathers_bind {r : Rule α} {f : α → Rule β} (hf : ∀ a, (f a).Gathers before view') :
    (r >>= f).Gathers before view' := (gathers_any r).bind hf

theorem Gathers.behind {r : Rule α} (h : r.Gathers [] view) (before : List Leaf) :
    r.Gathers before fun a => before ++ view a := by
  refine (Parser.Gathers.behind h before).mono fun a? => ?_
  cases a? with
  | none => exact List.nil_sublist _
  | some => exact .refl _

theorem Gathers.bind_pure {r : Rule α} {f : α → β} (hr : r.Gathers before view)
    (hf : ∀ a, (view' (f a)).Sublist (view a)) :
    (r >>= fun a => pure (f a)).Gathers before view' := hr.bind fun a => gathers_pure (hf a)

theorem Gathers.fix {step : Rule α → Rule α}
    (next : ∀ r : Rule α, r.Gathers [] view → (step r).Gathers [] view) :
    (fix step).Gathers [] view :=
  Parser.Gathers.fix rfl fun p hp => next ⟨p⟩ hp

theorem gathersAt_look_bind {look : Cursor → α} {f : α → Rule β} {c : Cursor}
    (h : (f (look c)).GathersAt c before view') :
    (liftM (Parser.look look) >>= f : Rule β).GathersAt c before view' := h

theorem gathersAt_kind_bind {f : Kind → Rule β} {c : Cursor}
    (h : (f c.kind).GathersAt c before view') :
    (liftM kind >>= f : Rule β).GathersAt c before view' := h

theorem gathers_orSkipUntil {r : Rule α} (hr : r.Gathers before view) (kinds : List Kind) :
    (r.orSkipUntil kinds).Gathers before fun a? => (a?.map view).getD [] := by
  refine Parser.Gathers.bind hr fun a? => ?_
  cases a? with
  | none => exact Parser.gathers_bind fun _ => Parser.gathers_pure (.refl _)
  | some a => exact Parser.gathers_pure (.refl _)

theorem gathers_after? {r : Rule α} (hr : r.Gathers [] view) (k : Kind) :
    (after? k r).Gathers [] fun a? => (a?.map view).getD [] := by
  refine gathers_bind fun found => ?_
  split
  · exact hr.bind_pure fun a => .refl _
  · exact gathers_pure (.refl _)

/-- A chain gathers the leaves of its operators and items in turn. -/
theorem gathers_chain {op : Parser (Option ω)} {item : Rule α} (mark : ω → List Leaf)
    {views : List (ω × α) → List Leaf} (hop : op.Gathers [] fun o? => (o?.map mark).getD [])
    (hitem : item.Gathers [] view) (hnil : views [] = [])
    (hcons : ∀ o a as, views ((o, a) :: as) = mark o ++ (view a ++ views as)) :
    (chain op item).Gathers [] views := by
  refine .fix fun more hmore => (gathers_lift hop).bind fun o? => ?_
  cases o? with
  | none => exact gathers_pure (by simp [hnil])
  | some o =>
    refine (hitem.behind _).bind fun a => (hmore.behind _).bind_pure fun as => ?_
    simp [hcons]

theorem gathers_commaList {item : Rule α} {views : List α → List Leaf}
    (hitem : item.Gathers [] view) (hnil : views [] = [])
    (hcons : ∀ a as, views (a :: as) = view a ++ views as) :
    (commaList item).Gathers [] views := by
  have hmore : (chain (operator fun k => if k = .comma then some () else none) item).Gathers []
      fun as => views (as.map Prod.snd) :=
    gathers_chain (fun _ => []) (Parser.gathers_of_sublist (by rintro (_ | _) <;> simp))
      hitem hnil fun _ a as => by simp [hcons]
  exact hitem.bind fun a => (hmore.behind _).bind_pure fun as => by simp [hcons]

/-! ## Names and literals -/

theorem gathers_identifier (rule : Construct) :
    (identifier rule).Gathers [] fun n => [.name n] := by
  refine fun c => gathersAt_kind_bind ?_
  split
  · next hk =>
    refine gathersAt_look_bind ?_
    have hskip : skip.GathersAt c [] fun _ => [.name c.lexeme] :=
      gathersAt_skip (by simp [hk]) ⟨hk, rfl⟩
    exact (gathersAt_lift hskip).bind fun _ => gathers_pure (.refl _)
  · exact gathers_bind (fun _ => gathers_fail) c

theorem gathers_qualifiedName (rule : Construct) :
    (qualifiedName rule).Gathers [] QualifiedName.leaves := by
  have hmore : (chain dot (identifier rule)).Gathers [] fun ns => (ns.map Prod.snd).map .name :=
    gathers_chain (fun _ => []) (Parser.gathers_of_sublist (by rintro (_ | _) <;> simp))
      (gathers_identifier rule) rfl fun _ n ns => rfl
  exact (gathers_identifier rule).bind fun n => (hmore.behind _).bind_pure fun ns => .refl _

theorem gathers_identifierList (rule : Construct) :
    (identifierList rule).Gathers [] fun ns => ns.map .name :=
  gathers_commaList (gathers_identifier rule) rfl fun _ _ => rfl

theorem gathersAt_literal {c : Cursor} (hk : c.kind = .integer) :
    literal.GathersAt c [] Factor.leaves := by
  refine gathersAt_look_bind ?_
  split
  · next value hvalue =>
    have hskip : skip.GathersAt c [] fun _ => [.literal value] :=
      gathersAt_skip (by simp [hk]) ⟨hk, hvalue⟩
    exact (gathersAt_lift hskip).bind fun _ => gathers_pure (by simp [Factor.leaves])
  · exact gathers_bind (fun _ => gathers_bind fun _ => gathers_fail) c

/-! ## Expressions -/

section

-- The rules above factors gather what factors do.
variable {r : Rule Factor} (h : r.Gathers [] Factor.leaves)

include h

theorem gathers_termOf : (termOf r).Gathers [] Term.leaves := by
  have hmore : (chain (operator MulOp.ofKind?) r).Gathers [] Factor.leavesTail :=
    gathers_chain _ (gathers_operator _ rfl MulOp.ofKind?_eq_some_iff.1) h
      (by simp [Factor.leavesTail]) fun _ f fs => by simp [Factor.leavesTail]
  exact h.bind fun f => (hmore.behind _).bind_pure fun fs => by simp [Term.leaves]

theorem gathers_simpleExprOf : (simpleExprOf r).Gathers [] SimpleExpr.leaves := by
  have hterm := gathers_termOf h
  have hmore : (chain (operator AddOp.ofKind?) (termOf r)).Gathers [] Term.leavesTail :=
    gathers_chain _ (gathers_operator _ rfl AddOp.ofKind?_eq_some_iff.1) hterm
      (by simp [Term.leavesTail]) fun _ t ts => by simp [Term.leavesTail]
  have hsign := gathers_operator Sign.ofKind? rfl Sign.ofKind?_eq_some_iff.1
  refine (gathers_lift hsign).bind fun sign? => (hterm.behind _).bind fun t => ?_
  refine (hmore.behind _).bind_pure fun ts => ?_
  cases sign? <;> simp [SimpleExpr.leaves]

theorem gathers_exprOf : (exprOf r).Gathers [] Expr.leaves := by
  have hsimple := gathers_simpleExprOf h
  have hop := gathers_operator Relation.ofKind? rfl Relation.ofKind?_eq_some_iff.1
  refine hsimple.bind fun left => (gathers_lift (hop.behind _)).bind fun op? => ?_
  cases op? with
  | none => exact gathers_pure (by simp [Expr.leaves])
  | some op =>
    refine (hsimple.behind _).bind fun right => gathers_bind fun k => ?_
    split
    · exact gathers_bind fun _ => gathers_fail
    · exact gathers_pure (by simp [Expr.leaves])

theorem gathers_argumentsOf (rule : Construct) :
    (argumentsOf r rule).Gathers [] Expr.leavesList := by
  have hlist : (commaList (exprOf r)).Gathers [] Expr.leavesList :=
    gathers_commaList (gathers_exprOf h) (by simp [Expr.leavesList])
      fun _ _ => by simp [Expr.leavesList]
  have hargs : (exprListOf r).Gathers [] Expr.leavesList := by
    refine gathers_bind fun k => ?_
    split
    · exact hlist
    · exact gathers_pure (by simp [Expr.leavesList])
  exact gathers_bind fun _ => hargs.bind fun es => gathers_bind fun _ => gathers_pure (.refl _)

theorem gathers_factorOf : (factorOf r).Gathers [] Factor.leaves := by
  refine fun c => gathersAt_kind_bind ?_
  split
  · next hk => exact gathersAt_literal hk
  · refine gathers_bind (fun _ => ?_) c
    exact (gathers_exprOf h).bind fun e => gathers_bind fun _ =>
      gathers_pure (by simp [Factor.leaves])
  · next hk =>
    have hskip : skip.GathersAt c [] fun _ => [.operator .kwNot] := gathersAt_skip (by simp [hk]) hk
    exact (gathersAt_lift hskip).bind fun _ => (h.behind _).bind_pure fun f => by
      simp [Factor.leaves]
  · refine (gathers_qualifiedName .factor).bind (fun q => gathers_bind fun k => ?_) c
    split
    · exact ((gathers_argumentsOf h .factor).behind _).bind_pure fun es => by simp [Factor.leaves]
    · exact gathers_pure (by simp [Factor.leaves])
  · exact gathers_bind (fun _ => gathers_fail) c

end

theorem gathers_factor : factor.Gathers [] Factor.leaves := .fix fun _ h => gathers_factorOf h

theorem gathers_expr : expr.Gathers [] Expr.leaves := gathers_exprOf gathers_factor

/-! ## Statements -/

theorem gathers_condition (keyword : Kind) (rule : Construct) :
    (condition keyword rule).Gathers [] fun e? => (e?.map Expr.leaves).getD [] :=
  (gathers_orSkipUntil gathers_expr _).bind fun _ =>
    Parser.gathers_bind fun _ => Parser.gathers_pure (.refl _)

theorem gathers_designator : designator.Gathers [] Statement.leaves := by
  refine (gathers_qualifiedName .statement).bind fun q => gathers_bind fun k => ?_
  split
  · exact gathers_bind fun _ => (gathers_expr.behind _).bind_pure fun e => by
      simp [Statement.leaves]
  · exact ((gathers_argumentsOf gathers_factor .statement).behind _).bind_pure fun es => by
      simp [Statement.leaves]
  · exact gathers_pure (by simp [Statement.leaves])

theorem gathers_leave : leave.Gathers [] Statement.leaves := by
  refine gathers_bind fun _ => gathers_bind fun k => ?_
  split
  · exact gathers_expr.bind_pure fun e => by simp [Statement.leaves]
  · exact gathers_pure (by simp [Statement.leaves])

section

variable {r : Rule Statement} (h : r.Gathers [] Statement.leaves)

include h

theorem gathers_sequenceOf (closers : List Kind) :
    (sequenceOf r closers).Gathers [] Statement.leavesList := by
  refine .fix (by simp [Statement.leavesList]) fun more hmore => ?_
  refine (gathers_orSkipUntil h _).bind fun s? => Parser.gathers_bind fun goesOn => ?_
  split
  · refine (hmore.behind _).bind fun ss => Parser.gathers_pure ?_
    cases s? <;> simp [Statement.leavesList]
  · refine Parser.gathers_pure ?_
    cases s? <;> simp [Statement.leavesList]

theorem gathers_branchOf : (branchOf r).Gathers [] Statement.leaves := by
  have hsequence (closers : List Kind) := gathers_lift (gathers_sequenceOf h closers)
  refine gathers_bind fun _ => (gathers_lift (gathers_condition _ _)).bind fun cond? => ?_
  refine ((hsequence _).behind _).bind fun ss => ?_
  refine ((gathers_after? (hsequence _) _).behind _).bind fun ts? => gathers_bind fun _ => ?_
  cases cond? with
  | none => exact gathers_fail
  | some cond =>
    refine gathers_pure ?_
    cases ts? <;> simp [Statement.leaves]

theorem gathers_loopOf : (loopOf r).Gathers [] Statement.leaves := by
  refine gathers_bind fun _ => (gathers_lift (gathers_condition _ _)).bind fun cond? => ?_
  refine ((gathers_lift (gathers_sequenceOf h _)).behind _).bind fun ss => gathers_bind fun _ => ?_
  cases cond? with
  | none => exact gathers_fail
  | some cond => exact gathers_pure (by simp [Statement.leaves])

theorem gathers_statementOf : (statementOf r).Gathers [] Statement.leaves := by
  refine gathers_bind fun k => ?_
  split
  · exact gathers_designator
  · exact gathers_branchOf h
  · exact gathers_loopOf h
  · exact gathers_leave
  · exact gathers_bind fun _ => gathers_fail

end

theorem gathers_statement : statement.Gathers [] Statement.leaves :=
  .fix fun _ h => gathers_statementOf h

theorem gathers_sequence (closers : List Kind) :
    (sequence closers).Gathers [] Statement.leavesList :=
  gathers_sequenceOf gathers_statement closers

/-! ## Declarations and blocks -/

theorem gathers_constant : constant.Gathers [] Declaration.leaves :=
  (gathers_identifier .constant).bind fun _ => gathers_bind fun _ =>
    (gathers_expr.behind _).bind_pure fun _ => by simp [Declaration.leaves]

theorem gathers_vars : vars.Gathers [] Declaration.leaves :=
  (gathers_identifierList .vars).bind fun _ => gathers_bind fun _ =>
    ((gathers_qualifiedName .vars).behind _).bind_pure fun _ => by simp [Declaration.leaves]

theorem gathers_entries (rule : Construct) {entry : Rule Declaration}
    (h : entry.Gathers [] Declaration.leaves) :
    (entries rule entry).Gathers [] Declaration.leavesList := by
  refine .fix (by simp [Declaration.leavesList]) fun more hmore => Parser.gathers_bind fun k => ?_
  split
  · refine Parser.Gathers.bind h fun d? => ?_
    cases d? with
    | none => exact Parser.gathers_bind fun _ => hmore
    | some d =>
      exact Parser.gathers_bind fun _ => (hmore.behind _).bind fun ds =>
        Parser.gathers_pure (by simp [Declaration.leavesList])
  · exact Parser.gathers_pure (by simp [Declaration.leavesList])

theorem gathers_parameter : parameter.Gathers [] Parameter.leaves :=
  gathers_bind fun _ => (gathers_identifierList .parameter).bind fun _ => gathers_bind fun _ =>
    ((gathers_qualifiedName .parameter).behind _).bind_pure fun _ => by simp [Parameter.leaves]

theorem gathers_parameterList : parameterList.Gathers []
    fun ps? => (ps?.map fun ps => ps.flatMap Parameter.leaves).getD [] := by
  refine .fix rfl fun more hmore => ?_
  refine (gathers_orSkipUntil gathers_parameter _).bind fun p? =>
    Parser.gathers_bind fun goesOn => ?_
  split
  · refine (hmore.behind _).bind fun ps? => Parser.gathers_pure ?_
    cases p? <;> cases ps? <;> simp
  · refine Parser.gathers_pure ?_
    cases p? <;> simp

theorem gathers_orLeave {α : Type} {view : α → List Leaf} {r : Rule α} (h : r.Gathers [] view) :
    (parameters.orLeave r).Gathers [] view := by
  refine (gathers_lift h).bind fun a? => ?_
  cases a? with
  | none => exact gathers_bind fun _ => gathers_fail
  | some a => exact gathers_pure (.refl _)

theorem gathers_parameters : parameters.Gathers [] Parameters.leaves := by
  have hitems : parameterItems.Gathers []
      fun ps? => (ps?.map fun ps => ps.flatMap Parameter.leaves).getD [] := by
    refine Parser.gathers_bind fun k => ?_
    split
    · exact gathers_parameterList
    · exact Parser.gathers_pure (by simp)
  have hresult := gathers_after? (gathers_orLeave (gathers_qualifiedName .parameters)) .colon
  refine gathers_bind fun _ => (gathers_lift hitems).bind fun ps? => gathers_bind fun _ => ?_
  refine (hresult.behind _).bind fun q? => ?_
  cases ps? with
  | none => exact gathers_fail
  | some ps => exact gathers_pure (by simp [Parameters.leaves])

theorem gathers_parameters? :
    parameters?.Gathers [] fun p? => (p?.map Parameters.leaves).getD [] := by
  refine gathers_bind fun k => ?_
  split
  · exact gathers_parameters.bind_pure fun p => .refl _
  · exact gathers_pure (by simp)

theorem gathers_procedureOf {block : Parser Block} (h : block.Gathers [] Block.leaves) :
    (procedureOf block).Gathers [] Declaration.leaves := by
  have hname : (identifier .procedure).attempt.Gathers [] _ := gathers_identifier .procedure
  have hparams : parameters?.attempt.Gathers [] _ := gathers_parameters?
  refine gathers_bind fun _ => (gathers_lift hname).bind fun n? => ?_
  refine (gathers_lift (hparams.behind _)).bind fun ps? => gathers_bind fun _ => ?_
  refine (gathers_lift (h.behind _)).bind fun b => (gathers_lift (hname.behind _)).bind fun m? => ?_
  split
  · exact gathers_pure (by simp [Declaration.leaves, Procedure.leaves])
  · exact gathers_fail

theorem gathers_declarationsOf {block : Parser Block} (h : block.Gathers [] Block.leaves) :
    (declarationsOf block).Gathers [] Declaration.leavesList := by
  refine .fix (by simp [Declaration.leavesList]) fun more hmore => Parser.gathers_bind fun k => ?_
  split
  · exact Parser.gathers_bind fun _ => (gathers_entries _ gathers_constant).bind fun ds =>
      (hmore.behind _).bind fun es =>
        Parser.gathers_pure (by simp [Declaration.leavesList_append])
  · exact Parser.gathers_bind fun _ => (gathers_entries _ gathers_vars).bind fun ds =>
      (hmore.behind _).bind fun es =>
        Parser.gathers_pure (by simp [Declaration.leavesList_append])
  · refine Parser.Gathers.bind (gathers_procedureOf h) fun d? => Parser.gathers_bind fun _ =>
      (hmore.behind _).bind fun es => Parser.gathers_pure ?_
    cases d? <;> simp [Declaration.leavesList]
  · exact Parser.gathers_pure (by simp [Declaration.leavesList])
  · exact Parser.gathers_pure (by simp [Declaration.leavesList])
  · exact Parser.gathers_pure (by simp [Declaration.leavesList])
  · exact Parser.gathers_bind fun _ => Parser.gathers_bind fun _ => hmore

theorem gathers_body : body.Gathers [] Statement.leavesList := by
  refine Parser.gathers_bind fun found => ?_
  split
  · exact gathers_sequence _
  · exact Parser.gathers_pure (by simp [Statement.leavesList])

theorem gathers_block : block.Gathers [] Block.leaves := by
  refine .fix (by decide) fun p hp => (gathers_declarationsOf hp).bind fun ds => ?_
  exact (gathers_body.behind _).bind fun ss => Parser.gathers_bind fun _ =>
    Parser.gathers_pure (by simp [Block.leaves])

/-! ## Modules -/

theorem gathers_importNames : importNames.Gathers [] Import.leaves := by
  refine (gathers_after? (gathers_identifier _) _).bind fun m? => gathers_bind fun _ => ?_
  refine ((gathers_identifierList _).behind _).bind_pure fun ns => ?_
  cases m? <;> simp [Import.leaves]

theorem gathers_imports : imports.Gathers [] fun is => is.flatMap Import.leaves := by
  have hitem : importItem.Gathers [] fun i? => (i?.map Import.leaves).getD [] := by
    refine Parser.Gathers.bind gathers_importNames fun i? => ?_
    cases i? with
    | none =>
      exact Parser.gathers_bind fun _ => Parser.gathers_bind fun _ => Parser.gathers_pure (by simp)
    | some i => exact Parser.gathers_bind fun _ => Parser.gathers_pure (by simp)
  refine .fix rfl fun more hmore => Parser.gathers_bind fun k => ?_
  split
  · refine hitem.bind fun i? => (hmore.behind _).bind fun is => Parser.gathers_pure ?_
    cases i? <;> simp
  · exact Parser.gathers_pure (by simp)

theorem gathers_moduleName (rule : Construct) :
    (identifier rule).attempt.Gathers [] fun n? => moduleNameLeaves (n?.getD "") := by
  refine Parser.Gathers.mono (gathers_identifier rule) fun n? => ?_
  cases n? with
  | none => simp [moduleNameLeaves]
  | some n => by_cases hn : n = "" <;> simp [moduleNameLeaves, hn]

theorem gathers_heading : heading.Gathers [] moduleNameLeaves := by
  refine Parser.gathers_bind fun found => ?_
  split
  · exact (gathers_moduleName _).bind fun _ => Parser.gathers_bind fun _ =>
      Parser.gathers_pure (.refl _)
  · exact Parser.gathers_pure (by simp [moduleNameLeaves])

/-- The leaves of a module are made of the symbols that it is parsed from, in their order. -/
theorem gathers_compilationUnit : compilationUnit.Gathers [] Module.leaves :=
  gathers_heading.bind fun _ => (gathers_imports.behind _).bind fun _ =>
    (gathers_block.behind _).bind fun _ => ((gathers_moduleName _).behind _).bind fun _ =>
      Parser.gathers_bind fun _ => Parser.gathers_pure (by simp [Module.leaves])

end Rule

/-- The leaves of the module that is made of any tokens are made of different tokens, in the order
of the tokens: names of identifiers as they are written, literals of integers that have their value,
signs and operators of symbols of their kind. -/
theorem parseTokens_leaves (ts : List Token) :
    ∃ place : Fin (parseTokens ts).1.leaves.length → Fin ts.length, StrictMono place ∧
      ∀ i, ((parseTokens ts).1.leaves.get i).MadeOf (ts.get (place i)).toSymbol := by
  obtain ⟨passed, hrest, hgathered⟩ :=
    Rule.gathers_compilationUnit (.start (TokenStream.ofTokens ts).symbols) [] (.nil [])
  have hall : Gathered (parseTokens ts).1.leaves (TokenStream.ofTokens ts).symbols := by
    change Gathered _ (Cursor.start (TokenStream.ofTokens ts).symbols).rest
    rw [hrest]
    exact hgathered.append_right _
  obtain ⟨used, hused, hsub⟩ :=
    List.sublistForall₂_iff.1 (List.sublistForall₂_map_right_iff.1 hall)
  have hsub : used.Sublist ts := hsub.trans (List.takeWhile_sublist _)
  obtain ⟨place, hplace⟩ := List.sublist_iff_exists_fin_orderEmbedding_get_eq.1 hsub
  refine ⟨fun i => place (i.cast hused.length_eq), fun i j hij => ?_, fun i => ?_⟩
  · exact place.strictMono hij
  · rw [← hplace]
    exact hused.get i.isLt (i.cast hused.length_eq).isLt

end ModSyntax
