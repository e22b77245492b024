import ModSyntax.Proofs.Reading.Word

/-!
# Reading expressions

How the rules from names up to expressions read their words, one law for every form of a phrase.
-/

namespace ModSyntax.Rule

open ModSyntax.Parser

variable {α : Type} {u v word : List Symbol} {follow : List Kind}

/-! ## Names -/

/-- The list as a chain, whose operators say nothing. -/
def unlabelled (as : List α) : List (Unit × α) := as.map ((), ·)

@[simp] theorem map_snd_unlabelled (as : List α) : (unlabelled as).map Prod.snd = as := by
  simp [unlabelled, Function.comp_def]

theorem reads_dot (l : String) : dot.Reads [⟨.period, l⟩] (some ()) [.identifier] := by
  intro rest index hrest
  have hk : headKind rest = .identifier := by simpa using hrest
  simp [dot, hk]

theorem reads_dot_absent (h : .period ∉ follow) : dot.Reads [] none follow := by
  intro rest index hrest
  have hne : headKind rest ≠ .period := fun he => h (he ▸ hrest)
  simp [dot, hne]

/-- The segments `{ "." ident }` of a name behind the first. -/
theorem reads_moreSegments_nil (rule : Construct) (h : .period ∉ follow) :
    (chain dot (identifier rule)).Reads [] (unlabelled []) follow :=
  reads_chain_nil takes_dot (reads_dot_absent h) _

theorem reads_moreSegments_cons {rule : Construct} {n : String} {ns : List String} (l : String)
    (hmore : (chain dot (identifier rule)).Reads v (unlabelled ns) follow) :
    (chain dot (identifier rule)).Reads (⟨.period, l⟩ :: ⟨.identifier, n⟩ :: v)
      (unlabelled (n :: ns)) follow :=
  reads_chain_cons takes_dot (u := [⟨.identifier, n⟩]) (reads_dot l) (by simp)
    (reads_identifier n rule Kind.all) hmore fun _ _ => Kind.mem_all _

theorem reads_qualifiedName {rule : Construct} {n : String} {ns : List String}
    (hmore : (chain dot (identifier rule)).Reads v (unlabelled ns) follow) :
    (qualifiedName rule).Reads (⟨.identifier, n⟩ :: v) ⟨n :: ns⟩ follow := by
  refine Reads.cons (reads_identifier n rule) ?_
  simpa using hmore.bind_pure fun more => QualifiedName.mk (n :: more.map Prod.snd)

/-- The comma between the items of a list. -/
theorem reads_comma (l : String) (follow : List Kind) :
    (operator fun k => if k = .comma then some () else none).Reads [⟨.comma, l⟩] (some ()) follow :=
  reads_operator (by simp) l follow

theorem reads_comma_absent (h : .comma ∉ follow) :
    (operator fun k => if k = Kind.comma then some () else none).Reads [] none follow :=
  reads_operator_absent fun k hk => if_neg (fun he : k = .comma => h (he ▸ hk))

theorem reads_moreNames_nil (rule : Construct) (h : .comma ∉ follow) :
    (chain (operator fun k => if k = .comma then some () else none) (identifier rule)).Reads []
      (unlabelled []) follow :=
  reads_chain_nil takes_comma (reads_comma_absent h) _

theorem reads_moreNames_cons {rule : Construct} {n : String} {ns : List String} (l : String)
    (hmore : (chain (operator fun k => if k = .comma then some () else none)
      (identifier rule)).Reads v (unlabelled ns) follow) :
    (chain (operator fun k => if k = .comma then some () else none) (identifier rule)).Reads
      (⟨.comma, l⟩ :: ⟨.identifier, n⟩ :: v) (unlabelled (n :: ns)) follow :=
  reads_chain_cons takes_comma (u := [⟨.identifier, n⟩]) (reads_comma l _) (by simp)
    (reads_identifier n rule Kind.all) hmore fun _ _ => Kind.mem_all _

theorem reads_identifierList {rule : Construct} {n : String} {ns : List String}
    (hmore : (chain (operator fun k => if k = .comma then some () else none)
      (identifier rule)).Reads v (unlabelled ns) follow) :
    (identifierList rule).Reads (⟨.identifier, n⟩ :: v) (n :: ns) follow := by
  have h := reads_commaList (reads_identifier n rule Kind.all) hmore fun _ _ => Kind.mem_all _
  rwa [map_snd_unlabelled] at h

/-! ## Expressions -/

/-- The kinds a factor, and so a term, begins with. -/
def factorStart : List Kind := [.integer, .lparen, .kwNot, .identifier]

/-- What an expression ends in front of: what may follow it, and what begins another statement,
entry or section. -/
def afterExpr : List Kind :=
  expressionFollow ++
    [.identifier, .kwIf, .kwWhile, .kwReturn, .kwConst, .kwVar, .kwProcedure, .kwBegin]

/-- What may follow a simple expression. -/
def afterSimple : List Kind := Kind.relations ++ afterExpr

/-- What may follow a term. -/
def afterTerm : List Kind := [.plus, .minus, .kwOr] ++ afterSimple

/-- What may follow a factor. -/
def afterFactor : List Kind := [.star, .slash, .kwDiv, .kwMod, .kwAnd] ++ afterTerm

/-- What may follow a name. -/
def afterName : List Kind := [.becomes, .lparen] ++ afterFactor

theorem reads_literal {l : String} {value : Int64} (h : literalValue? l = some value)
    (follow : List Kind) : literal.Reads [⟨.integer, l⟩] (.int value) follow := by
  intro rest index _
  simp [literal, h]

theorem reads_term {f : Factor} {fs : List (MulOp × Factor)}
    (hf : factor.ReadsFrom factorStart u f ([Kind.star, .slash, .kwDiv, .kwMod, .kwAnd] ++ follow))
    (hmore : (chain (operator MulOp.ofKind?) factor).ReadsMore
      [.star, .slash, .kwDiv, .kwMod, .kwAnd] v fs follow) :
    (termOf factor).ReadsFrom factorStart (u ++ v) ⟨f, fs⟩ follow :=
  hf.bind_more (hmore.bind_pure (Term.mk f)) (by decide)

theorem reads_unsigned {t : Term} {ts : List (AddOp × Term)}
    (ht : (termOf factor).ReadsFrom factorStart u t ([Kind.plus, .minus, .kwOr] ++ follow))
    (hmore : (chain (operator AddOp.ofKind?) (termOf factor)).ReadsMore [.plus, .minus, .kwOr] v ts
      follow) :
    (simpleExprOf factor).ReadsFrom Kind.expressionStart (u ++ v) ⟨none, t, ts⟩ follow := by
  have hsign : (liftM (operator Sign.ofKind?) : Rule (Option Sign)).Reads [] none factorStart :=
    reads_lift (reads_operator_absent (by decide))
  have hstart := ht.headKind_append (by decide)
  refine ⟨hsign.look (ht.bind_more (hmore.bind_pure (SimpleExpr.mk none t)) (by decide)).reads
    fun rest _ => ?_, (by decide : factorStart ⊆ Kind.expressionStart) (hstart v)⟩
  rw [List.append_assoc]
  exact hstart (v ++ rest)

theorem reads_signed {t : Term} {ts : List (AddOp × Term)} (sign : Sign) (l : String)
    (ht : (termOf factor).ReadsFrom factorStart u t ([Kind.plus, .minus, .kwOr] ++ follow))
    (hmore : (chain (operator AddOp.ofKind?) (termOf factor)).ReadsMore [.plus, .minus, .kwOr] v ts
      follow) :
    (simpleExprOf factor).ReadsFrom Kind.expressionStart (⟨sign.kind, l⟩ :: (u ++ v))
      ⟨some sign, t, ts⟩ follow where
  reads := Reads.cons (fun near =>
      reads_lift (reads_operator (Sign.ofKind?_eq_some_iff.2 rfl) l near))
    (ht.bind_more (hmore.bind_pure (SimpleExpr.mk (some sign) t)) (by decide)).reads
  opens := by cases sign <;> simp [Sign.kind, Kind.expressionStart]

theorem reads_simple {e : SimpleExpr} (hend : ∀ k ∈ follow, Relation.ofKind? k = none)
    (h : (simpleExprOf factor).ReadsFrom Kind.expressionStart u e follow) :
    expr.ReadsFrom Kind.expressionStart u (.simple e) follow := by
  have hnone : (liftM (operator Relation.ofKind?) : Rule (Option Relation)).Reads [] none follow :=
    reads_lift (reads_operator_absent hend)
  exact ⟨h.reads.bind_nil (hnone.bind_nil (reads_pure (Expr.simple e) _) (List.Subset.refl _))
    (List.Subset.refl _), h.opens⟩

/-- Behind a comparison, no other one is next. -/
theorem reads_compare {a b : SimpleExpr} (op : Relation) (l : String)
    (hend : ∀ k ∈ follow, k.isRelation = false)
    (ha : (simpleExprOf factor).ReadsFrom Kind.expressionStart u a afterSimple)
    (hb : (simpleExprOf factor).ReadsFrom Kind.expressionStart v b follow) :
    expr.ReadsFrom Kind.expressionStart (u ++ ⟨op.kind, l⟩ :: v) (.compare op a b) follow := by
  have hop (near : List Kind) :
      (liftM (operator Relation.ofKind?) : Rule (Option Relation)).Reads [⟨op.kind, l⟩] (some op)
        near := reads_lift (reads_operator (Relation.ofKind?_eq_some_iff.2 rfl) l near)
  have hlast : ((liftM Parser.kind : Rule Kind) >>= fun k => if k.isRelation then do
      unexpected .expression expressionFollow
      fail
      else pure (Expr.compare op a b)).Reads [] (.compare op a b) follow := by
    intro rest index hrest
    simp [hend _ hrest]
  refine ⟨ha.reads.bind_cons (Reads.cons hop
    (hb.reads.bind_nil hlast (List.Subset.refl _))) ?_, ha.headKind_append (by decide) _⟩
  change op.kind ∈ afterSimple
  cases op <;> decide

theorem reads_exprList {e : Expr} {es : List Expr}
    (he : expr.ReadsFrom Kind.expressionStart u e afterExpr)
    (hmore : (chain (operator fun k => if k = .comma then some () else none) expr).ReadsMore
      [.comma] v (unlabelled es) [.rparen]) :
    (exprListOf factor).ReadsFrom Kind.expressionStart (u ++ v) (e :: es) [.rparen] := by
  have hlist : (commaList expr).Reads (u ++ v) (e :: es) [.rparen] := by
    have h := reads_commaList he.reads hmore.reads fun rest hrest =>
      (by decide : [.comma] ++ [.rparen] ⊆ afterExpr)
        (hmore.headKind_append (by decide) hrest)
    rwa [map_snd_unlabelled] at h
  refine ⟨fun rest index hrest => ?_, he.headKind_append (by decide) v⟩
  have hk : (headKind (u ++ v ++ rest)).startsExpression = true := by
    rw [List.append_assoc]
    exact decide_eq_true (he.headKind_append (by decide) (v ++ rest))
  rw [exprListOf, attempt_kind_bind, Cursor.kind_mk, if_pos hk]
  exact hlist rest index hrest

theorem reads_noExprs : (exprListOf factor).Reads [] [] [.rparen] := by
  refine reads_kind_bind_nil fun k hk => ?_
  rw [List.mem_singleton.1 hk]
  exact reads_pure _ _

theorem reads_arguments {es : List Expr} (l₁ l₂ : String) (rule : Construct)
    (h : (exprListOf factor).Reads u es [.rparen]) (follow : List Kind) :
    (arguments rule).Reads (⟨.lparen, l₁⟩ :: (u ++ [⟨.rparen, l₂⟩])) es follow :=
  Reads.cons (fun near => reads_lift (reads_skip _ near))
    (h.bind_cons (((reads_discard_expect .rparen l₂ rule follow).bind_pure fun _ => es)) (by simp))

theorem reads_int {l : String} {value : Int64} (h : literalValue? l = some value)
    (follow : List Kind) :
    factor.ReadsFrom factorStart [⟨.integer, l⟩] (.int value) follow := by
  refine ⟨?_, by simp [factorStart]⟩
  rw [factor_eq]
  exact reads_kind_bind .integer rfl (by decide) (reads_literal h follow)

theorem reads_paren {e : Expr} (l₁ l₂ : String)
    (h : expr.ReadsFrom Kind.expressionStart u e afterExpr) (follow : List Kind) :
    factor.ReadsFrom factorStart (⟨.lparen, l₁⟩ :: (u ++ [⟨.rparen, l₂⟩])) (.paren e) follow := by
  refine ⟨?_, by simp [factorStart]⟩
  rw [factor_eq]
  refine reads_kind_bind .lparen rfl (by decide)
    (Reads.cons (fun near => reads_lift (reads_skip _ near)) ?_)
  exact h.reads.bind_cons ((reads_discard_expect .rparen l₂ .factor follow).bind_pure
    fun _ => Factor.paren e) (by decide : Kind.rparen ∈ afterExpr)

theorem reads_not {f : Factor} (l : String) (h : factor.ReadsFrom factorStart u f follow) :
    factor.ReadsFrom factorStart (⟨.kwNot, l⟩ :: u) (.not f) follow := by
  refine ⟨?_, by simp [factorStart]⟩
  rw [factor_eq]
  exact reads_kind_bind .kwNot rfl (by decide)
    (Reads.cons (fun near => reads_lift (reads_skip _ near)) (h.reads.bind_pure Factor.not))

theorem reads_ref {q : QualifiedName} (hend : .lparen ∉ follow)
    (h : (qualifiedName .factor).ReadsFrom [.identifier] u q follow) :
    factor.ReadsFrom factorStart u (.ref q) follow := by
  have hk : headKind u = .identifier := by simpa using h.opens
  refine ⟨?_, by simp [hk, factorStart]⟩
  rw [factor_eq]
  refine reads_kind_bind .identifier hk (by decide)
    (h.reads.bind_nil (reads_kind_bind_nil fun k hk => ?_) (List.Subset.refl _))
  rw [if_neg fun he : k = .lparen => hend (he ▸ hk)]
  exact reads_pure _ _

theorem reads_call {q : QualifiedName} {es : List Expr}
    (h : (qualifiedName .factor).ReadsFrom [.identifier] u q afterName)
    (hargs : (arguments .factor).ReadsFrom [.lparen] v es follow) :
    factor.ReadsFrom factorStart (u ++ v) (.call q es) follow := by
  have hk : headKind u = .identifier := by simpa using h.opens
  have hv : headKind v = .lparen := by simpa using hargs.opens
  refine ⟨?_, by simp [headKind_append_of_ne, hk, factorStart]⟩
  rw [factor_eq]
  refine reads_kind_bind .identifier (by simp [headKind_append_of_ne, hk]) (by decide)
    (h.reads.bind (reads_kind_bind .lparen hv (by decide) (hargs.reads.bind_pure (Factor.call q)))
      fun rest _ => ?_)
  simp [headKind_append_of_ne, hv, afterName]

end ModSyntax.Rule
