import ModSyntax.Proofs.Reading.Missing
import ModSyntax.Proofs.Tree.Literals

/-!
# Expressions with another literal

A literal of an expression may be replaced by another one. If that has a value, the value stands in
the tree instead of the old one. If it has none, the expression is lost: its rule reports the
literal, passes over it and breaks off (`swapsExpr_of_derives`).
-/

namespace ModSyntax

/-! ## Words with a literal -/

/-- Each literal of the word has a place in the tree. With another literal that has a value, the
word is a phrase with this value in the place; with one that has none, the phrase breaks there, and
what is left of it is known by the place, too. -/
def Swaps {α β : Type} (place : (Int64 → α) → β → Prop) (derives : List Symbol → α → Prop)
    (breaks : β → String → List Symbol → List Symbol → Prop) (word : List Symbol) : Prop :=
  ∀ before l after, word = before ++ ⟨.integer, l⟩ :: after → ∃ fill left, place fill left ∧
    (∀ l value, literalValue? l = some value →
      derives (before ++ ⟨.integer, l⟩ :: after) (fill value)) ∧
    ∀ l, literalValue? l = none → breaks left l before (before ++ ⟨.integer, l⟩ :: after)

/-- No symbol of the word is a literal. -/
def LiteralFree (word : List Symbol) : Prop := ∀ s ∈ word, s.kind ≠ .integer

@[simp] theorem literalFree_nil : LiteralFree [] := by simp [LiteralFree]

@[simp] theorem literalFree_cons {s : Symbol} {word : List Symbol} :
    LiteralFree (s :: word) ↔ s.kind ≠ .integer ∧ LiteralFree word := by simp [LiteralFree]

@[simp] theorem literalFree_append {u v : List Symbol} :
    LiteralFree (u ++ v) ↔ LiteralFree u ∧ LiteralFree v := by
  simp [LiteralFree, or_imp, forall_and]

namespace Swaps

variable {α β γ δ : Type} {place : (Int64 → α) → β → Prop} {place' : (Int64 → γ) → δ → Prop}
  {derives : List Symbol → α → Prop} {derives' : List Symbol → γ → Prop}
  {breaks : β → String → List Symbol → List Symbol → Prop}
  {breaks' : δ → String → List Symbol → List Symbol → Prop} {u v word : List Symbol} {s : Symbol}

theorem map (h : Swaps place derives breaks word) (f : α → γ) (g : β → δ)
    (hplace : ∀ {fill left}, place fill left → place' (fun value => f (fill value)) (g left))
    (hderives : ∀ {w a}, derives w a → derives' w (f a))
    (hbreaks : ∀ {left l x w}, breaks left l x w → breaks' (g left) l x w) :
    Swaps place' derives' breaks' word := by
  intro before l after hw
  obtain ⟨fill, left, hfill, hsome, hnone⟩ := h before l after hw
  exact ⟨_, _, hplace hfill, fun l value hl => hderives (hsome l value hl),
    fun l hl => hbreaks (hnone l hl)⟩

theorem of_free (h : LiteralFree word) : Swaps place derives breaks word := by
  rintro before l after rfl
  exact absurd rfl (h ⟨.integer, l⟩ (by simp))

/-- The literal stands in one of two words. -/
theorem append
    (hu : Swaps place (fun w a => derives (w ++ v) a) (fun b l x w => breaks b l x (w ++ v)) u)
    (hv : Swaps place (fun w a => derives (u ++ w) a)
      (fun b l x w => breaks b l (u ++ x) (u ++ w)) v) :
    Swaps place derives breaks (u ++ v) := by
  intro before l after hw
  rcases append_eq_append_cons hw with ⟨y, rfl, rfl⟩ | ⟨x, rfl, rfl⟩
  · simpa using hu before l y rfl
  · simpa using hv x l after rfl

theorem cons (hs : s.kind ≠ .integer)
    (h : Swaps place (fun w a => derives (s :: w) a) (fun b l x w => breaks b l (s :: x) (s :: w))
      word) : Swaps place derives breaks (s :: word) :=
  append (u := [s]) (of_free (by simpa using hs)) h

end Swaps

/-! ## Phrases without literals -/

/-- The phrases that have literals in them. -/
def Phrase.hasLiterals : Phrase → Bool
  | compilationUnit | block | declarations | declaration | constDecls | constant | procedure
  | sequence | moreStatements | statement | arguments | exprList | moreExprs | expr | simpleExpr
  | moreTerms | term | moreFactors | factor => true
  | _ => false

theorem Derives.literalFree {p : Phrase} {w : List Symbol} {t : p.Tree} (h : Derives p w t)
    (hp : p.hasLiterals = false) : LiteralFree w := by
  induction h with
  | _ => simp_all [Phrase.hasLiterals]

/-- The phrases that expressions are made of. -/
def Phrase.inExpr : Phrase → Bool
  | arguments | exprList | moreExprs | expr | simpleExpr | moreTerms | term | moreFactors | factor
  | qualident | moreSegments => true
  | _ => false

/-- What ends the search for the end of an expression that is lost. -/
def exprStops : List Kind :=
  [.semicolon, .kwThen, .kwDo, .kwElse, .kwEnd, .kwConst, .kwVar, .kwProcedure, .kwBegin]

theorem Derives.not_mem_exprStops {p : Phrase} {w : List Symbol} {t : p.Tree} (h : Derives p w t)
    (hp : p.inExpr = true) : ∀ s ∈ w, s.kind ∉ exprStops := by
  induction h with
  | compare op | signed op | moreTerms op | moreFactors op =>
    have hop : op.kind ∉ exprStops := by cases op <;> decide
    simp_all [or_imp, Phrase.inExpr, exprStops]
  | _ => simp_all [or_imp, Phrase.inExpr, exprStops]

namespace Rule

open ModSyntax.Parser

/-! ## Rules that break at a literal -/

section

variable {α β ω : Type} {r : Rule α} {f : α → Rule β} {a : α} {l : String} {s : Symbol}
  {u v word : List Symbol} {start ops near : List Kind}

/-- If the literal `l` stands behind the word, the rule reports it, passes over it, and fails. -/
def Breaks (r : Rule α) (l : String) (word : List Symbol) : Prop :=
  ∀ rest index, r.attempt.run ⟨word ++ ⟨.integer, l⟩ :: rest, index⟩ =
    ⟨none, ⟨rest, index + word.length + 1⟩, [⟨index + word.length, .outOfRange l⟩]⟩

/-- The rule breaks at the literal, and the word before it begins with one of the kinds `start`; if
it is empty, the literal does. -/
structure BreaksFrom (start : List Kind) (r : Rule α) (l : String) (word : List Symbol) :
    Prop where
  breaks : r.Breaks l word
  opens : headKind (word ++ [⟨.integer, l⟩]) ∈ start

theorem headKind_append_literal (word rest : List Symbol) (l : String) :
    headKind (word ++ ⟨.integer, l⟩ :: rest) = headKind (word ++ [⟨.integer, l⟩]) := by
  cases word <;> rfl

theorem Breaks.bind (h : r.Breaks l word) (f : α → Rule β) : (r >>= f).Breaks l word := by
  intro rest index
  simp [h rest index]

/-- The rule breaks behind what it has read. -/
theorem Reads.bind_breaks (hr : r.Reads u a near) (hf : (f a).BreaksFrom start l v)
    (hsub : start ⊆ near) : (r >>= f).Breaks l (u ++ v) := by
  intro rest index
  have hnear : headKind (v ++ ⟨.integer, l⟩ :: rest) ∈ near := by
    rw [headKind_append_literal]
    exact hsub hf.opens
  have hfirst := hr (v ++ ⟨.integer, l⟩ :: rest) index hnear
  have hsecond := hf.breaks rest (index + u.length)
  simp [hfirst, hsecond, Nat.add_assoc]

theorem BreaksFrom.bind (h : r.BreaksFrom start l word) (f : α → Rule β) :
    (r >>= f).BreaksFrom start l word := ⟨h.breaks.bind f, h.opens⟩

theorem BreaksFrom.mono (h : r.BreaksFrom start l word) (hsub : start ⊆ near) :
    r.BreaksFrom near l word := ⟨h.breaks, hsub h.opens⟩

theorem ReadsFrom.bind_breaks (hr : r.ReadsFrom start u a near) (hf : (f a).BreaksFrom ops l v)
    (hsub : ops ⊆ near) (heof : .eof ∉ start) : (r >>= f).BreaksFrom start l (u ++ v) where
  breaks := hr.reads.bind_breaks hf hsub
  opens := by
    rw [List.append_assoc]
    exact hr.headKind_append heof _

/-- A look at the next symbol takes nothing. -/
theorem Reads.look_breaks (hr : r.Reads [] a near) (hf : (f a).BreaksFrom start l word)
    (hsub : start ⊆ near) : (r >>= f).BreaksFrom start l word :=
  ⟨hr.bind_breaks hf hsub, hf.opens⟩

theorem breaks_cons (hr : ∀ near, r.Reads [s] a near) (hf : (f a).Breaks l word) :
    (r >>= f).Breaks l (s :: word) :=
  (hr Kind.all).bind_breaks ⟨hf, Kind.mem_all _⟩ (List.Subset.refl _)

/-- The next symbol decides which rule breaks. -/
theorem breaks_kind_bind {f : Kind → Rule β} (k : Kind)
    (hk : headKind (word ++ [⟨.integer, l⟩]) = k) (h : (f k).Breaks l word) :
    ((liftM Parser.kind : Rule Kind) >>= f).Breaks l word := by
  intro rest index
  rw [attempt_kind_bind, Cursor.kind_mk, headKind_append_literal, hk]
  exact h rest index

section

variable {op : Parser (Option ω)} {o : ω} {item : Rule α} (ht : op.Takes)
  (hop : ∀ near, op.Reads [s] (some o) near) (hs : s.kind ∈ ops)
include ht hop hs

/-- An item of a list breaks, behind its operator. -/
theorem breaks_chain (h : item.Breaks l word) : (chain op item).BreaksFrom ops l (s :: word) := by
  refine ⟨?_, hs⟩
  rw [chain_eq ht]
  exact breaks_cons (fun near => reads_lift (hop near)) (h.bind _)

/-- One of the items behind an item breaks. -/
theorem breaks_chain_behind (hitem : item.Reads u a near)
    (h : (chain op item).BreaksFrom ops l v) (hsub : ops ⊆ near) :
    (chain op item).BreaksFrom ops l (s :: (u ++ v)) := by
  refine ⟨?_, hs⟩
  rw [chain_eq ht]
  exact breaks_cons (fun near => reads_lift (hop near)) (hitem.bind_breaks (h.bind _) hsub)

end

/-! ## Expressions that break -/

theorem breaks_int (h : literalValue? l = none) : factor.BreaksFrom factorStart l [] := by
  refine ⟨?_, by simp [factorStart]⟩
  rw [factor_eq]
  refine breaks_kind_bind .integer rfl fun rest index => ?_
  simp [literal, h]

theorem breaks_paren (l₁ : String) (h : expr.Breaks l word) :
    factor.BreaksFrom factorStart l (⟨.lparen, l₁⟩ :: word) := by
  refine ⟨?_, by simp [factorStart]⟩
  rw [factor_eq]
  exact breaks_kind_bind .lparen rfl
    (breaks_cons (fun near => reads_lift (reads_skip _ near)) (h.bind _))

theorem breaks_not (l₁ : String) (h : factor.Breaks l word) :
    factor.BreaksFrom factorStart l (⟨.kwNot, l₁⟩ :: word) := by
  refine ⟨?_, by simp [factorStart]⟩
  rw [factor_eq]
  exact breaks_kind_bind .kwNot rfl
    (breaks_cons (fun near => reads_lift (reads_skip _ near)) (h.bind _))

theorem breaks_call {q : QualifiedName}
    (hq : (qualifiedName .factor).ReadsFrom [.identifier] u q afterName)
    (h : (arguments .factor).BreaksFrom [.lparen] l v) :
    factor.BreaksFrom factorStart l (u ++ v) := by
  have hhead : headKind (u ++ v ++ [⟨.integer, l⟩]) = .identifier := by
    simpa using hq.headKind_append (by decide) (v ++ [⟨.integer, l⟩])
  refine ⟨?_, hhead ▸ by decide⟩
  rw [factor_eq]
  refine breaks_kind_bind .identifier hhead (hq.reads.bind_breaks ⟨?_, h.opens⟩ (by decide))
  exact breaks_kind_bind .lparen (by simpa using h.opens) (h.breaks.bind _)

theorem breaks_exprList (h : (commaList expr).BreaksFrom Kind.expressionStart l word) :
    (exprListOf factor).BreaksFrom Kind.expressionStart l word := by
  refine ⟨breaks_kind_bind _ rfl ?_, h.opens⟩
  rw [if_pos (show (headKind _).startsExpression = true from decide_eq_true h.opens)]
  exact h.breaks

theorem breaks_arguments (l₁ : String) (rule : Construct)
    (h : (exprListOf factor).Breaks l word) :
    (arguments rule).BreaksFrom [.lparen] l (⟨.lparen, l₁⟩ :: word) :=
  ⟨breaks_cons (fun near => reads_lift (reads_skip _ near)) (h.bind _), by simp⟩

/-- In front of a term there is no sign. -/
theorem breaks_unsigned {f : Option Sign → Rule β} (h : (f none).BreaksFrom factorStart l word) :
    ((liftM (operator Sign.ofKind?) : Rule (Option Sign)) >>= f).BreaksFrom Kind.expressionStart l
      word :=
  (Reads.look_breaks (reads_lift (reads_operator_absent (by decide))) h
    (List.Subset.refl _)).mono (by decide)

theorem breaks_signed {f : Option Sign → Rule β} (sign : Sign) (l₁ : String)
    (h : (f (some sign)).Breaks l word) :
    ((liftM (operator Sign.ofKind?) : Rule (Option Sign)) >>= f).BreaksFrom Kind.expressionStart l
      (⟨sign.kind, l₁⟩ :: word) := by
  refine ⟨breaks_cons (fun near => reads_lift
    (reads_operator (Sign.ofKind?_eq_some_iff.2 rfl) l₁ near)) h, ?_⟩
  cases sign <;> simp [Sign.kind, Kind.expressionStart]

theorem breaks_compare {e : SimpleExpr} (op : Relation) (l₁ : String)
    (he : (simpleExprOf factor).ReadsFrom Kind.expressionStart u e afterSimple)
    (h : (simpleExprOf factor).Breaks l v) :
    expr.BreaksFrom Kind.expressionStart l (u ++ ⟨op.kind, l₁⟩ :: v) := by
  have hop (near : List Kind) :
      (liftM (operator Relation.ofKind?) : Rule (Option Relation)).Reads [⟨op.kind, l₁⟩] (some op)
        near := reads_lift (reads_operator (Relation.ofKind?_eq_some_iff.2 rfl) l₁ near)
  refine he.bind_breaks ⟨breaks_cons hop (h.bind _), List.mem_singleton_self op.kind⟩ ?_ (by decide)
  cases op <;> decide

end

/-! ## Phrases of expressions -/

/-- Another literal in a part of an expression; nothing is left of it if that has no value. -/
abbrev SwapsPart {α : Type} (holds : (Int64 → α) → Prop) (derives : List Symbol → α → Prop)
    (breaks : String → List Symbol → Prop) (word : List Symbol) : Prop :=
  Swaps (fun fill (_ : Unit) => holds fill) derives (fun _ l x _ => breaks l x) word

abbrev SwapsExpr : (p : Phrase) → List Symbol → p.Tree → Prop
  | .arguments, w, es => SwapsPart (Expr.ListHoldsLiteral es) (Derives .arguments)
      (fun l x => ∀ rule, (arguments rule).BreaksFrom [.lparen] l x) w
  | .exprList, w, es => SwapsPart (Expr.ListHoldsLiteral es) (Derives .exprList)
      (fun l x => (commaList expr).BreaksFrom Kind.expressionStart l x) w
  | .moreExprs, w, es => SwapsPart (Expr.ListHoldsLiteral es) (Derives .moreExprs)
      (fun l x => (chain (operator fun k => if k = .comma then some () else none)
        expr).BreaksFrom [.comma] l x) w
  | .expr, w, e => SwapsPart e.HoldsLiteral (Derives .expr)
      (fun l x => expr.BreaksFrom Kind.expressionStart l x) w
  | .simpleExpr, w, e => SwapsPart e.HoldsLiteral (Derives .simpleExpr)
      (fun l x => (simpleExprOf factor).BreaksFrom Kind.expressionStart l x) w
  | .moreTerms, w, ts => SwapsPart (Term.TailHoldsLiteral ts) (Derives .moreTerms)
      (fun l x => (chain (operator AddOp.ofKind?) (termOf factor)).BreaksFrom
        [.plus, .minus, .kwOr] l x) w
  | .term, w, t => SwapsPart t.HoldsLiteral (Derives .term)
      (fun l x => (termOf factor).BreaksFrom factorStart l x) w
  | .moreFactors, w, fs => SwapsPart (Factor.TailHoldsLiteral fs) (Derives .moreFactors)
      (fun l x => (chain (operator MulOp.ofKind?) factor).BreaksFrom
        [.star, .slash, .kwDiv, .kwMod, .kwAnd] l x) w
  | .factor, w, f => SwapsPart f.HoldsLiteral (Derives .factor)
      (fun l x => factor.BreaksFrom factorStart l x) w
  | _, _, _ => True

theorem swapsExpr_of_derives {p : Phrase} {w : List Symbol} {t : p.Tree} (h : Derives p w t) :
    SwapsExpr p w t := by
  have hnil {α β : Type} {place : (Int64 → α) → β → Prop} {derives : List Symbol → α → Prop}
      {breaks : β → String → List Symbol → List Symbol → Prop} : Swaps place derives breaks [] :=
    .of_free (by simp)
  induction h with
  | noArguments => exact .of_free (by simp)
  | arguments _ ih =>
    exact .cons (by simp) (.append
      (ih.map id id id .arguments fun hx rule =>
        breaks_arguments _ rule (breaks_exprList hx).breaks)
      (.of_free (by simp)))
  | @exprList u e v es he hes ihe ihes =>
    exact .append
      (ihe.map (· :: es) id .here (.exprList · hes) (·.bind _))
      (ihes.map (e :: ·) id .behind (.exprList he) fun hx =>
        (readsPhrase_of_derives he).bind_breaks (hx.bind _) (by decide) (by decide))
  | noMoreExprs => exact hnil
  | @moreExprs l u e v es he hes ihe ihes =>
    exact .cons (by simp) (.append
      (ihe.map (· :: es) id .here (.moreExprs · hes) fun hx =>
        breaks_chain takes_comma (reads_comma l) (by simp) hx.breaks)
      (ihes.map (e :: ·) id .behind (.moreExprs he) fun hx =>
        breaks_chain_behind takes_comma (reads_comma l) (by simp)
          (readsPhrase_of_derives he).reads hx (by decide)))
  | simple _ ih => exact ih.map .simple id .simple .simple (·.bind _)
  | @compare u a l v b op ha hb iha ihb =>
    exact .append
      (iha.map (.compare op · b) id .left (.compare op · hb) (·.bind _))
      (.cons (by cases op <;> simp [Relation.kind])
        (ihb.map (.compare op a ·) id .right (.compare op ha) fun hx =>
          breaks_compare op l (readsPhrase_of_derives ha) hx.breaks))
  | @unsigned u t v ts ht hts iht ihts =>
    exact .append
      (iht.map (SimpleExpr.mk none · ts) id .first (.unsigned · hts) fun hx =>
        breaks_unsigned (hx.bind _))
      (ihts.map (SimpleExpr.mk none t ·) id .rest (.unsigned ht) fun hx =>
        breaks_unsigned ((readsPhrase_of_derives ht).bind_breaks (hx.bind _) (by decide)
          (by decide)))
  | @signed l u t v ts sign ht hts iht ihts =>
    exact .cons (by cases sign <;> simp [Sign.kind]) (.append
      (iht.map (SimpleExpr.mk (some sign) · ts) id .first (.signed sign · hts) fun hx =>
        breaks_signed sign l (hx.breaks.bind _))
      (ihts.map (SimpleExpr.mk (some sign) t ·) id .rest (.signed sign ht) fun hx =>
        breaks_signed sign l ((readsPhrase_of_derives ht).reads.bind_breaks (hx.bind _)
          (by decide))))
  | noMoreTerms => exact hnil
  | @moreTerms l u t v ts op ht hts iht ihts =>
    have hop := reads_operator (AddOp.ofKind?_eq_some_iff.2 (rfl : op.kind = op.kind)) l
    exact .cons (by cases op <;> simp [AddOp.kind]) (.append
      (iht.map (fun t => (op, t) :: ts) id .here (.moreTerms op · hts) fun hx =>
        breaks_chain (takes_operator rfl) hop (by cases op <;> simp [AddOp.kind]) hx.breaks)
      (ihts.map ((op, t) :: ·) id .behind (.moreTerms op ht) fun hx =>
        breaks_chain_behind (takes_operator rfl) hop (by cases op <;> simp [AddOp.kind])
          (readsPhrase_of_derives ht).reads hx (by decide)))
  | @term u f v fs hf hfs ihf ihfs =>
    exact .append
      (ihf.map (Term.mk · fs) id .first (.term · hfs) (·.bind _))
      (ihfs.map (Term.mk f ·) id .rest (.term hf) fun hx =>
        (readsPhrase_of_derives hf).bind_breaks (hx.bind _) (by decide) (by decide))
  | noMoreFactors => exact hnil
  | @moreFactors l u f v fs op hf hfs ihf ihfs =>
    have hop := reads_operator (MulOp.ofKind?_eq_some_iff.2 (rfl : op.kind = op.kind)) l
    exact .cons (by cases op <;> simp [MulOp.kind]) (.append
      (ihf.map (fun f => (op, f) :: fs) id .here (.moreFactors op · hfs) fun hx =>
        breaks_chain (takes_operator rfl) hop (by cases op <;> simp [MulOp.kind]) hx.breaks)
      (ihfs.map ((op, f) :: ·) id .behind (.moreFactors op hf) fun hx =>
        breaks_chain_behind (takes_operator rfl) hop (by cases op <;> simp [MulOp.kind])
          (readsPhrase_of_derives hf).reads hx (by decide)))
  | @int l value hl =>
    intro before l' after hw
    rcases cons_eq_append_cons hw with ⟨rfl, -, rfl⟩ | ⟨x, -, hx⟩
    · exact ⟨.int, (), .int, fun l value hl => .int hl, fun l hl => breaks_int hl⟩
    · simp at hx
  | paren _ ih =>
    exact .cons (by simp) (.append
      (ih.map .paren id .paren .paren fun hx => breaks_paren _ hx.breaks)
      (.of_free (by simp)))
  | not _ ih =>
    exact .cons (by simp) (ih.map .not id .not .not fun hx => breaks_not _ hx.breaks)
  | ref hq => exact .of_free (hq.literalFree rfl)
  | @call u q v es hq _ _ ih =>
    exact .append (.of_free (hq.literalFree rfl)) (ih.map (.call q) id .call (.call hq) fun hx =>
      breaks_call (readsPhrase_of_derives hq _ _ (by decide)) (hx .factor))
  | _ => trivial

/-! ## What is left of an expression -/

/-- The literal `l` stands in the word behind `before`, and nothing behind it ends the search for
the end of an expression that breaks there. -/
def Strands (l : String) (before word : List Symbol) : Prop :=
  ∃ after, word = before ++ ⟨.integer, l⟩ :: after ∧ ∀ s ∈ after, s.kind ∉ exprStops

theorem Strands.append {l : String} {before word : List Symbol} (h : Strands l before word)
    (u : List Symbol) : Strands l (u ++ before) (u ++ word) := by
  obtain ⟨after, rfl, hafter⟩ := h
  exact ⟨after, by simp, hafter⟩

theorem Strands.cons {l : String} {before word : List Symbol} (h : Strands l before word)
    (s : Symbol) : Strands l (s :: before) (s :: word) := h.append [s]

theorem SwapsPart.strands {α : Type} {holds : (Int64 → α) → Prop}
    {derives : List Symbol → α → Prop} {breaks : String → List Symbol → Prop} {word : List Symbol}
    (h : SwapsPart holds derives breaks word) (hword : ∀ s ∈ word, s.kind ∉ exprStops) :
    Swaps (fun fill (_ : Unit) => holds fill) derives
      (fun _ l x w => breaks l x ∧ Strands l x w) word := by
  rintro before l after rfl
  obtain ⟨fill, left, hfill, hsome, hnone⟩ := h before l after rfl
  have hafter : ∀ s ∈ after, s.kind ∉ exprStops := fun s hs => hword s (by simp [hs])
  exact ⟨fill, left, hfill, hsome, fun l hl => ⟨hnone l hl, after, rfl, hafter⟩⟩

theorem swaps_expr {e : Expr} {word : List Symbol} (h : Derives .expr word e) :
    Swaps (fun fill (_ : Unit) => e.HoldsLiteral fill) (Derives .expr)
      (fun _ l x w => expr.BreaksFrom Kind.expressionStart l x ∧ Strands l x w) word :=
  SwapsPart.strands (swapsExpr_of_derives h) (h.not_mem_exprStops rfl)

theorem swaps_arguments {es : List Expr} {word : List Symbol} (h : Derives .arguments word es) :
    Swaps (fun fill (_ : Unit) => Expr.ListHoldsLiteral es fill) (Derives .arguments)
      (fun _ l x w => (∀ rule, (arguments rule).BreaksFrom [.lparen] l x) ∧ Strands l x w) word :=
  SwapsPart.strands (swapsExpr_of_derives h) (h.not_mem_exprStops rfl)

end Rule

end ModSyntax
