import ModSyntax.Proofs.Tree.Places

/-!
# Literals in a tree

An expression holds a literal at a place, and the function that comes with the place puts another
value there. The expression belongs to a statement or to a constant, which owns the literal. In the
tree around it the literal can be given another value, or else its owner be left out
(`LiteralPlace`).
-/

namespace ModSyntax

/-! ## Expressions -/

mutual

/-- The expression holds a literal; the function puts another value in its place. -/
inductive Expr.HoldsLiteral : Expr → (Int64 → Expr) → Prop where
  | simple {e : SimpleExpr} {fill : Int64 → SimpleExpr} :
      e.HoldsLiteral fill → Expr.HoldsLiteral (.simple e) fun v => .simple (fill v)
  | left {op : Relation} {a b : SimpleExpr} {fill : Int64 → SimpleExpr} :
      a.HoldsLiteral fill → Expr.HoldsLiteral (.compare op a b) fun v => .compare op (fill v) b
  | right {op : Relation} {a b : SimpleExpr} {fill : Int64 → SimpleExpr} :
      b.HoldsLiteral fill → Expr.HoldsLiteral (.compare op a b) fun v => .compare op a (fill v)

inductive SimpleExpr.HoldsLiteral : SimpleExpr → (Int64 → SimpleExpr) → Prop where
  | first {sign : Option Sign} {t : Term} {rest : List (AddOp × Term)} {fill : Int64 → Term} :
      t.HoldsLiteral fill → SimpleExpr.HoldsLiteral ⟨sign, t, rest⟩ fun v => ⟨sign, fill v, rest⟩
  | rest {sign : Option Sign} {t : Term} {rest : List (AddOp × Term)}
      {fill : Int64 → List (AddOp × Term)} :
      Term.TailHoldsLiteral rest fill →
      SimpleExpr.HoldsLiteral ⟨sign, t, rest⟩ fun v => ⟨sign, t, fill v⟩

inductive Term.TailHoldsLiteral :
    List (AddOp × Term) → (Int64 → List (AddOp × Term)) → Prop where
  | here {op : AddOp} {t : Term} {rest : List (AddOp × Term)} {fill : Int64 → Term} :
      t.HoldsLiteral fill → Term.TailHoldsLiteral ((op, t) :: rest) fun v => (op, fill v) :: rest
  | behind {t : AddOp × Term} {rest : List (AddOp × Term)} {fill : Int64 → List (AddOp × Term)} :
      Term.TailHoldsLiteral rest fill → Term.TailHoldsLiteral (t :: rest) fun v => t :: fill v

inductive Term.HoldsLiteral : Term → (Int64 → Term) → Prop where
  | first {f : Factor} {rest : List (MulOp × Factor)} {fill : Int64 → Factor} :
      f.HoldsLiteral fill → Term.HoldsLiteral ⟨f, rest⟩ fun v => ⟨fill v, rest⟩
  | rest {f : Factor} {rest : List (MulOp × Factor)} {fill : Int64 → List (MulOp × Factor)} :
      Factor.TailHoldsLiteral rest fill → Term.HoldsLiteral ⟨f, rest⟩ fun v => ⟨f, fill v⟩

inductive Factor.TailHoldsLiteral :
    List (MulOp × Factor) → (Int64 → List (MulOp × Factor)) → Prop where
  | here {op : MulOp} {f : Factor} {rest : List (MulOp × Factor)} {fill : Int64 → Factor} :
      f.HoldsLiteral fill → Factor.TailHoldsLiteral ((op, f) :: rest) fun v => (op, fill v) :: rest
  | behind {f : MulOp × Factor} {rest : List (MulOp × Factor)}
      {fill : Int64 → List (MulOp × Factor)} :
      Factor.TailHoldsLiteral rest fill → Factor.TailHoldsLiteral (f :: rest) fun v => f :: fill v

inductive Factor.HoldsLiteral : Factor → (Int64 → Factor) → Prop where
  | int {value : Int64} : Factor.HoldsLiteral (.int value) .int
  | paren {e : Expr} {fill : Int64 → Expr} :
      e.HoldsLiteral fill → Factor.HoldsLiteral (.paren e) fun v => .paren (fill v)
  | not {f : Factor} {fill : Int64 → Factor} :
      f.HoldsLiteral fill → Factor.HoldsLiteral (.not f) fun v => .not (fill v)
  | call {target : QualifiedName} {args : List Expr} {fill : Int64 → List Expr} :
      Expr.ListHoldsLiteral args fill →
      Factor.HoldsLiteral (.call target args) fun v => .call target (fill v)

inductive Expr.ListHoldsLiteral : List Expr → (Int64 → List Expr) → Prop where
  | here {e : Expr} {rest : List Expr} {fill : Int64 → Expr} :
      e.HoldsLiteral fill → Expr.ListHoldsLiteral (e :: rest) fun v => fill v :: rest
  | behind {e : Expr} {rest : List Expr} {fill : Int64 → List Expr} :
      Expr.ListHoldsLiteral rest fill → Expr.ListHoldsLiteral (e :: rest) fun v => e :: fill v

end

/-! ## Owners -/

/-- The literal stands in an expression of the statement itself, not in a statement inside it. -/
inductive Statement.OwnsLiteral : Statement → (Int64 → Statement) → Prop where
  | assign {target : QualifiedName} {value : Expr} {fill : Int64 → Expr} :
      value.HoldsLiteral fill →
      Statement.OwnsLiteral (.assign target value) fun v => .assign target (fill v)
  | call {target : QualifiedName} {args : List Expr} {fill : Int64 → List Expr} :
      Expr.ListHoldsLiteral args fill →
      Statement.OwnsLiteral (.call target args) fun v => .call target (fill v)
  | branch {cond : Expr} {thenBody : List Statement} {elseBody : Option (List Statement)}
      {fill : Int64 → Expr} :
      cond.HoldsLiteral fill →
      Statement.OwnsLiteral (.branch cond thenBody elseBody)
        fun v => .branch (fill v) thenBody elseBody
  | loop {cond : Expr} {body : List Statement} {fill : Int64 → Expr} :
      cond.HoldsLiteral fill →
      Statement.OwnsLiteral (.loop cond body) fun v => .loop (fill v) body
  | leave {value : Expr} {fill : Int64 → Expr} :
      value.HoldsLiteral fill →
      Statement.OwnsLiteral (.leave (some value)) fun v => .leave (some (fill v))

/-- The literal stands in the value of the constant. -/
inductive Declaration.OwnsLiteral : Declaration → (Int64 → Declaration) → Prop where
  | constant {name : String} {value : Expr} {fill : Int64 → Expr} :
      value.HoldsLiteral fill →
      Declaration.OwnsLiteral (.constant name value) fun v => .constant name (fill v)

/-- The place of a literal in a tree, which has its statements and declarations at the places
`holds` and `declares`: the tree with another value there, and the tree without the statement or
constant that owns the literal. -/
inductive LiteralPlace {α : Type} (holds : Statement → (List Statement → α) → Prop)
    (declares : Declaration → (List Declaration → α) → Prop) : (Int64 → α) → α → Prop where
  | statement {s : Statement} {put : List Statement → α} {fill : Int64 → Statement} :
      holds s put → s.OwnsLiteral fill →
      LiteralPlace holds declares (fun v => put [fill v]) (put [])
  | constant {d : Declaration} {put : List Declaration → α} {fill : Int64 → Declaration} :
      declares d put → d.OwnsLiteral fill →
      LiteralPlace holds declares (fun v => put [fill v]) (put [])

/-- A place in a part of a tree is a place in the tree. -/
theorem LiteralPlace.map {α β : Type} {holds : Statement → (List Statement → α) → Prop}
    {declares : Declaration → (List Declaration → α) → Prop}
    {holds' : Statement → (List Statement → β) → Prop}
    {declares' : Declaration → (List Declaration → β) → Prop} {fill : Int64 → α} {left : α}
    (h : LiteralPlace holds declares fill left) (f : α → β)
    (hholds : ∀ {s put}, holds s put → holds' s fun ss => f (put ss))
    (hdeclares : ∀ {d put}, declares d put → declares' d fun ds => f (put ds)) :
    LiteralPlace holds' declares' (fun v => f (fill v)) (f left) := by
  cases h with
  | statement hs howns => exact .statement (hholds hs) howns
  | constant hd howns => exact .constant (hdeclares hd) howns

/-- A literal in a list of statements. -/
abbrev Statement.ListLiteral (ss : List Statement) :
    (Int64 → List Statement) → List Statement → Prop :=
  LiteralPlace (Statement.ListHolds ss) fun _ _ => False

/-- A literal in a statement, and what is left of the statement without its owner: nothing if that
is the statement itself. -/
inductive Statement.Literal (s : Statement) : (Int64 → Statement) → List Statement → Prop where
  | own {fill : Int64 → Statement} : s.OwnsLiteral fill → Statement.Literal s fill []
  | inside {fill : Int64 → Statement} {left : Statement} :
      LiteralPlace s.Holds (fun _ _ => False) fill left → Statement.Literal s fill [left]

theorem Statement.Literal.cons {s : Statement} {fill : Int64 → Statement} {left : List Statement}
    (h : s.Literal fill left) (rest : List Statement) :
    Statement.ListLiteral (s :: rest) (fun v => fill v :: rest) (left ++ rest) := by
  cases h with
  | own howns =>
    have hhere : Statement.ListHolds (s :: rest) s fun ss => ss ++ rest := .here
    exact .statement hhere howns
  | inside h => exact h.map (· :: rest) .inside nofun

/-- A literal in a list of declarations. -/
abbrev Declaration.ListLiteral (ds : List Declaration) :
    (Int64 → List Declaration) → List Declaration → Prop :=
  LiteralPlace (Declaration.ListHolds ds) (Declaration.ListDeclares ds)

theorem Declaration.ListHolds.append_right {ds : List Declaration} {s : Statement}
    {put : List Statement → List Declaration} (h : ListHolds ds s put) (es : List Declaration) :
    ListHolds (ds ++ es) s fun ss => put ss ++ es := by
  induction ds generalizing put with
  | nil => cases h
  | cons d ds ih =>
    cases h with
    | inside hold => exact .inside hold
    | behind h => exact .behind (ih h)

theorem Declaration.ListHolds.append_left {es : List Declaration} {s : Statement}
    {put : List Statement → List Declaration} (h : ListHolds es s put) (ds : List Declaration) :
    ListHolds (ds ++ es) s fun ss => ds ++ put ss := by
  induction ds with
  | nil => exact h
  | cons d ds ih => exact .behind ih

theorem Declaration.ListDeclares.append_right {ds : List Declaration} {d : Declaration}
    {put : List Declaration → List Declaration} (h : ListDeclares ds d put)
    (es : List Declaration) : ListDeclares (ds ++ es) d fun new => put new ++ es := by
  induction ds generalizing put with
  | nil => cases h
  | cons e ds ih =>
    cases h with
    | here => simpa using ListDeclares.here
    | inside hold => exact .inside hold
    | behind h => exact .behind (ih h)

theorem Declaration.ListDeclares.append_left {es : List Declaration} {d : Declaration}
    {put : List Declaration → List Declaration} (h : ListDeclares es d put)
    (ds : List Declaration) : ListDeclares (ds ++ es) d fun new => ds ++ put new := by
  induction ds with
  | nil => exact h
  | cons e ds ih => exact .behind ih

theorem Declaration.OwnsLiteral.cons {d : Declaration} {fill : Int64 → Declaration}
    (h : d.OwnsLiteral fill) (rest : List Declaration) :
    ListLiteral (d :: rest) (fun v => fill v :: rest) rest := by
  have hhere : ListDeclares (d :: rest) d fun ds => ds ++ rest := .here
  exact .constant hhere h

end ModSyntax
