import ModSyntax.Tree.Module

/-!
# Places in a tree

A tree holds a statement at a place, however deep inside it. The function that comes with the place
puts other statements there, any number of them, and leaves the rest of the tree as it is. The same
goes for declarations.
-/

namespace ModSyntax

mutual

/-- The first statement holds the second in one of its bodies. -/
inductive Statement.Holds : Statement → Statement → (List Statement → Statement) → Prop where
  | thenBody {cond : Expr} {body : List Statement} {elseBody : Option (List Statement)}
      {s : Statement} {fill : List Statement → List Statement} :
      Statement.ListHolds body s fill →
      Statement.Holds (.branch cond body elseBody) s fun ss => .branch cond (fill ss) elseBody
  | elseBody {cond : Expr} {thenBody body : List Statement} {s : Statement}
      {fill : List Statement → List Statement} :
      Statement.ListHolds body s fill →
      Statement.Holds (.branch cond thenBody (some body)) s
        fun ss => .branch cond thenBody (some (fill ss))
  | loopBody {cond : Expr} {body : List Statement} {s : Statement}
      {fill : List Statement → List Statement} :
      Statement.ListHolds body s fill →
      Statement.Holds (.loop cond body) s fun ss => .loop cond (fill ss)

/-- One of the statements is the one at the place, or holds it. -/
inductive Statement.ListHolds :
    List Statement → Statement → (List Statement → List Statement) → Prop where
  | here {s : Statement} {rest : List Statement} :
      Statement.ListHolds (s :: rest) s fun ss => ss ++ rest
  | inside {t s : Statement} {rest : List Statement} {fill : List Statement → Statement} :
      Statement.Holds t s fill → Statement.ListHolds (t :: rest) s fun ss => fill ss :: rest
  | behind {t s : Statement} {rest : List Statement} {fill : List Statement → List Statement} :
      Statement.ListHolds rest s fill → Statement.ListHolds (t :: rest) s fun ss => t :: fill ss

end

mutual

/-- The declaration is a procedure with the statement in its block. -/
inductive Declaration.Holds : Declaration → Statement → (List Statement → Declaration) → Prop where
  | procedure {name endName : String} {parameters : Option Parameters} {body : Block}
      {s : Statement} {fill : List Statement → Block} :
      Block.Holds body s fill →
      Declaration.Holds (.procedure ⟨name, parameters, body, endName⟩) s
        fun ss => .procedure ⟨name, parameters, fill ss, endName⟩

inductive Declaration.ListHolds :
    List Declaration → Statement → (List Statement → List Declaration) → Prop where
  | inside {d : Declaration} {rest : List Declaration} {s : Statement}
      {fill : List Statement → Declaration} :
      Declaration.Holds d s fill → Declaration.ListHolds (d :: rest) s fun ss => fill ss :: rest
  | behind {d : Declaration} {rest : List Declaration} {s : Statement}
      {fill : List Statement → List Declaration} :
      Declaration.ListHolds rest s fill → Declaration.ListHolds (d :: rest) s fun ss => d :: fill ss

/-- The statement stands in the body of the block, or in a procedure of the block. -/
inductive Block.Holds : Block → Statement → (List Statement → Block) → Prop where
  | declarations {ds : List Declaration} {body : List Statement} {s : Statement}
      {fill : List Statement → List Declaration} :
      Declaration.ListHolds ds s fill → Block.Holds ⟨ds, body⟩ s fun ss => ⟨fill ss, body⟩
  | statements {ds : List Declaration} {body : List Statement} {s : Statement}
      {fill : List Statement → List Statement} :
      Statement.ListHolds body s fill → Block.Holds ⟨ds, body⟩ s fun ss => ⟨ds, fill ss⟩

end

/-- The statement stands in the module; all but the block of the module is left as it is. -/
inductive Module.Holds : Module → Statement → (List Statement → Module) → Prop where
  | block {name endName : String} {imports : List Import} {b : Block} {s : Statement}
      {fill : List Statement → Block} :
      b.Holds s fill →
      Module.Holds ⟨name, imports, b, endName⟩ s fun ss => ⟨name, imports, fill ss, endName⟩

/-- Where no declaration before them holds a statement, it is held by those behind. -/
theorem Declaration.ListHolds.of_append {ds es : List Declaration} {s : Statement}
    {fill : List Statement → List Declaration} (hds : ∀ d ∈ ds, ∀ s fill, ¬d.Holds s fill)
    (h : ListHolds (ds ++ es) s fill) :
    ∃ fill', ListHolds es s fill' ∧ fill = fun ss => ds ++ fill' ss := by
  induction ds generalizing fill with
  | nil => exact ⟨fill, h, rfl⟩
  | cons d ds ih =>
    obtain ⟨hd, hds⟩ := List.forall_mem_cons.1 hds
    cases h with
    | inside hold => exact absurd hold (hd _ _)
    | behind h =>
      obtain ⟨fill', hes, rfl⟩ := ih hds h
      exact ⟨fill', hes, rfl⟩

/-! ## Declarations -/

mutual

/-- The first declaration is a procedure with the second in its block. -/
inductive Declaration.Declares :
    Declaration → Declaration → (List Declaration → Declaration) → Prop where
  | procedure {name endName : String} {parameters : Option Parameters} {body : Block}
      {d : Declaration} {fill : List Declaration → Block} :
      Block.Declares body d fill →
      Declaration.Declares (.procedure ⟨name, parameters, body, endName⟩) d
        fun ds => .procedure ⟨name, parameters, fill ds, endName⟩

/-- One of the declarations is the one at the place, or has it in its block. -/
inductive Declaration.ListDeclares :
    List Declaration → Declaration → (List Declaration → List Declaration) → Prop where
  | here {d : Declaration} {rest : List Declaration} :
      Declaration.ListDeclares (d :: rest) d fun ds => ds ++ rest
  | inside {e d : Declaration} {rest : List Declaration} {fill : List Declaration → Declaration} :
      Declaration.Declares e d fill →
      Declaration.ListDeclares (e :: rest) d fun ds => fill ds :: rest
  | behind {e d : Declaration} {rest : List Declaration}
      {fill : List Declaration → List Declaration} :
      Declaration.ListDeclares rest d fill →
      Declaration.ListDeclares (e :: rest) d fun ds => e :: fill ds

/-- The declaration stands in the block, or in a procedure of the block. -/
inductive Block.Declares : Block → Declaration → (List Declaration → Block) → Prop where
  | declarations {ds : List Declaration} {body : List Statement} {d : Declaration}
      {fill : List Declaration → List Declaration} :
      Declaration.ListDeclares ds d fill → Block.Declares ⟨ds, body⟩ d fun es => ⟨fill es, body⟩

end

/-- The declaration stands in the module; all but the block of the module is left as it is. -/
inductive Module.Declares : Module → Declaration → (List Declaration → Module) → Prop where
  | block {name endName : String} {imports : List Import} {b : Block} {d : Declaration}
      {fill : List Declaration → Block} :
      b.Declares d fill →
      Module.Declares ⟨name, imports, b, endName⟩ d fun ds => ⟨name, imports, fill ds, endName⟩

/-- A place in two lists together is a place in one of them. -/
theorem Declaration.ListDeclares.append_cases {ds es : List Declaration} {d : Declaration}
    {fill : List Declaration → List Declaration} (h : ListDeclares (ds ++ es) d fill) :
    (∃ fill', ListDeclares ds d fill' ∧ fill = fun new => fill' new ++ es) ∨
      ∃ fill', ListDeclares es d fill' ∧ fill = fun new => ds ++ fill' new := by
  induction ds generalizing fill with
  | nil => exact .inr ⟨fill, h, rfl⟩
  | cons e ds ih =>
    cases h with
    | here => exact .inl ⟨_, .here, by simp⟩
    | inside hold => exact .inl ⟨_, .inside hold, by simp⟩
    | behind h =>
      rcases ih h with ⟨fill', hds, rfl⟩ | ⟨fill', hes, rfl⟩
      · exact .inl ⟨_, .behind hds, by simp⟩
      · exact .inr ⟨fill', hes, by simp⟩

end ModSyntax
