import Mathlib.Data.List.Forall2
import ModSyntax.Print.Module

/-!
# Equations of layouts

A layout succeeds if the layouts that it is made of do. Where a tree may lack a part, the layout is
written with `optional`, which stands for no spans if the part is missing.
-/

namespace ModSyntax

open Layout

/-! ## Layouts that succeed -/

theorem bind_eq_ok {α β : Type} {x : Except InvalidIdentifier α}
    {f : α → Except InvalidIdentifier β} {b : β} :
    x >>= f = .ok b ↔ ∃ a, x = .ok a ∧ f a = .ok b := by
  cases x <;> simp [bind, Except.bind]

theorem map_eq_ok {α β : Type} {x : Except InvalidIdentifier α} {f : α → β} {b : β} :
    f <$> x = .ok b ↔ ∃ a, x = .ok a ∧ f a = b := by
  cases x <;> simp [Functor.map, Except.map]

theorem pure_eq_ok {α : Type} {a b : α} :
    (pure a : Except InvalidIdentifier α) = .ok b ↔ a = b := by
  simp [pure, Except.pure]

theorem forall₂_of_mapM_eq_ok {α β : Type} {f : α → Except InvalidIdentifier β} {as : List α}
    {bs : List β} (h : as.mapM f = .ok bs) : List.Forall₂ (fun a b => f a = .ok b) as bs := by
  induction as generalizing bs with
  | nil =>
    obtain rfl := pure_eq_ok.1 h
    exact .nil
  | cons a as ih =>
    rw [List.mapM_cons] at h
    obtain ⟨b, hb, h⟩ := bind_eq_ok.1 h
    obtain ⟨bs, hbs, h⟩ := bind_eq_ok.1 h
    obtain rfl := pure_eq_ok.1 h
    exact .cons hb (ih hbs)

/-! ## Parts that may be missing -/

/-- The layout of a part, if it is there. -/
def optional {α : Type} (f : α → Except InvalidIdentifier Layout) :
    Option α → Except InvalidIdentifier Layout
  | none => pure []
  | some a => f a

/-- A colon and the type behind it. -/
def typeLayout (q : QualifiedName) : Except InvalidIdentifier Layout := do
  let q ← qualifiedName q
  return [word .colon, space] ++ q

/-- The module that names are imported from, behind its keyword. -/
def sourceLayout (m : String) : Except InvalidIdentifier Layout := do
  let m ← identifier m
  return [word .kwFrom, space] ++ m ++ [space]

theorem Parameters.layout_eq (p : Parameters) :
    p.layout = (do
      let params ← p.params.mapM Parameter.layout
      let result ← optional typeLayout p.result
      return [word .lparen] ++ List.intercalate [word .semicolon, space] params ++ [word .rparen] ++
        result) := by
  obtain ⟨params, result⟩ := p
  cases result <;> simp [Parameters.layout, optional, typeLayout]

theorem Procedure.layout_eq (level : Nat) (n : String) (parameters : Option Parameters)
    (body : Block) (endName : String) :
    Procedure.layout level ⟨n, parameters, body, endName⟩ = (do
      let n ← identifier n
      let parameters ← optional Parameters.layout parameters
      let body ← body.layout level
      let endName ← identifier endName
      return line level ([word .kwProcedure, space] ++ n ++ parameters ++ [word .semicolon]) ++
        body ++ line level ([word .kwEnd, space] ++ endName ++ [word .semicolon])) := by
  cases parameters <;> simp [Procedure.layout, optional]

theorem Import.layout_eq (i : Import) :
    i.layout = (do
      let ns ← identifiers i.names
      let source ← optional sourceLayout i.source
      return line 0 (source ++ [word .kwImport, space] ++ ns ++ [word .semicolon])) := by
  obtain ⟨source, names⟩ := i
  cases source <;> simp [Import.layout, optional, sourceLayout]

end ModSyntax
