import ModSyntax.Proofs.Print.Equations
import ModSyntax.Proofs.Tree.Parts

/-!
# Which trees can be laid out

Laying out a tree checks its names one by one, in the order of its parts, and refuses the first that
is no identifier. `Checks ps x` says that the layout `x` fails exactly as the check of the parts
`ps` does; `Module.checks` says so of modules, and `Module.print_refuses_first` names the one that
is refused.
-/

namespace ModSyntax

open Layout

/-- A name has to be an identifier. -/
def Part.check : Part → Except InvalidIdentifier Unit
  | .name n => if isIdentifier n then .ok () else .error ⟨n⟩
  | .literal _ | .names _ => .ok ()

/-- The first name that is no identifier is refused. -/
def checkParts (ps : List Part) : Except InvalidIdentifier Unit := ps.forM Part.check

/-- The layout fails if a name is refused, with that name. -/
def Checks {α : Type} (ps : List Part) (x : Except InvalidIdentifier α) : Prop :=
  (fun _ => ()) <$> x = checkParts ps

variable {α β : Type} {ps qs : List Part} {x : Except InvalidIdentifier α}

theorem checkParts_append (ps qs : List Part) :
    checkParts (ps ++ qs) = checkParts ps >>= fun _ => checkParts qs := by
  simp [checkParts]

theorem checkParts_cons (p : Part) (ps : List Part) :
    checkParts (p :: ps) = p.check >>= fun _ => checkParts ps := rfl

/-- The first name that is no identifier is the one that the check fails with. -/
theorem checkParts_eq_error_iff {e : InvalidIdentifier} :
    checkParts ps = .error e ↔ (namesOf ps).find? (!isIdentifier ·) = some e.name := by
  induction ps with
  | nil => simp [checkParts, namesOf, pure, Except.pure]
  | cons p ps ih =>
    rw [checkParts_cons]
    cases p with
    | name n =>
      cases hn : isIdentifier n with
      | true => simpa [Part.check, hn, bind, Except.bind] using ih
      | false =>
        obtain ⟨n'⟩ := e
        simp [Part.check, hn, bind, Except.bind]
    | literal value => exact ih
    | names ns => exact ih

namespace Checks

/-- A layout fails exactly with the first name that is no identifier. -/
theorem eq_error_iff {e : InvalidIdentifier} (hx : Checks ps x) :
    x = .error e ↔ (namesOf ps).find? (!isIdentifier ·) = some e.name := by
  rw [← checkParts_eq_error_iff, ← hx]
  cases x <;> simp [Functor.map, Except.map]

/-- A layout succeeds exactly if every name is an identifier. -/
theorem exists_ok_iff (hx : Checks ps x) :
    (∃ a, x = .ok a) ↔ ∀ n, .name n ∈ ps → isIdentifier n = true := by
  simp only [← mem_namesOf]
  constructor
  · rintro ⟨a, rfl⟩ n hn
    cases hfind : (namesOf ps).find? (!isIdentifier ·) with
    | none => simpa using List.find?_eq_none.1 hfind n hn
    | some n' => exact nomatch hx.eq_error_iff (e := ⟨n'⟩).2 hfind
  · intro hnames
    cases x with
    | ok a => exact ⟨a, rfl⟩
    | error e =>
      have hfind := hx.eq_error_iff.1 rfl
      simpa [hnames _ (List.mem_of_find?_eq_some hfind)] using List.find?_some hfind

/-- A layout that fails does so for a name that is no identifier. -/
theorem of_error {e : InvalidIdentifier} (hx : Checks ps x) (h : x = .error e) :
    .name e.name ∈ ps ∧ isIdentifier e.name = false := by
  have hfind := hx.eq_error_iff.1 h
  exact ⟨mem_namesOf.1 (List.mem_of_find?_eq_some hfind), by simpa using List.find?_some hfind⟩

theorem pure (a : α) : Checks [] (pure a : Except InvalidIdentifier α) := rfl

theorem bind {f : α → Except InvalidIdentifier β} (hx : Checks ps x)
    (hf : ∀ a, Checks qs (f a)) : Checks (ps ++ qs) (x >>= f) := by
  unfold Checks at *
  rw [checkParts_append, ← hx]
  cases x with
  | error e => rfl
  | ok a => exact hf a

theorem bind_pure {f : α → β} (hx : Checks ps x) : Checks ps (x >>= fun a => Pure.pure (f a)) := by
  unfold Checks at *
  rw [← hx]
  cases x <;> rfl

theorem map {f : α → β} (hx : Checks ps x) : Checks ps (f <$> x) := by
  rw [← bind_pure_comp]
  exact hx.bind_pure

theorem mapM {γ : Type} {f : γ → Except InvalidIdentifier α} {g : γ → List Part}
    (h : ∀ c, Checks (g c) (f c)) (cs : List γ) : Checks (cs.flatMap g) (cs.mapM f) := by
  induction cs with
  | nil => exact .pure []
  | cons c cs ih =>
    rw [List.mapM_cons]
    exact (h c).bind fun a => ih.bind_pure

theorem optional {γ : Type} {f : γ → Except InvalidIdentifier Layout} {g : γ → List Part}
    (h : ∀ c, Checks (g c) (f c)) (c? : Option γ) :
    Checks ((c?.map g).getD []) (ModSyntax.optional f c?) := by
  cases c? with
  | none => exact .pure []
  | some c => exact h c

end Checks

/-! ## Names -/

theorem checks_identifier (n : String) : Checks [.name n] (identifier n) := by
  unfold identifier Checks checkParts
  cases h : isIdentifier n <;> simp [Part.check, h]

theorem checks_names (ns : List String) : Checks (ns.map .name) (ns.mapM identifier) := by
  rw [List.map_eq_flatMap]
  exact .mapM checks_identifier ns

theorem checks_identifiers (ns : List String) : Checks (nameParts ns) (identifiers ns) :=
  (checks_names ns).map

theorem checks_qualifiedName (q : QualifiedName) : Checks q.parts (qualifiedName q) := by
  unfold QualifiedName.parts qualifiedName
  split
  · rfl
  · exact (checks_names q.segments).map

/-! ## Expressions -/

mutual

theorem Expr.checks (e : Expr) : Checks e.parts e.layout := by
  match e with
  | .simple e => exact e.checks
  | .compare op left right => exact left.checks.bind fun _ => right.checks.bind_pure

theorem SimpleExpr.checks (e : SimpleExpr) : Checks e.parts e.layout := by
  match e with
  | ⟨_, first, rest⟩ => exact first.checks.bind fun _ => (Term.checks_tail rest).bind_pure

theorem Term.checks_tail (rest : List (AddOp × Term)) :
    Checks (Term.partsTail rest) (Term.layoutTail rest) := by
  match rest with
  | [] => exact .pure []
  | (_, t) :: rest => exact t.checks.bind fun _ => (Term.checks_tail rest).bind_pure

theorem Term.checks (t : Term) : Checks t.parts t.layout := by
  match t with
  | ⟨first, rest⟩ => exact first.checks.bind fun _ => (Factor.checks_tail rest).bind_pure

theorem Factor.checks_tail (rest : List (MulOp × Factor)) :
    Checks (Factor.partsTail rest) (Factor.layoutTail rest) := by
  match rest with
  | [] => exact .pure []
  | (_, f) :: rest => exact f.checks.bind fun _ => (Factor.checks_tail rest).bind_pure

theorem Factor.checks (f : Factor) : Checks f.parts f.layout := by
  match f with
  | .int _ => rfl
  | .paren e => exact e.checks.bind_pure
  | .not f => exact f.checks.bind_pure
  | .ref target => exact checks_qualifiedName target
  | .call target args =>
    exact (checks_qualifiedName target).bind fun _ => (Expr.checks_each args).bind_pure

theorem Expr.checks_each (es : List Expr) : Checks (Expr.partsList es) (Expr.layouts es) := by
  match es with
  | [] => exact .pure []
  | e :: rest => exact e.checks.bind fun _ => (Expr.checks_each rest).bind_pure

end

/-! ## Statements -/

mutual

theorem Statement.checks (level : Nat) (s : Statement) : Checks s.parts (s.layout level) := by
  match s with
  | .assign target value =>
    exact (checks_qualifiedName target).bind fun _ => value.checks.bind_pure
  | .call target args =>
    exact (checks_qualifiedName target).bind fun _ => (Expr.checks_each args).bind_pure
  | .bare target => exact (checks_qualifiedName target).bind_pure
  | .branch cond thenBody none =>
    exact cond.checks.bind fun _ => (Statement.checks_list _ thenBody).bind_pure
  | .branch cond thenBody (some elseBody) =>
    exact cond.checks.bind fun _ =>
      (Statement.checks_list _ thenBody).bind fun _ => (Statement.checks_list _ elseBody).bind_pure
  | .loop cond body => exact cond.checks.bind fun _ => (Statement.checks_list _ body).bind_pure
  | .leave none => exact .pure _
  | .leave (some value) => exact value.checks.bind_pure

theorem Statement.checks_list (level : Nat) (ss : List Statement) :
    Checks (Statement.partsList ss) (Statement.layoutList level ss) := by
  match ss with
  | [] => exact .pure []
  | s :: rest => exact (s.checks level).bind fun _ => (Statement.checks_list level rest).bind_pure

end

/-! ## Declarations, blocks and modules -/

theorem Parameter.checks (p : Parameter) : Checks p.parts p.layout :=
  (checks_identifiers p.names).bind fun _ => (checks_qualifiedName p.typeName).bind_pure

theorem Parameters.checks (p : Parameters) : Checks p.parts p.layout := by
  rw [Parameters.layout_eq]
  exact (Checks.mapM Parameter.checks p.params).bind fun _ =>
    (Checks.optional (fun q => (checks_qualifiedName q).bind_pure) p.result).bind_pure

mutual

theorem Declaration.checks (level : Nat) (d : Declaration) : Checks d.parts (d.layout level) := by
  match d with
  | .constant n value => exact (checks_identifier n).bind fun _ => value.checks.bind_pure
  | .vars ns typeName =>
    exact (checks_identifiers ns).bind fun _ => (checks_qualifiedName typeName).bind_pure
  | .procedure p => exact p.checks level

theorem Procedure.checks (level : Nat) (p : Procedure) : Checks p.parts (p.layout level) := by
  match p with
  | ⟨n, parameters, body, endName⟩ =>
    rw [Procedure.layout_eq]
    exact (checks_identifier n).bind fun _ =>
      (Checks.optional Parameters.checks parameters).bind fun _ =>
        (body.checks level).bind fun _ => (checks_identifier endName).bind_pure

theorem Block.checks (level : Nat) (b : Block) : Checks b.parts (b.layout level) := by
  match b with
  | ⟨declarations, statements⟩ =>
    exact (Declaration.checks_list _ declarations).bind fun _ =>
      (Statement.checks_list _ statements).bind_pure

theorem Declaration.checks_list (level : Nat) (ds : List Declaration) :
    Checks (Declaration.partsList ds) (Declaration.layoutList level ds) := by
  match ds with
  | [] => exact .pure []
  | d :: rest =>
    exact (d.checks level).bind fun _ => (Declaration.checks_list level rest).bind_pure

end

theorem Import.checks (i : Import) : Checks i.parts i.layout := by
  rw [Import.layout_eq]
  have hs : Checks (i.source.map Part.name).toList (optional sourceLayout i.source) := by
    cases i.source with
    | none => exact .pure []
    | some m => exact (checks_identifier m).bind_pure
  exact (checks_identifiers i.names).bind fun _ => hs.bind_pure

theorem Module.checks_layout (m : Module) : Checks m.parts m.layout :=
  (checks_identifier m.name).bind fun _ =>
    (Checks.mapM Import.checks m.imports).bind fun _ =>
      (m.block.checks 0).bind fun _ => (checks_identifier m.endName).bind_pure

/-- Printing a module fails exactly as the check of its parts does. -/
theorem Module.checks (m : Module) : Checks m.parts m.print := m.checks_layout.map

/-- A module is printed exactly if all its names are identifiers. Otherwise it is refused with the
first of them that is none. -/
theorem Module.print_refuses_first (m : Module) :
    ((∃ text, m.print = .ok text) ↔ ∀ n ∈ m.names, isIdentifier n = true) ∧
    ∀ n, m.print = .error ⟨n⟩ ↔ m.names.find? (!isIdentifier ·) = some n := by
  refine ⟨?_, fun n => m.checks.eq_error_iff⟩
  rw [m.checks.exists_ok_iff]
  simp only [names, mem_namesOf]

/-- Of the names that are no identifiers, the one that stands last in the line of the import is
found first: the names of an import are checked before the module that they come from. -/
example :
    let m : Module := ⟨"M", [⟨some "END", ["Write", "2nd"]⟩], ⟨[], [.bare ⟨[]⟩]⟩, "M"⟩
    m.names = ["M", "Write", "2nd", "END", "", "M"] ∧ m.print = .error ⟨"2nd"⟩ := by
  decide

end ModSyntax
