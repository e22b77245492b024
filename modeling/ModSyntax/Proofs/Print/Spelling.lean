import ModSyntax.Proofs.Print.Equations
import ModSyntax.Proofs.Scan.Layout

/-!
# Layouts spell trees

Where a tree can be laid out, its layout spells the symbols of the tree: `Module.spells`, with one
law for every kind of tree.
-/

namespace ModSyntax

open Layout

/-! ## Names -/

theorem spells_of_identifier {n : String} {l : Layout} (h : identifier n = .ok l) :
    l.Spells Unstarred Quiet [.identifier n] := by
  unfold identifier at h
  split at h
  · next hn =>
    obtain rfl := Except.ok.inj h
    exact spells_identifier hn
  · cases h

theorem forall₂_identifier {ns : List String} {ls : List Layout} (h : ns.mapM identifier = .ok ls) :
    List.Forall₂ (Spells Unstarred Quiet) ls (ns.map fun n => [.identifier n]) := by
  rw [List.forall₂_map_right_iff]
  exact (forall₂_of_mapM_eq_ok h).flip.imp fun _ _ => spells_of_identifier

theorem spells_of_identifiers {ns : List String} {l : Layout} (h : identifiers ns = .ok l) :
    l.Spells Unstarred Quiet (identifierSymbols ns) := by
  obtain ⟨ls, hls, rfl⟩ := map_eq_ok.1 h
  exact spells_commas (forall₂_identifier hls)

theorem spells_of_qualifiedName {q : QualifiedName} {l : Layout} (h : qualifiedName q = .ok l) :
    l.Spells Unstarred Quiet q.symbols := by
  unfold qualifiedName at h
  split at h
  · cases h
  · obtain ⟨ls, hls, rfl⟩ := map_eq_ok.1 h
    exact spells_intercalate ((spells_mark (by decide)).mono (fun _ h => h) fun _ _ => trivial)
      (forall₂_identifier hls)

/-! ## Expressions -/

theorem spells_sign (sign : Option Sign) :
    Spells Unstarred Unstarred (sign.map (word ·.kind)).toList
      (sign.map (Symbol.ofKind ·.kind)).toList := by
  cases sign with
  | none => exact spells_nil fun _ h => h
  | some sign =>
    refine (spells_mark ?_).mono (fun _ h => h.unstarred) fun _ _ => trivial
    cases sign <;> decide

theorem spells_addOp (op : AddOp) : Spells Quiet Anything (spaced op.kind) [.ofKind op.kind] :=
  spells_spaced (by cases op <;> decide)

theorem spells_mulOp (op : MulOp) : Spells Quiet Anything (spaced op.kind) [.ofKind op.kind] :=
  spells_spaced (by cases op <;> decide)

theorem spells_relation (op : Relation) :
    Spells Quiet Anything (spaced op.kind) [.ofKind op.kind] :=
  spells_spaced (by cases op <;> decide)

/-- Arguments in their brackets. -/
theorem spells_arguments {ls : List Layout} {ws : List (List Symbol)}
    (h : List.Forall₂ (Spells Unstarred Quiet) ls ws) :
    Spells Quiet Quiet ([word .lparen] ++ commas ls ++ [word .rparen])
      (.ofKind .lparen :: (separated (.ofKind .comma) ws ++ [.ofKind .rparen])) := by
  have hclose : Spells Quiet Quiet [word .rparen] [.ofKind .rparen] :=
    (spells_mark (by decide)).mono (fun _ h => h) fun _ _ => trivial
  simpa using (spells_lparen.append (spells_commas h)).append hclose

mutual

theorem Expr.spells (e : Expr) {l : Layout} (h : e.layout = .ok l) :
    l.Spells Unstarred Quiet e.symbols := by
  match e with
  | .simple e => exact e.spells h
  | .compare op left right =>
    obtain ⟨a, ha, h⟩ := bind_eq_ok.1 h
    obtain ⟨b, hb, h⟩ := bind_eq_ok.1 h
    obtain rfl := pure_eq_ok.1 h
    simpa [Expr.symbols] using
      (left.spells ha).append ((spells_relation op).before (right.spells hb))

theorem SimpleExpr.spells (e : SimpleExpr) {l : Layout} (h : e.layout = .ok l) :
    l.Spells Unstarred Quiet e.symbols := by
  match e with
  | ⟨sign, first, rest⟩ =>
    obtain ⟨a, ha, h⟩ := bind_eq_ok.1 h
    obtain ⟨b, hb, h⟩ := bind_eq_ok.1 h
    obtain rfl := pure_eq_ok.1 h
    simpa [SimpleExpr.symbols] using
      (spells_sign sign).append ((first.spells ha).append (Term.spells_tail rest hb))

theorem Term.spells_tail (rest : List (AddOp × Term)) {l : Layout}
    (h : Term.layoutTail rest = .ok l) : l.Spells Quiet Quiet (Term.symbolsTail rest) := by
  match rest with
  | [] =>
    obtain rfl := pure_eq_ok.1 h
    exact spells_nil fun _ h => h
  | (op, t) :: rest =>
    obtain ⟨a, ha, h⟩ := bind_eq_ok.1 h
    obtain ⟨b, hb, h⟩ := bind_eq_ok.1 h
    obtain rfl := pure_eq_ok.1 h
    simpa [Term.symbolsTail] using
      (spells_addOp op).before ((t.spells ha).append (Term.spells_tail rest hb))

theorem Term.spells (t : Term) {l : Layout} (h : t.layout = .ok l) :
    l.Spells Unstarred Quiet t.symbols := by
  match t with
  | ⟨first, rest⟩ =>
    obtain ⟨a, ha, h⟩ := bind_eq_ok.1 h
    obtain ⟨b, hb, h⟩ := bind_eq_ok.1 h
    obtain rfl := pure_eq_ok.1 h
    simpa [Term.symbols] using (first.spells ha).append (Factor.spells_tail rest hb)

theorem Factor.spells_tail (rest : List (MulOp × Factor)) {l : Layout}
    (h : Factor.layoutTail rest = .ok l) : l.Spells Quiet Quiet (Factor.symbolsTail rest) := by
  match rest with
  | [] =>
    obtain rfl := pure_eq_ok.1 h
    exact spells_nil fun _ h => h
  | (op, f) :: rest =>
    obtain ⟨a, ha, h⟩ := bind_eq_ok.1 h
    obtain ⟨b, hb, h⟩ := bind_eq_ok.1 h
    obtain rfl := pure_eq_ok.1 h
    simpa [Factor.symbolsTail] using
      (spells_mulOp op).before ((f.spells ha).append (Factor.spells_tail rest hb))

theorem Factor.spells (f : Factor) {l : Layout} (h : f.layout = .ok l) :
    l.Spells Unstarred Quiet f.symbols := by
  match f with
  | .int value =>
    obtain rfl := pure_eq_ok.1 h
    exact spells_integer value.toInt
  | .paren e =>
    obtain ⟨a, ha, h⟩ := bind_eq_ok.1 h
    obtain rfl := pure_eq_ok.1 h
    simpa [Factor.symbols] using ((spells_lparen.append (e.spells ha)).append
      (spells_mark (k := .rparen) (by decide))).weaken
  | .not f =>
    obtain ⟨a, ha, h⟩ := bind_eq_ok.1 h
    obtain rfl := pure_eq_ok.1 h
    simpa [Factor.symbols] using
      (spells_word (k := .kwNot) (by decide)).append (spells_space.before (f.spells ha))
  | .ref target => exact spells_of_qualifiedName h
  | .call target args =>
    obtain ⟨a, ha, h⟩ := bind_eq_ok.1 h
    obtain ⟨ls, hls, h⟩ := bind_eq_ok.1 h
    obtain rfl := pure_eq_ok.1 h
    simpa [Factor.symbols] using
      (spells_of_qualifiedName ha).append (spells_arguments (Expr.spells_each args hls))

theorem Expr.spells_each (es : List Expr) {ls : List Layout} (h : Expr.layouts es = .ok ls) :
    List.Forall₂ (Spells Unstarred Quiet) ls (Expr.symbolsEach es) := by
  match es with
  | [] =>
    obtain rfl := pure_eq_ok.1 h
    exact .nil
  | e :: rest =>
    obtain ⟨a, ha, h⟩ := bind_eq_ok.1 h
    obtain ⟨b, hb, h⟩ := bind_eq_ok.1 h
    obtain rfl := pure_eq_ok.1 h
    exact .cons (e.spells ha) (Expr.spells_each rest hb)

end

/-! ## Statements -/

/-- A condition between its keywords. -/
theorem spells_condition (k k' : Kind) (hk : k ∈ Kind.keywords) (hk' : k' ∈ Kind.keywords)
    {l : Layout} {w : List Symbol} (h : l.Spells Unstarred Quiet w) :
    Spells Unstarred Quiet ([word k, space] ++ l ++ [space, word k'])
      (.ofKind k :: (w ++ [.ofKind k'])) := by
  simpa using (spells_word hk).append
    (spells_space.before (h.append (spells_space.before (spells_word hk'))))

/-- The end of a statement, on a line of its own. -/
theorem spells_end (level : Nat) :
    Spells Anything Quiet [indent level, word .kwEnd] [.ofKind .kwEnd] :=
  (spells_indent level).before (spells_word (by decide))

mutual

theorem Statement.spells (level : Nat) (s : Statement) {l : Layout} (h : s.layout level = .ok l) :
    l.Spells Anything Quiet s.symbols := by
  match s with
  | .assign target value =>
    obtain ⟨a, ha, h⟩ := bind_eq_ok.1 h
    obtain ⟨b, hb, h⟩ := bind_eq_ok.1 h
    obtain rfl := pure_eq_ok.1 h
    simpa [Statement.symbols] using (spells_indent level).before
      ((spells_of_qualifiedName ha).append
        ((spells_spaced (k := .becomes) (by decide)).before (value.spells hb)))
  | .call target args =>
    obtain ⟨a, ha, h⟩ := bind_eq_ok.1 h
    obtain ⟨ls, hls, h⟩ := bind_eq_ok.1 h
    obtain rfl := pure_eq_ok.1 h
    simpa [Statement.symbols, argumentSymbols] using (spells_indent level).before
      ((spells_of_qualifiedName ha).append (spells_arguments (Expr.spells_each args hls)))
  | .bare target =>
    obtain ⟨a, ha, h⟩ := bind_eq_ok.1 h
    obtain rfl := pure_eq_ok.1 h
    exact (spells_indent level).before (spells_of_qualifiedName ha)
  | .branch cond thenBody none =>
    obtain ⟨a, ha, h⟩ := bind_eq_ok.1 h
    obtain ⟨b, hb, h⟩ := bind_eq_ok.1 h
    obtain rfl := pure_eq_ok.1 h
    have hif :=
      (spells_condition .kwIf .kwThen (by decide) (by decide) (cond.spells ha)).line level
    simpa [Statement.symbols] using
      hif.before ((Statement.spells_list (level + 1) thenBody hb).before (spells_end level))
  | .branch cond thenBody (some elseBody) =>
    obtain ⟨a, ha, h⟩ := bind_eq_ok.1 h
    obtain ⟨b, hb, h⟩ := bind_eq_ok.1 h
    obtain ⟨c, hc, h⟩ := bind_eq_ok.1 h
    obtain rfl := pure_eq_ok.1 h
    have hif :=
      (spells_condition .kwIf .kwThen (by decide) (by decide) (cond.spells ha)).line level
    have helse := (spells_word (k := .kwElse) (by decide)).line level
    simpa [Statement.symbols] using
      hif.before ((Statement.spells_list (level + 1) thenBody hb).before
        (helse.before ((Statement.spells_list (level + 1) elseBody hc).before (spells_end level))))
  | .loop cond body =>
    obtain ⟨a, ha, h⟩ := bind_eq_ok.1 h
    obtain ⟨b, hb, h⟩ := bind_eq_ok.1 h
    obtain rfl := pure_eq_ok.1 h
    have hwhile :=
      (spells_condition .kwWhile .kwDo (by decide) (by decide) (cond.spells ha)).line level
    simpa [Statement.symbols] using
      hwhile.before ((Statement.spells_list (level + 1) body hb).before (spells_end level))
  | .leave none =>
    obtain rfl := pure_eq_ok.1 h
    exact (spells_indent level).before (spells_word (by decide))
  | .leave (some value) =>
    obtain ⟨a, ha, h⟩ := bind_eq_ok.1 h
    obtain rfl := pure_eq_ok.1 h
    simpa [Statement.symbols] using (spells_indent level).before
      ((spells_word (k := .kwReturn) (by decide)).append (spells_space.before (value.spells ha)))

theorem Statement.spells_list (level : Nat) (ss : List Statement) {l : Layout}
    (h : Statement.layoutList level ss = .ok l) :
    l.Spells Anything Anything (Statement.symbolsList ss) := by
  match ss with
  | [] =>
    obtain rfl := pure_eq_ok.1 h
    exact spells_nil fun _ h => h
  | s :: rest =>
    obtain ⟨a, ha, h⟩ := bind_eq_ok.1 h
    obtain ⟨b, hb, h⟩ := bind_eq_ok.1 h
    obtain rfl := pure_eq_ok.1 h
    have hend : Spells Quiet Anything
        (if rest.isEmpty then [newline] else [word .semicolon, newline])
        (if rest.isEmpty then [] else [.ofKind .semicolon]) := by
      split
      · exact spells_newline
      · exact (spells_mark (by decide)).before spells_newline
    simpa [Statement.symbolsList] using
      (Statement.spells level s ha).append (hend.before (Statement.spells_list level rest hb))

end

/-! ## Declarations, blocks and modules -/

/-- A colon and the type behind it. -/
theorem spells_type {q : QualifiedName} {l : Layout} (h : qualifiedName q = .ok l) :
    Spells Quiet Quiet ([word .colon, space] ++ l) (.ofKind .colon :: q.symbols) :=
  spells_colon.append (spells_space.before (spells_of_qualifiedName h))

/-- A part that is missing is no symbols. -/
theorem spells_optional {α : Type} {A : List Char → Prop} {f : α → Except InvalidIdentifier Layout}
    {g : α → List Symbol} {a? : Option α} {l : Layout} (h : optional f a? = .ok l)
    (hf : ∀ a l, f a = .ok l → l.Spells A A (g a)) : l.Spells A A ((a?.map g).getD []) := by
  cases a? with
  | none =>
    obtain rfl := pure_eq_ok.1 h
    exact spells_nil fun _ h => h
  | some a => exact hf a l h

theorem Parameter.spells {p : Parameter} {l : Layout} (h : p.layout = .ok l) :
    l.Spells Unstarred Quiet p.symbols := by
  obtain ⟨a, ha, h⟩ := bind_eq_ok.1 h
  obtain ⟨b, hb, h⟩ := bind_eq_ok.1 h
  obtain rfl := pure_eq_ok.1 h
  have hvar : Spells Unstarred Unstarred (if p.byReference then [word .kwVar, space] else [])
      (if p.byReference then [.ofKind .kwVar] else []) := by
    split
    · exact ((spells_word (by decide)).append spells_space).mono (fun _ h => h) fun _ _ => trivial
    · exact spells_nil fun _ h => h
  simpa [Parameter.symbols] using hvar.append ((spells_of_identifiers ha).append (spells_type hb))

theorem Parameters.spells {p : Parameters} {l : Layout} (h : p.layout = .ok l) :
    l.Spells Quiet Quiet p.symbols := by
  rw [Parameters.layout_eq] at h
  obtain ⟨ls, hls, h⟩ := bind_eq_ok.1 h
  obtain ⟨r, hr, h⟩ := bind_eq_ok.1 h
  obtain rfl := pure_eq_ok.1 h
  have hresult := spells_optional hr fun q l hl => by
    obtain ⟨c, hc, hl⟩ := bind_eq_ok.1 hl
    obtain rfl := pure_eq_ok.1 hl
    exact spells_type hc
  have hparams : Spells Unstarred Quiet (List.intercalate [word .semicolon, space] ls)
      (separated (.ofKind .semicolon) (p.params.map Parameter.symbols)) := by
    refine spells_intercalate (((spells_mark (by decide)).before spells_space).mono (fun _ h => h)
      fun _ _ => trivial) ?_
    rw [List.forall₂_map_right_iff]
    exact (forall₂_of_mapM_eq_ok hls).flip.imp fun _ _ => Parameter.spells
  have hclose := spells_mark (k := .rparen) (by decide)
  simpa [Parameters.symbols] using
    spells_lparen.append (hparams.append (hclose.before hresult))

/-- A line that ends with a mark. -/
theorem spells_line_mark (level : Nat) {k : Kind} (hk : k ∈ looseMarks) {A : List Char → Prop}
    {l : Layout} {w : List Symbol} (h : l.Spells A Quiet w) :
    Spells Anything Anything (line level (l ++ [word k])) (w ++ [.ofKind k]) :=
  ((h.append (spells_mark hk)).mono (fun _ h => h) fun _ _ => trivial).line level

/-- The last line of a module or a procedure. -/
theorem spells_closing (level : Nat) {k : Kind} (hk : k ∈ looseMarks) {n : String} {l : Layout}
    (h : identifier n = .ok l) :
    Spells Anything Anything (line level ([word .kwEnd, space] ++ l ++ [word k]))
      [.ofKind .kwEnd, .identifier n, .ofKind k] :=
  spells_line_mark level hk
    ((spells_word (by decide)).append (spells_space.before (spells_of_identifier h)))

mutual

theorem Declaration.spells (level : Nat) (d : Declaration) {l : Layout}
    (h : d.layout level = .ok l) : l.Spells Anything Anything d.symbols := by
  match d with
  | .constant n value =>
    obtain ⟨a, ha, h⟩ := bind_eq_ok.1 h
    obtain ⟨b, hb, h⟩ := bind_eq_ok.1 h
    obtain rfl := pure_eq_ok.1 h
    have hequal := (spells_spaced (k := .equal) (by decide)).before (value.spells hb)
    simpa [Declaration.symbols] using spells_line_mark (k := .semicolon) level (by decide)
      ((spells_word (k := .kwConst) (by decide)).append (spells_space.before
        ((spells_of_identifier ha).append hequal)))
  | .vars ns typeName =>
    obtain ⟨a, ha, h⟩ := bind_eq_ok.1 h
    obtain ⟨b, hb, h⟩ := bind_eq_ok.1 h
    obtain rfl := pure_eq_ok.1 h
    simpa [Declaration.symbols] using spells_line_mark (k := .semicolon) level (by decide)
      ((spells_word (k := .kwVar) (by decide)).append (spells_space.before
        ((spells_of_identifiers ha).append (spells_type hb))))
  | .procedure p => exact p.spells level h

theorem Procedure.spells (level : Nat) (p : Procedure) {l : Layout} (h : p.layout level = .ok l) :
    l.Spells Anything Anything p.symbols := by
  match p with
  | ⟨n, parameters, body, endName⟩ =>
    rw [Procedure.layout_eq] at h
    obtain ⟨a, ha, h⟩ := bind_eq_ok.1 h
    obtain ⟨b, hb, h⟩ := bind_eq_ok.1 h
    obtain ⟨c, hc, h⟩ := bind_eq_ok.1 h
    obtain ⟨d, hd, h⟩ := bind_eq_ok.1 h
    obtain rfl := pure_eq_ok.1 h
    have hparams := spells_optional hb fun _ _ => Parameters.spells
    have hheading := spells_line_mark (k := .semicolon) level (by decide)
      ((spells_word (k := .kwProcedure) (by decide)).append (spells_space.before
        ((spells_of_identifier ha).append hparams)))
    simpa [Procedure.symbols] using hheading.before
      ((body.spells level hc).before (spells_closing (k := .semicolon) level (by decide) hd))

theorem Block.spells (level : Nat) (b : Block) {l : Layout} (h : b.layout level = .ok l) :
    l.Spells Anything Anything b.symbols := by
  match b with
  | ⟨declarations, statements⟩ =>
    obtain ⟨a, ha, h⟩ := bind_eq_ok.1 h
    obtain ⟨b, hb, h⟩ := bind_eq_ok.1 h
    obtain rfl := pure_eq_ok.1 h
    have hbegin : Spells Anything Anything
        (if statements.isEmpty then [] else line level [word .kwBegin])
        (if statements.isEmpty then [] else [.ofKind .kwBegin]) := by
      split
      · exact spells_nil fun _ h => h
      · exact (spells_word (by decide)).line level
    simpa [Block.symbols] using (Declaration.spells_list (level + 1) declarations ha).before
      (hbegin.before (Statement.spells_list (level + 1) statements hb))

theorem Declaration.spells_list (level : Nat) (ds : List Declaration) {l : Layout}
    (h : Declaration.layoutList level ds = .ok l) :
    l.Spells Anything Anything (Declaration.symbolsList ds) := by
  match ds with
  | [] =>
    obtain rfl := pure_eq_ok.1 h
    exact spells_nil fun _ h => h
  | d :: rest =>
    obtain ⟨a, ha, h⟩ := bind_eq_ok.1 h
    obtain ⟨b, hb, h⟩ := bind_eq_ok.1 h
    obtain rfl := pure_eq_ok.1 h
    exact (d.spells level ha).before (Declaration.spells_list level rest hb)

end

theorem Import.spells {i : Import} {l : Layout} (h : i.layout = .ok l) :
    l.Spells Anything Anything i.symbols := by
  rw [Import.layout_eq] at h
  obtain ⟨a, ha, h⟩ := bind_eq_ok.1 h
  obtain ⟨b, hb, h⟩ := bind_eq_ok.1 h
  obtain rfl := pure_eq_ok.1 h
  have hsource : b.Spells Unstarred Unstarred
      ((i.source.map fun m => [.ofKind .kwFrom, .identifier m]).getD []) := by
    refine spells_optional hb fun m l hl => ?_
    obtain ⟨c, hc, hl⟩ := bind_eq_ok.1 hl
    obtain rfl := pure_eq_ok.1 hl
    simpa using ((spells_word (k := .kwFrom) (by decide)).append (spells_space.before
      ((spells_of_identifier hc).append spells_space))).mono (fun _ h => h) fun _ _ => trivial
  simpa [Import.symbols] using spells_line_mark (k := .semicolon) 0 (by decide)
    (hsource.append ((spells_word (k := .kwImport) (by decide)).append
      (spells_space.before (spells_of_identifiers ha))))

theorem spells_imports {is : List Import} {ls : List Layout}
    (h : List.Forall₂ (fun i l => i.layout = .ok l) is ls) :
    Spells Anything Anything ls.flatten (is.flatMap Import.symbols) := by
  induction h with
  | nil => exact spells_nil fun _ h => h
  | cons hi _ ih => exact (Import.spells hi).before ih

/-- The layout of a module spells its symbols. -/
theorem Module.spells {m : Module} {l : Layout} (h : m.layout = .ok l) :
    l.Spells Anything Anything m.symbols := by
  obtain ⟨a, ha, h⟩ := bind_eq_ok.1 h
  obtain ⟨ls, hls, h⟩ := bind_eq_ok.1 h
  obtain ⟨c, hc, h⟩ := bind_eq_ok.1 h
  obtain ⟨d, hd, h⟩ := bind_eq_ok.1 h
  obtain rfl := pure_eq_ok.1 h
  have hheading := spells_line_mark (k := .semicolon) 0 (by decide)
    ((spells_word (k := .kwModule) (by decide)).append
      (spells_space.before (spells_of_identifier ha)))
  simpa [Module.symbols] using hheading.before ((spells_imports (forall₂_of_mapM_eq_ok hls)).before
    ((m.block.spells 0 hc).before (spells_closing (k := .period) 0 (by decide) hd)))

end ModSyntax
