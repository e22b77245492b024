import ModSyntax.Proofs.Completeness
import ModSyntax.Proofs.Scan.Layout
import ModSyntax.Proofs.Tree.Parts

/-!
# Reading the symbols of a tree

The symbols of a tree are read as that tree, if its parts are proper. Names and expressions are
phrases of the grammar. Statements need not be: a body may be empty, and then the parser gives the
same tree with a report for each empty body.
-/

namespace ModSyntax

/-! ## Literals and names -/

theorem naturalValue?_toString (n : Nat) : naturalValue? (toString n).toList = some n := by
  obtain ⟨hne, hdigit⟩ := Layout.toList_toString n
  unfold naturalValue?
  rw [if_pos ⟨hne, List.all_eq_true.2 hdigit⟩, Nat.toString_eq_ofList_toDigits,
    String.toList_ofList, Nat.ofDigitChars_ten_toDigits]

/-- The digits of a literal without a sign stand for its value. -/
theorem literalValue?_toString {value : Int64} (h : 0 ≤ value.toInt) :
    literalValue? (toString value.toInt.natAbs) = some value := by
  rw [literalValue?_of_digits (Layout.toList_toString _).2, naturalValue?_toString,
    Option.bind_some, Int.natAbs_of_nonneg h, inInt64?_toInt]

theorem derives_moreSegments (ns : List String) :
    Derives .moreSegments ((ns.map fun n => [Symbol.identifier n]).flatMap (.ofKind .period :: ·))
      ns := by
  induction ns with
  | nil => exact .noMoreSegments
  | cons n ns ih => exact .moreSegments ih

theorem QualifiedName.derives (q : QualifiedName) (h : ∀ p ∈ q.parts, p.Proper) :
    Derives .qualident q.symbols q := by
  match q with
  | ⟨[]⟩ => exact absurd (h (.name "") (.head _)) (by decide)
  | ⟨n :: ns⟩ => exact .qualident (derives_moreSegments ns)

theorem derives_moreNames (ns : List String) :
    Derives .moreNames ((ns.map fun n => [Symbol.identifier n]).flatMap (.ofKind .comma :: ·))
      ns := by
  induction ns with
  | nil => exact .noMoreNames
  | cons n ns ih => exact .moreNames ih

theorem derives_identList {ns : List String} (h : ∀ p ∈ nameParts ns, p.Proper) :
    Derives .identList (identifierSymbols ns) ns := by
  match ns with
  | [] => exact absurd rfl (h (.names []) (.head _))
  | n :: ns => exact .identList (derives_moreNames ns)

/-! ## Expressions -/

mutual

theorem Expr.derives (e : Expr) (h : ∀ p ∈ e.parts, p.Proper) : Derives .expr e.symbols e := by
  match e with
  | .simple e => exact .simple (e.derives h)
  | .compare op left right =>
    obtain ⟨hleft, hright⟩ := List.forall_mem_append.1 h
    exact .compare op (left.derives hleft) (right.derives hright)

theorem SimpleExpr.derives (e : SimpleExpr) (h : ∀ p ∈ e.parts, p.Proper) :
    Derives .simpleExpr e.symbols e := by
  match e with
  | ⟨sign, first, rest⟩ =>
    obtain ⟨hfirst, hrest⟩ := List.forall_mem_append.1 h
    match sign with
    | none =>
      exact .unsigned (u := first.symbols) (first.derives hfirst) (Term.derives_tail rest hrest)
    | some sign =>
      exact .signed (u := first.symbols) sign (first.derives hfirst) (Term.derives_tail rest hrest)

theorem Term.derives_tail (rest : List (AddOp × Term)) (h : ∀ p ∈ Term.partsTail rest, p.Proper) :
    Derives .moreTerms (Term.symbolsTail rest) rest := by
  match rest with
  | [] => exact .noMoreTerms
  | (op, t) :: rest =>
    obtain ⟨ht, hrest⟩ := List.forall_mem_append.1 h
    exact .moreTerms op (t.derives ht) (Term.derives_tail rest hrest)

theorem Term.derives (t : Term) (h : ∀ p ∈ t.parts, p.Proper) : Derives .term t.symbols t := by
  match t with
  | ⟨first, rest⟩ =>
    obtain ⟨hfirst, hrest⟩ := List.forall_mem_append.1 h
    exact .term (first.derives hfirst) (Factor.derives_tail rest hrest)

theorem Factor.derives_tail (rest : List (MulOp × Factor))
    (h : ∀ p ∈ Factor.partsTail rest, p.Proper) :
    Derives .moreFactors (Factor.symbolsTail rest) rest := by
  match rest with
  | [] => exact .noMoreFactors
  | (op, f) :: rest =>
    obtain ⟨hf, hrest⟩ := List.forall_mem_append.1 h
    exact .moreFactors op (f.derives hf) (Factor.derives_tail rest hrest)

theorem Factor.derives (f : Factor) (h : ∀ p ∈ f.parts, p.Proper) :
    Derives .factor f.symbols f := by
  match f with
  | .int value =>
    have hvalue : 0 ≤ value.toInt := h (.literal value) (.head _)
    rw [Factor.symbols, integerSymbols, if_neg (Int.not_lt.2 hvalue)]
    exact .int (literalValue?_toString hvalue)
  | .paren e => exact .paren (e.derives h)
  | .not f => exact .not (f.derives h)
  | .ref target => exact .ref (target.derives h)
  | .call target args =>
    obtain ⟨htarget, hargs⟩ := List.forall_mem_append.1 h
    exact .call (target.derives htarget) (Expr.derives_arguments args hargs)

theorem Expr.derives_arguments (es : List Expr) (h : ∀ p ∈ Expr.partsList es, p.Proper) :
    Derives .arguments (argumentSymbols es) es := by
  match es with
  | [] => exact .noArguments
  | e :: rest =>
    obtain ⟨he, hrest⟩ := List.forall_mem_append.1 h
    exact .arguments (.exprList (e.derives he) (Expr.derives_tail rest hrest))

theorem Expr.derives_tail (es : List Expr) (h : ∀ p ∈ Expr.partsList es, p.Proper) :
    Derives .moreExprs ((Expr.symbolsEach es).flatMap (.ofKind .comma :: ·)) es := by
  match es with
  | [] => exact .noMoreExprs
  | e :: rest =>
    obtain ⟨he, hrest⟩ := List.forall_mem_append.1 h
    exact .moreExprs (e.derives he) (Expr.derives_tail rest hrest)

end

/-! ## Statements -/

open ModSyntax.Parser ModSyntax.Rule

theorem Expr.reads (e : Expr) (h : ∀ p ∈ e.parts, p.Proper) :
    expr.ReadsFrom Kind.expressionStart e.symbols e afterExpr :=
  readsPhrase_of_derives (e.derives h)

/-- A statement without bodies is a phrase of the grammar. -/
theorem readsWith_of_derives {s : Statement} {word : List Symbol} (h : Derives .statement word s) :
    statement.ReadsWith 1 0 word s (afterStatement s) :=
  Rule.Reads.readsWith (readsPhrase_of_derives h) 1

/-- A body is read with a report for each empty body in it, itself included. -/
theorem readsWith_body_of_list {closers : List Kind} (hc : Closing closers) {ss : List Statement}
    (h : ss ≠ [] → (sequence closers).ReadsWith 1 ((Statement.bodiesList ss).countP List.isEmpty)
      (Statement.symbolsList ss) ss closers) :
    (sequence closers).ReadsWith 0 ((ss :: Statement.bodiesList ss).countP List.isEmpty)
      (Statement.symbolsList ss) ss closers := by
  match ss with
  | [] => exact readsWith_sequence_nil hc
  | s :: rest =>
    rw [List.countP_cons_of_neg (by simp)]
    exact (h (List.cons_ne_nil s rest)).weaken

mutual

theorem Statement.reads (s : Statement) (h : ∀ p ∈ s.parts, p.Proper) :
    statement.ReadsWith 1 (s.bodies.countP List.isEmpty) s.symbols s (afterStatement s) := by
  match s with
  | .assign target value =>
    obtain ⟨htarget, hvalue⟩ := List.forall_mem_append.1 h
    exact readsWith_of_derives (.assign (target.derives htarget) (value.derives hvalue))
  | .call target args =>
    obtain ⟨htarget, hargs⟩ := List.forall_mem_append.1 h
    exact readsWith_of_derives
      (.callStatement (target.derives htarget) (Expr.derives_arguments args hargs))
  | .bare target => exact readsWith_of_derives (.bare (target.derives h))
  | .branch cond thenBody none =>
    obtain ⟨hcond, hthen⟩ := List.forall_mem_append.1 h
    exact readsWith_branch (cond.reads hcond) _ _ _
      (readsWith_body_of_list closing_thenEnd (Statement.reads_list closing_thenEnd thenBody hthen))
  | .branch cond thenBody (some elseBody) =>
    obtain ⟨hcond, hbodies⟩ := List.forall_mem_append.1 h
    obtain ⟨hthen, helse⟩ := List.forall_mem_append.1 hbodies
    rw [Statement.bodies, List.countP_append]
    exact readsWith_branchElse (cond.reads hcond) _ _ _ _
      (readsWith_body_of_list closing_thenEnd (Statement.reads_list closing_thenEnd thenBody hthen))
      (readsWith_body_of_list closing_sequenceEnd
        (Statement.reads_list closing_sequenceEnd elseBody helse))
  | .loop cond body =>
    obtain ⟨hcond, hbody⟩ := List.forall_mem_append.1 h
    exact readsWith_loop (cond.reads hcond) _ _ _
      (readsWith_body_of_list closing_sequenceEnd
        (Statement.reads_list closing_sequenceEnd body hbody))
  | .leave none => exact readsWith_of_derives .leave
  | .leave (some value) => exact readsWith_of_derives (.leaveWith (value.derives h))

theorem Statement.reads_list {closers : List Kind} (hc : Closing closers) (ss : List Statement)
    (h : ∀ p ∈ Statement.partsList ss, p.Proper) (hne : ss ≠ []) :
    (sequence closers).ReadsWith 1 ((Statement.bodiesList ss).countP List.isEmpty)
      (Statement.symbolsList ss) ss closers := by
  match ss with
  | [s] =>
    simp only [Statement.bodiesList, Statement.symbolsList, List.isEmpty_nil, if_true,
      List.append_nil]
    exact readsWith_sequence_single hc (s.reads (List.forall_mem_append.1 h).1)
  | s :: s' :: rest =>
    obtain ⟨hs, hrest⟩ := List.forall_mem_append.1 h
    rw [Statement.bodiesList, List.countP_append]
    exact readsWith_sequence_cons hc _ (s.reads hs)
      (Statement.reads_list hc (s' :: rest) hrest (List.cons_ne_nil s' rest))

end

/-! ## Declarations and blocks -/

theorem Parameter.derives (p : Parameter) (h : ∀ q ∈ p.parts, q.Proper) :
    Derives .parameter p.symbols p := by
  obtain ⟨byReference, names, typeName⟩ := p
  obtain ⟨hnames, htype⟩ := List.forall_mem_append.1 h
  cases byReference with
  | false => exact .valueParameter (derives_identList hnames) (typeName.derives htype)
  | true => exact .varParameter (derives_identList hnames) (typeName.derives htype)

theorem derives_moreParameters (ps : List Parameter)
    (h : ∀ q ∈ ps.flatMap Parameter.parts, q.Proper) :
    Derives .moreParameters ((ps.map Parameter.symbols).flatMap (.ofKind .semicolon :: ·)) ps := by
  induction ps with
  | nil => exact .noMoreParameters
  | cons p ps ih =>
    obtain ⟨hp, hps⟩ := List.forall_mem_append.1 h
    exact .moreParameters (p.derives hp) (ih hps)

theorem derives_parameterList (ps : List Parameter)
    (h : ∀ q ∈ ps.flatMap Parameter.parts, q.Proper) :
    Derives .parameterList (separated (.ofKind .semicolon) (ps.map Parameter.symbols)) ps := by
  match ps with
  | [] => exact .noParameters
  | p :: ps =>
    obtain ⟨hp, hps⟩ := List.forall_mem_append.1 h
    exact .parameterList (p.derives hp) (derives_moreParameters ps hps)

theorem Parameters.derives (p : Parameters) (h : ∀ q ∈ p.parts, q.Proper) :
    Derives .parameters p.symbols p := by
  obtain ⟨params, result⟩ := p
  obtain ⟨hparams, hresult⟩ := List.forall_mem_append.1 h
  cases result with
  | none => exact .parameters (derives_parameterList params hparams)
  | some q =>
    exact .parametersWithResult (derives_parameterList params hparams) (q.derives hresult)

theorem reads_optionalParameters (p? : Option Parameters)
    (h : ∀ q ∈ (p?.map Parameters.parts).getD [], q.Proper) :
    parameters?.Reads ((p?.map Parameters.symbols).getD []) p? afterHeading := by
  cases p? with
  | none => exact reads_parameters?_absent
  | some p => exact reads_parameters? (readsPhrase_of_derives (p.derives h))

/-- The statements of a block, behind `BEGIN` if there are any. -/
theorem readsWith_statements (ss : List Statement) (h : ∀ p ∈ Statement.partsList ss, p.Proper) :
    body.ReadsWith 1 ((Statement.bodiesList ss).countP List.isEmpty)
      ((if ss.isEmpty then [] else [Symbol.ofKind .kwBegin]) ++ Statement.symbolsList ss) ss
      sequenceEnd := by
  match ss with
  | [] => exact reads_body_nil.readsWith 1
  | s :: rest =>
    exact readsWith_body _
      (Statement.reads_list closing_sequenceEnd (s :: rest) h (List.cons_ne_nil s rest)).weaken

mutual

theorem Declaration.reads_list (ds : List Declaration)
    (h : ∀ p ∈ Declaration.partsList ds, p.Proper) :
    ReadsDeclarations ((Declaration.bodiesList ds).countP List.isEmpty)
      (Declaration.symbolsList ds) ds := by
  match ds with
  | [] => exact readsDeclarations_nil
  | .constant n value :: rest =>
    obtain ⟨hd, hrest⟩ := List.forall_mem_append.1 h
    have hvalue := value.derives (List.forall_mem_cons.1 hd).2
    exact readsDeclarations_const _
      (readsPhrase_of_derives (.constDecls (.constant hvalue) .noConstDecls))
      (Declaration.reads_list rest hrest)
  | .vars ns typeName :: rest =>
    obtain ⟨hd, hrest⟩ := List.forall_mem_append.1 h
    obtain ⟨hns, htype⟩ := List.forall_mem_append.1 hd
    have hsymbols : (Declaration.vars ns typeName).symbols = .ofKind .kwVar ::
        (identifierSymbols ns ++ .ofKind .colon :: typeName.symbols ++ [.ofKind .semicolon]) := by
      simp [Declaration.symbols]
    rw [Declaration.symbolsList, hsymbols]
    exact readsDeclarations_var _
      (readsPhrase_of_derives
        (.varDecls (.vars (derives_identList hns) (typeName.derives htype)) .noVarDecls))
      (Declaration.reads_list rest hrest)
  | .procedure p :: rest =>
    obtain ⟨hd, hrest⟩ := List.forall_mem_append.1 h
    obtain ⟨word, hword, hhead, hreads⟩ := p.reads hd
    have hsymbols : Declaration.symbolsList (.procedure p :: rest) =
        word ++ .ofKind .semicolon :: Declaration.symbolsList rest := by
      rw [Declaration.symbolsList, Declaration.symbols, hword, List.append_assoc]
      rfl
    rw [hsymbols, Declaration.bodiesList, List.countP_append]
    exact readsDeclarations_procedure _ hreads hhead (Declaration.reads_list rest hrest)

/-- A procedure is read up to the semicolon behind it. -/
theorem Procedure.reads (p : Procedure) (h : ∀ q ∈ p.parts, q.Proper) :
    ∃ word, p.symbols = word ++ [.ofKind .semicolon] ∧ headKind word = .kwProcedure ∧
      (procedureOf block).ReadsWith 1 (p.bodies.countP List.isEmpty) word (.procedure p)
        Kind.all := by
  match p with
  | ⟨n, parameters, body, endName⟩ =>
    obtain ⟨hparams, hrest⟩ := List.forall_mem_append.1 (List.forall_mem_cons.1 h).2
    have hbody := body.reads (List.forall_mem_append.1 hrest).1
    refine ⟨_, ?_, rfl, readsWith_procedure Kind.kwProcedure.spelling Kind.semicolon.spelling
      (reads_optionalParameters parameters hparams) hbody⟩
    simp [Procedure.symbols, Symbol.ofKind, Symbol.identifier]

/-- A block is read up to its `END`. -/
theorem Block.reads (b : Block) (h : ∀ p ∈ b.parts, p.Proper) :
    ReadsBlock (b.bodies.countP List.isEmpty) (b.symbols ++ [.ofKind .kwEnd]) b := by
  match b with
  | ⟨declarations, statements⟩ =>
    obtain ⟨hds, hss⟩ := List.forall_mem_append.1 h
    rw [Block.symbols, Block.bodies, List.countP_append, List.append_assoc]
    refine readsBlock _ (Declaration.reads_list declarations hds)
      (readsWith_statements statements hss) ?_
    cases statements <;> simp [Statement.symbolsList, Symbol.ofKind]

end

/-! ## Modules -/

theorem Import.derives (i : Import) (h : ∀ p ∈ i.parts, p.Proper) :
    Derives .importItem i.symbols i := by
  obtain ⟨source, names⟩ := i
  have hnames := derives_identList (List.forall_mem_append.1 h).1
  cases source with
  | none => exact .importModules hnames
  | some m => exact .importFrom hnames

theorem derives_imports (is : List Import) (h : ∀ p ∈ is.flatMap Import.parts, p.Proper) :
    Derives .imports (is.flatMap Import.symbols) is := by
  induction is with
  | nil => exact .noImports
  | cons i is ih =>
    obtain ⟨hi, his⟩ := List.forall_mem_append.1 h
    exact .imports (i.derives hi) (ih his)

/-- The symbols of a module are read as that module, with a report for each empty body. -/
theorem Module.reads (m : Module) (h : ∀ p ∈ m.parts, p.Proper) :
    compilationUnit.ReadsWith 1 (m.bodies.countP List.isEmpty) m.symbols m [.eof] := by
  obtain ⟨name, imports, block, endName⟩ := m
  obtain ⟨himports, hrest⟩ := List.forall_mem_append.1 (List.forall_mem_cons.1 h).2
  have hblock := block.reads (List.forall_mem_append.1 hrest).1
  have hsymbols : Module.symbols ⟨name, imports, block, endName⟩ =
      .ofKind .kwModule :: .identifier name :: .ofKind .semicolon ::
        (imports.flatMap Import.symbols ++ ((block.symbols ++ [Symbol.ofKind .kwEnd]) ++
          [Symbol.identifier endName, .ofKind .period])) := by
    simp [Module.symbols]
  rw [hsymbols]
  exact readsWith_compilationUnit _ _ _ (readsPhrase_of_derives (derives_imports imports himports))
    hblock

end ModSyntax
