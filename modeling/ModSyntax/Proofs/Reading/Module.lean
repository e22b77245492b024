import ModSyntax.Proofs.Reading.Statement

/-!
# Reading declarations, blocks and modules

How the rules from declarations up to modules read their words. The reports inside a block are those
of its statements and of the procedures in it. A semicolon that is missing where one belongs is
reported on the symbol that stands there, and takes nothing away from what is read.
-/

namespace ModSyntax.Rule

open ModSyntax.Parser

variable {α β : Type} {u v word : List Symbol} {a : α} {follow : List Kind} {i n m : Nat}
  {rs ss ts : List Report}

/-! ## Semicolons -/

/-- What stands where a semicolon belongs: the semicolon, or nothing, and then a report. -/
inductive SemicolonAt (rule : Construct) (index : Nat) : List Symbol → List Report → Prop where
  | present (l : String) : SemicolonAt rule index [⟨.semicolon, l⟩] []
  | missing : SemicolonAt rule index [] [⟨index, .unexpected rule [.semicolon]⟩]

theorem SemicolonAt.headKind_append {rule : Construct} (h : SemicolonAt rule i word rs)
    {rest : List Symbol} (hrest : headKind rest ∈ follow) :
    headKind (word ++ rest) ∈ .semicolon :: follow := by
  cases h with
  | present l => simp
  | missing => exact List.mem_cons_of_mem _ hrest

theorem reads_terminate (k : Kind) (l : String) (rule : Construct) (sync follow : List Kind) :
    (terminate k rule sync).Reads [⟨k, l⟩] () follow :=
  (reads_accept k l Kind.all).bind_nil (Parser.reads_pure () follow) fun _ _ => Kind.mem_all _

/-- The end of an import or of the heading of a module. -/
theorem readsAt_terminate {rule : Construct} {sync : List Kind} (h : SemicolonAt rule i word rs)
    (hsync : follow ⊆ sync) (hfollow : .semicolon ∉ follow) :
    (terminate .semicolon rule sync).ReadsAt i word () rs follow := by
  cases h with
  | present l => exact (reads_terminate .semicolon l rule sync follow).readsAt i
  | missing =>
    intro rest hrest
    have hne : headKind rest ≠ .semicolon := fun he => hfollow (he ▸ hrest)
    have hstay : Cursor.skipUntil ⟨rest, i⟩ sync = ⟨rest, i⟩ :=
      Cursor.skipUntil_of_mem (by simpa using hsync hrest)
    simp [terminate, hne, hstay]

theorem reads_require (k : Kind) (l : String) (rule : Construct) (follow : List Kind) :
    (require k rule).Reads [⟨k, l⟩] () follow :=
  (reads_accept k l Kind.all).bind_nil (Parser.reads_pure () follow) fun _ _ => Kind.mem_all _

/-- The end of the heading of a procedure. -/
theorem readsAt_require {rule : Construct} (h : SemicolonAt rule i word rs)
    (hfollow : .semicolon ∉ follow) :
    (require .semicolon rule).ReadsAt i word () rs follow := by
  cases h with
  | present l => exact (reads_require .semicolon l rule follow).readsAt i
  | missing =>
    intro rest hrest
    have hne : headKind rest ≠ .semicolon := fun he => hfollow (he ▸ hrest)
    simp [require, hne]

/-- What may follow a section of declarations. -/
def afterSection : List Kind := [.kwConst, .kwVar, .kwProcedure, .kwBegin, .kwEnd]

/-- The end of an entry of a section, or of a procedure. -/
theorem readsAt_endEntry {rule : Construct} (h : SemicolonAt rule i word rs) :
    (endEntry rule).ReadsAt i word () rs ([.identifier] ++ afterSection) := by
  intro rest hrest
  cases h with
  | present l => simp [endEntry]
  | missing =>
    have hne : headKind rest ≠ .semicolon :=
      (by decide : ∀ k ∈ [.identifier] ++ afterSection, k ≠ .semicolon) _ hrest
    have hsync : headKind rest = .identifier ∨ headKind rest ∈ declarationSync :=
      (by decide : ∀ k ∈ [.identifier] ++ afterSection, k = .identifier ∨ k ∈ declarationSync) _
        hrest
    simp [endEntry, hne, hsync]

/-! ## Entries of a section -/

/-- What may follow an entry of a section. -/
def afterEntry : List Kind := .semicolon :: ([.identifier] ++ afterSection)

theorem reads_constant {name : String} {e : Expr} (l : String)
    (he : expr.ReadsFrom Kind.expressionStart u e afterExpr) :
    constant.ReadsFrom [.identifier] (⟨.identifier, name⟩ :: ⟨.equal, l⟩ :: u) (.constant name e)
      afterEntry where
  reads := Reads.cons (reads_identifier name .constant) (Reads.cons
    (reads_discard_expect .equal l .constant)
    ((he.reads.bind_pure (Declaration.constant name)).mono (by decide)))
  opens := by simp

/-- Names with a type, as variables and parameters have them. -/
theorem reads_typedNames {rule : Construct} {ns : List String} {q : QualifiedName} (l : String)
    (f : List String → QualifiedName → β) (hns : (identifierList rule).Reads u ns [.colon])
    (hq : (qualifiedName rule).Reads v q follow) :
    Reads (do
      let names ← identifierList rule
      discard <| expect .colon rule
      return f names (← qualifiedName rule)) (u ++ ⟨.colon, l⟩ :: v) (f ns q) follow :=
  hns.bind_cons (Reads.cons (reads_discard_expect .colon l rule) (hq.bind_pure (f ns))) (by simp)

theorem reads_vars {ns : List String} {q : QualifiedName} (l : String)
    (hns : (identifierList .vars).ReadsFrom [.identifier] u ns [.colon])
    (hq : (qualifiedName .vars).Reads v q afterEntry) :
    vars.ReadsFrom [.identifier] (u ++ ⟨.colon, l⟩ :: v) (.vars ns q) afterEntry :=
  ⟨reads_typedNames l Declaration.vars hns.reads hq, hns.headKind_append (by decide) _⟩

/-- The word at an index is the entries of a section, read with the reports. -/
abbrev EntriesAt (rule : Construct) (entry : Rule Declaration) (ds : List Declaration) :
    Nat → List Symbol → List Report → Prop :=
  (entries rule entry).ReadsMoreAt [.identifier] ds afterSection

section

variable {rule : Construct} {entry : Rule Declaration} (henters : entry.Enters .identifier)
include henters

theorem entriesAt_nil (i : Nat) : EntriesAt rule entry [] i [] [] := by
  refine ⟨Parser.Reads.readsAt ?_ i, .inl rfl⟩
  rw [entries_eq rule henters]
  refine Parser.reads_kind_bind_nil fun k hk => ?_
  rw [if_neg ((by decide : ∀ k ∈ afterSection, k ≠ .identifier) k hk)]
  exact Parser.reads_pure [] _

theorem entriesAt_cons {d : Declaration} {ds : List Declaration}
    (hd : entry.ReadsFrom [.identifier] u d afterEntry)
    (hsemi : SemicolonAt rule (i + u.length) word rs)
    (hmore : EntriesAt rule entry ds (i + u.length + word.length) v ss) :
    EntriesAt rule entry (d :: ds) i (u ++ (word ++ v)) (rs ++ ss) := by
  have hhead := hd.headKind_append (by decide) (word ++ v)
  refine ⟨?_, .inr hhead⟩
  rw [entries_eq rule henters]
  refine Parser.readsAt_kind_bind .identifier (by simpa using hhead) (by decide) ?_
  refine Parser.Reads.bind_at hd.reads ((readsAt_endEntry hsemi).bind
    (hmore.reads.bind_pure fun ds => d :: ds) fun rest hrest => ?_) fun rest hrest => ?_
  · exact hmore.headKind_append (by decide) hrest
  · rw [List.append_assoc]
    exact hsemi.headKind_append (hmore.headKind_append (by decide) hrest)

end

/-! ## Parameters -/

/-- What may follow the heading of a procedure. -/
def afterHeading : List Kind := .semicolon :: afterSection

theorem reads_valueParameter {ns : List String} {q : QualifiedName} (l : String)
    (hns : (identifierList .parameter).ReadsFrom [.identifier] u ns [.colon])
    (hq : (qualifiedName .parameter).Reads v q [.semicolon, .rparen]) :
    parameter.ReadsFrom [.kwVar, .identifier] (u ++ ⟨.colon, l⟩ :: v) ⟨false, ns, q⟩
      [.semicolon, .rparen] := by
  have hhead := hns.headKind_append (by decide)
  have habsent : (liftM (accept .kwVar) : Rule Bool).Reads [] false [.identifier] :=
    reads_lift (reads_accept_absent (by decide))
  refine ⟨habsent.look (reads_typedNames l (Parameter.mk false) hns.reads hq) fun rest _ => ?_,
    List.mem_cons_of_mem _ (hhead _)⟩
  rw [List.append_assoc]
  exact hhead _

theorem reads_varParameter {ns : List String} {q : QualifiedName} (l₁ l₂ : String)
    (hns : (identifierList .parameter).ReadsFrom [.identifier] u ns [.colon])
    (hq : (qualifiedName .parameter).Reads v q [.semicolon, .rparen]) :
    parameter.ReadsFrom [.kwVar, .identifier] (⟨.kwVar, l₁⟩ :: (u ++ ⟨.colon, l₂⟩ :: v))
      ⟨true, ns, q⟩ [.semicolon, .rparen] where
  reads := Reads.cons (fun near => reads_lift (reads_accept .kwVar l₁ near))
    (reads_typedNames l₂ (Parameter.mk true) hns.reads hq)
  opens := by simp

theorem reads_parameterList_single {p : Parameter} (h : parameter.Reads u p [.semicolon, .rparen]) :
    parameterList.Reads u (some [p]) [.rparen] := by
  rw [parameterList_eq]
  have hno : (accept .semicolon).Reads [] false [.rparen] := reads_accept_absent (by decide)
  exact (reads_orSkipUntil h parameterSync).bind_nil
    (hno.bind_nil (Parser.reads_pure _ _) (List.Subset.refl _)) (by decide)

theorem reads_parameterList_cons {p : Parameter} {ps : List Parameter} (l : String)
    (h : parameter.Reads u p [.semicolon, .rparen])
    (hmore : parameterList.Reads v (some ps) [.rparen]) :
    parameterList.Reads (u ++ ⟨.semicolon, l⟩ :: v) (some (p :: ps)) [.rparen] := by
  rw [parameterList_eq]
  exact (reads_orSkipUntil h parameterSync).bind (Parser.Reads.cons (reads_accept .semicolon l)
    (hmore.bind_pure fun others => (some p).bind fun p => others.map (p :: ·))) fun _ _ => by simp

theorem reads_parameterItems_nil : parameterItems.Reads [] (some []) [.rparen] := by
  intro rest index hrest
  have hk : headKind rest = .rparen := by simpa using hrest
  simp [parameterItems, hk]

theorem reads_parameterItems {ps : List Parameter} (hk : headKind u ∈ [.kwVar, .identifier])
    (h : parameterList.Reads u (some ps) [.rparen]) :
    parameterItems.Reads u (some ps) [.rparen] := by
  intro rest index hrest
  have hne : headKind u ≠ .eof := fun he => by simp [he] at hk
  rw [parameterItems, run_kind_bind, Cursor.kind_mk, headKind_append_of_ne hne, if_pos hk]
  exact h rest index hrest

theorem reads_orLeave {r : Rule α} (h : r.Reads word a follow) :
    (parameters.orLeave r).Reads word a follow := by
  intro rest index hrest
  simp [parameters.orLeave, h rest index hrest]

theorem reads_parameters {ps : List Parameter} {result : Option QualifiedName} (l₁ l₂ : String)
    (hps : parameterItems.Reads u (some ps) [.rparen])
    (hresult : (after? .colon (parameters.orLeave (qualifiedName .parameters))).Reads v result
      afterHeading) :
    parameters.ReadsFrom [.lparen] (⟨.lparen, l₁⟩ :: (u ++ ⟨.rparen, l₂⟩ :: v)) ⟨ps, result⟩
      afterHeading where
  reads := Reads.cons (fun near => reads_lift (reads_skip _ near))
    ((reads_lift hps).bind_cons (Reads.cons
      (fun near => (reads_orLeave (reads_expect .rparen l₂ .parameters near)).map _)
      (hresult.bind_pure (Parameters.mk ps))) (by simp))
  opens := by simp

theorem reads_parameters?_absent : parameters?.Reads [] none afterHeading := by
  refine reads_kind_bind_nil fun k hk => ?_
  rw [if_neg ((by decide : ∀ k ∈ afterHeading, k ≠ .lparen) k hk)]
  exact reads_pure none _

theorem reads_parameters? {ps : Parameters} (h : parameters.ReadsFrom [.lparen] u ps afterHeading) :
    parameters?.Reads u (some ps) afterHeading :=
  reads_kind_bind .lparen (by simpa using h.opens) (by decide) (h.reads.bind_pure some)

/-! ## Declarations and blocks -/

/-- The word at an index is a list of declarations, read with the reports. -/
abbrev DeclarationsAt (ds : List Declaration) : Nat → List Symbol → List Report → Prop :=
  (declarationsOf block).ReadsMoreAt [.kwConst, .kwVar, .kwProcedure] ds [.kwBegin, .kwEnd]

/-- The word at an index is a block, read with the reports whatever follows it. -/
structure BlockAt (b : Block) (index : Nat) (word : List Symbol) (reports : List Report) :
    Prop where
  reads : block.ReadsAt index word b reports Kind.all
  opens : headKind word ∈ afterSection

theorem DeclarationsAt.headKind_append {ds : List Declaration} (h : DeclarationsAt ds i word rs)
    {rest : List Symbol} (hrest : headKind rest ∈ [.kwBegin, .kwEnd]) :
    headKind (word ++ rest) ∈ afterSection := ReadsMoreAt.headKind_append h (by decide) hrest

theorem BlockAt.headKind_append {b : Block} (h : BlockAt b i word rs) (rest : List Symbol) :
    headKind (word ++ rest) ∈ afterSection := by
  have hopens := h.opens
  rwa [headKind_append_of_ne fun he => by simp [he, afterSection] at hopens]

theorem declarationsAt_nil (i : Nat) : DeclarationsAt [] i [] [] := by
  refine ⟨fun rest hrest => ?_, .inl rfl⟩
  have hk : headKind rest = .kwBegin ∨ headKind rest = .kwEnd := by simpa using hrest
  rw [declarationsOf_eq, declarationsStep]
  rcases hk with hk | hk <;> simp [hk]

/-- A section, behind its keyword, and the declarations behind it. -/
theorem readsAt_section {rule : Construct} {entry : Rule Declaration} {ds es : List Declaration}
    (s : Symbol) (hentries : EntriesAt rule entry ds (i + 1) u rs)
    (hmore : DeclarationsAt es (i + (u.length + 1)) v ss) :
    Parser.ReadsAt i (do
      skip
      return (← entries rule entry) ++ (← declarationsOf block)) (s :: (u ++ v)) (ds ++ es)
      (rs ++ ss) [.kwBegin, .kwEnd] := by
  rw [Nat.add_comm u.length, ← Nat.add_assoc] at hmore
  exact .cons (Parser.reads_skip s) (hentries.reads.bind (hmore.reads.bind_pure fun es => ds ++ es)
    fun _ hrest => hmore.headKind_append hrest)

theorem declarationsAt_const {ds es : List Declaration} (l : String)
    (hentries : EntriesAt .constant constant ds (i + 1) u rs)
    (hmore : DeclarationsAt es (i + (u.length + 1)) v ss) :
    DeclarationsAt (ds ++ es) i (⟨.kwConst, l⟩ :: (u ++ v)) (rs ++ ss) := by
  refine ⟨?_, by simp⟩
  rw [declarationsOf_eq]
  exact readsAt_section ⟨.kwConst, l⟩ hentries hmore

theorem declarationsAt_var {ds es : List Declaration} (l : String)
    (hentries : EntriesAt .vars vars ds (i + 1) u rs)
    (hmore : DeclarationsAt es (i + (u.length + 1)) v ss) :
    DeclarationsAt (ds ++ es) i (⟨.kwVar, l⟩ :: (u ++ v)) (rs ++ ss) := by
  refine ⟨?_, by simp⟩
  rw [declarationsOf_eq]
  exact readsAt_section ⟨.kwVar, l⟩ hentries hmore

theorem declarationsAt_procedure {d : Declaration} {es : List Declaration}
    (hd : (procedureOf block).ReadsAt i u d rs Kind.all) (hu : headKind u = .kwProcedure)
    (hsemi : SemicolonAt .procedure (i + u.length) word ss)
    (hmore : DeclarationsAt es (i + u.length + word.length) v ts) :
    DeclarationsAt (d :: es) i (u ++ (word ++ v)) (rs ++ (ss ++ ts)) := by
  have hhead : headKind (u ++ (word ++ v)) = .kwProcedure := by
    rw [headKind_append_of_ne (by simp [hu]), hu]
  refine ⟨?_, by simp [hhead]⟩
  rw [declarationsOf_eq]
  refine Parser.readsAt_kind_bind .kwProcedure hhead (by decide) ?_
  refine Parser.ReadsAt.bind hd ?_ fun _ _ => Kind.mem_all _
  exact (readsAt_endEntry hsemi).bind (hmore.reads.bind_pure fun es => (some d).toList ++ es)
    fun _ hrest => List.mem_append_right _ (hmore.headKind_append hrest)

theorem reads_body_nil : body.Reads [] [] sequenceEnd :=
  Parser.Reads.bind_nil (reads_accept_absent (by decide)) (Parser.reads_pure [] _)
    (List.Subset.refl _)

theorem readsAt_body {statements : List Statement} (l : String)
    (h : (sequence sequenceEnd).ReadsAt (i + 1) v statements rs sequenceEnd) :
    body.ReadsAt i (⟨.kwBegin, l⟩ :: v) statements rs sequenceEnd :=
  .cons (reads_accept .kwBegin l) h

theorem readsAt_block {ds : List Declaration} {statements : List Statement} (l : String)
    (hds : (declarationsOf block).ReadsAt i u ds rs [.kwBegin, .kwEnd])
    (hbody : body.ReadsAt (i + u.length) v statements ss sequenceEnd)
    (hv : headKind (v ++ [⟨.kwEnd, l⟩]) ∈ [.kwBegin, .kwEnd]) :
    block.ReadsAt i (u ++ (v ++ [⟨.kwEnd, l⟩])) ⟨ds, statements⟩ (rs ++ ss) Kind.all := by
  rw [block_eq]
  refine hds.bind ?_ fun rest _ => ?_
  · exact hbody.bind_reads ((reads_terminate .kwEnd l .block sequenceEnd Kind.all).bind_nil
      (Parser.reads_pure _ _) (List.Subset.refl _)) fun _ _ => by simp [sequenceEnd]
  · rwa [headKind_append_of_ne]
    exact fun he => by simp [he] at hv

theorem blockAt {ds : List Declaration} {statements : List Statement} (l : String)
    (hds : DeclarationsAt ds i u rs)
    (hbody : body.ReadsAt (i + u.length) v statements ss sequenceEnd)
    (hv : headKind (v ++ [⟨.kwEnd, l⟩]) ∈ [.kwBegin, .kwEnd]) :
    BlockAt ⟨ds, statements⟩ i (u ++ (v ++ [⟨.kwEnd, l⟩])) (rs ++ ss) :=
  ⟨readsAt_block l hds.reads hbody hv, hds.headKind_append hv⟩

/-- What a procedure does behind its heading. -/
def procedureRest (name? : Option String) (params? : Option (Option Parameters)) :
    Rule Declaration := do
  require .semicolon .procedure
  let body ← block
  let endName ← (identifier .procedure).attempt
  match name?, params?, endName with
  | some name, some params, some endName => return .procedure ⟨name, params, body, endName⟩
  | _, _, _ => fail

theorem procedureOf_block :
    procedureOf block = (do
      skip
      let name ← (identifier .procedure).attempt
      let params ← parameters?.attempt
      procedureRest name params) := rfl

/-- The semicolon or its absence, the block and the closing name; the procedure is there if its
heading is. -/
theorem readsAt_procedureRest {near : List Kind} {b : Block} (name? : Option String)
    (params? : Option (Option Parameters)) (endName : String)
    (hsemi : (require .semicolon .procedure).ReadsAt i word () rs near)
    (hb : block.ReadsAt (i + word.length) v b ss Kind.all)
    (hnear : ∀ rest, headKind (v ++ rest) ∈ near) :
    (procedureRest name? params?).attempt.ReadsAt i (word ++ (v ++ [⟨.identifier, endName⟩]))
      (name?.bind fun name => params?.map fun params => .procedure ⟨name, params, b, endName⟩)
      (rs ++ ss) Kind.all := by
  intro rest _
  have hblock := hb (⟨.identifier, endName⟩ :: rest) (Kind.mem_all _)
  have hname := reads_identifier endName .procedure Kind.all rest (i + word.length + v.length)
    (Kind.mem_all _)
  rw [List.singleton_append] at hname
  have hrequire := hsemi (v ++ ⟨.identifier, endName⟩ :: rest) (hnear _)
  have hindex : i + word.length + v.length + 1 = i + (word.length + (v.length + 1)) := by omega
  rcases name? with _ | name <;> rcases params? with _ | params <;>
    simp [procedureRest, hrequire, hblock, hname, hindex]

theorem readsAt_procedureOf (name endName l : String) {ps : Option Parameters} {b : Block}
    {near : List Kind} (hps : parameters?.Reads u ps afterHeading)
    (hsemi : (require .semicolon .procedure).ReadsAt (i + u.length + 2) word () rs near)
    (hb : block.ReadsAt (i + u.length + 2 + word.length) v b ss Kind.all)
    (hheading : ∀ rest, headKind (word ++ (v ++ rest)) ∈ afterHeading)
    (hnear : ∀ rest, headKind (v ++ rest) ∈ near) :
    (procedureOf block).ReadsAt i
      (⟨.kwProcedure, l⟩ :: ⟨.identifier, name⟩ :: (u ++ (word ++ (v ++ [⟨.identifier, endName⟩]))))
      (.procedure ⟨name, ps, b, endName⟩) (rs ++ ss) Kind.all := by
  have hindex : i + u.length + 2 = i + 2 + u.length := Nat.add_right_comm i _ 2
  rw [hindex] at hsemi hb
  rw [procedureOf_block]
  have hname (near : List Kind) :
      (liftM (identifier .procedure).attempt : Rule (Option String)).Reads [⟨.identifier, name⟩]
        (some name) near := reads_lift (reads_identifier name .procedure near)
  refine .cons (fun near => reads_lift (reads_skip _ near)) (.cons hname ?_)
  refine (reads_lift hps).bind_at ?_ fun rest _ => by
    rw [List.append_assoc, List.append_assoc]
    exact hheading _
  exact readsAt_procedureRest (some name) (some ps) endName hsemi hb hnear

theorem readsAt_procedure (name endName l : String) {ps : Option Parameters} {b : Block}
    (hps : parameters?.Reads u ps afterHeading)
    (hsemi : SemicolonAt .procedure (i + u.length + 2) word rs)
    (hb : BlockAt b (i + u.length + 2 + word.length) v ss) :
    (procedureOf block).ReadsAt i
      (⟨.kwProcedure, l⟩ :: ⟨.identifier, name⟩ :: (u ++ (word ++ (v ++ [⟨.identifier, endName⟩]))))
      (.procedure ⟨name, ps, b, endName⟩) (rs ++ ss) Kind.all :=
  readsAt_procedureOf name endName l hps (readsAt_require hsemi (by decide)) hb.reads
    (fun rest => hsemi.headKind_append (hb.headKind_append rest)) hb.headKind_append

/-! ## Reports on the bodies -/

/-- The word is a list of declarations, read with `n` reports on symbols of their own. -/
def ReadsDeclarations (n : Nat) (word : List Symbol) (ds : List Declaration) : Prop :=
  ∀ index, ∃ reports, DeclarationsAt ds index word reports ∧
    Marks (index + 1) (index + word.length) n reports

/-- The word is a block, read with `n` reports on symbols of their own. -/
def ReadsBlock (n : Nat) (word : List Symbol) (b : Block) : Prop :=
  ∀ index, ∃ reports, BlockAt b index word reports ∧
    Marks (index + 1) (index + word.length) n reports

theorem readsDeclarations_nil : ReadsDeclarations 0 [] [] := fun i =>
  ⟨[], declarationsAt_nil i, .nil _ _⟩

theorem readsDeclarations_const {ds es : List Declaration} (l : String)
    (hentries : ∀ i, EntriesAt .constant constant ds i u []) (h : ReadsDeclarations n v es) :
    ReadsDeclarations n (⟨.kwConst, l⟩ :: (u ++ v)) (ds ++ es) := by
  intro i
  obtain ⟨rs, hreads, hmarks⟩ := h (i + (u.length + 1))
  exact ⟨rs, declarationsAt_const l (hentries _) hreads, hmarks.mono (by omega) (by simp; omega)⟩

theorem readsDeclarations_var {ds es : List Declaration} (l : String)
    (hentries : ∀ i, EntriesAt .vars vars ds i u []) (h : ReadsDeclarations n v es) :
    ReadsDeclarations n (⟨.kwVar, l⟩ :: (u ++ v)) (ds ++ es) := by
  intro i
  obtain ⟨rs, hreads, hmarks⟩ := h (i + (u.length + 1))
  exact ⟨rs, declarationsAt_var l (hentries _) hreads, hmarks.mono (by omega) (by simp; omega)⟩

theorem readsDeclarations_procedure {d : Declaration} {es : List Declaration} (l : String)
    (hd : (procedureOf block).ReadsWith 1 n u d Kind.all) (hu : headKind u = .kwProcedure)
    (h : ReadsDeclarations m v es) :
    ReadsDeclarations (n + m) (u ++ ⟨.semicolon, l⟩ :: v) (d :: es) := by
  intro i
  obtain ⟨rs, hreads, hmarks⟩ := hd i
  obtain ⟨ss, hreads', hmarks'⟩ := h (i + u.length + 1)
  refine ⟨rs ++ ss, declarationsAt_procedure hreads hu (.present l) hreads', ?_⟩
  exact hmarks.append (hmarks'.mono (by omega) (Nat.le_refl _)) (by omega) (by simp; omega)

theorem readsWith_body {statements : List Statement} (l : String)
    (h : (sequence sequenceEnd).ReadsWith 0 n v statements sequenceEnd) :
    body.ReadsWith 1 n (⟨.kwBegin, l⟩ :: v) statements sequenceEnd := by
  intro i
  obtain ⟨rs, hreads, hmarks⟩ := h (i + 1)
  exact ⟨rs, readsAt_body l hreads, hmarks.mono (by omega) (by simp; omega)⟩

theorem readsBlock {ds : List Declaration} {statements : List Statement} (l : String)
    (hds : ReadsDeclarations n u ds) (hbody : body.ReadsWith 1 m v statements sequenceEnd)
    (hv : headKind (v ++ [⟨.kwEnd, l⟩]) ∈ [.kwBegin, .kwEnd]) :
    ReadsBlock (n + m) (u ++ (v ++ [⟨.kwEnd, l⟩])) ⟨ds, statements⟩ := by
  intro i
  obtain ⟨rs, hreads, hmarks⟩ := hds i
  obtain ⟨ss, hreads', hmarks'⟩ := hbody (i + u.length)
  exact ⟨rs ++ ss, blockAt l hreads hreads' hv, hmarks.append hmarks' (by omega) (by simp; omega)⟩

theorem readsWith_procedure {name endName : String} {ps : Option Parameters} {b : Block}
    (l₁ l₂ : String) (hps : parameters?.Reads u ps afterHeading) (hb : ReadsBlock n v b) :
    (procedureOf block).ReadsWith 1 n
      (⟨.kwProcedure, l₁⟩ :: ⟨.identifier, name⟩ ::
        (u ++ ⟨.semicolon, l₂⟩ :: (v ++ [⟨.identifier, endName⟩])))
      (.procedure ⟨name, ps, b, endName⟩) Kind.all := by
  intro i
  obtain ⟨rs, hreads, hmarks⟩ := hb (i + u.length + 2 + 1)
  have hread := readsAt_procedure name endName l₁ hps (.present l₂) hreads
  exact ⟨rs, hread, hmarks.mono (by omega) (by simp; omega)⟩

/-! ## Modules -/

theorem reads_importModules {ns : List String} (l : String)
    (hns : (identifierList .imports).Reads u ns follow) :
    importNames.Reads (⟨.kwImport, l⟩ :: u) ⟨none, ns⟩ follow :=
  (reads_after?_absent [.kwImport] (by decide)).look
    (Reads.cons (reads_discard_expect .kwImport l .imports) (hns.bind_pure (Import.mk none)))
    fun _ _ => by simp

theorem reads_importFrom {source : String} {ns : List String} (l₁ l₂ : String)
    (hns : (identifierList .imports).Reads u ns follow) :
    importNames.Reads (⟨.kwFrom, l₁⟩ :: ⟨.identifier, source⟩ :: ⟨.kwImport, l₂⟩ :: u)
      ⟨some source, ns⟩ follow := by
  have hfrom : (after? .kwFrom (identifier .imports)).Reads
      [⟨.kwFrom, l₁⟩, ⟨.identifier, source⟩] (some source) Kind.all :=
    reads_after? .kwFrom l₁ (reads_identifier source .imports Kind.all)
  exact hfrom.bind (Reads.cons (reads_discard_expect .kwImport l₂ .imports)
    (hns.bind_pure (Import.mk (some source)))) fun _ _ => Kind.mem_all _

/-- What may follow an import, behind its semicolon. -/
def afterImport : List Kind := [.kwFrom, .kwImport] ++ afterSection

/-- The word at an index is a list of imports, read with the reports. -/
abbrev ImportsAt (is : List Import) : Nat → List Symbol → List Report → Prop :=
  imports.ReadsMoreAt [.kwFrom, .kwImport] is afterSection

theorem ImportsAt.headKind_append {is : List Import} (h : ImportsAt is i word rs)
    {rest : List Symbol} (hrest : headKind rest ∈ afterSection) :
    headKind (word ++ rest) ∈ afterImport := ReadsMoreAt.headKind_append h (by decide) hrest

theorem importsAt_nil (i : Nat) : ImportsAt [] i [] [] := by
  refine ⟨Parser.Reads.readsAt ?_ i, .inl rfl⟩
  rw [imports_eq]
  refine Parser.reads_kind_bind_nil fun k hk => ?_
  rw [if_neg ((by decide : ∀ k ∈ afterSection, k ∉ [.kwFrom, .kwImport]) k hk)]
  exact Parser.reads_pure [] _

theorem importsAt_cons {item : Import} {is : List Import}
    (hitem : importNames.ReadsFrom [.kwFrom, .kwImport] u item (.semicolon :: afterImport))
    (hsemi : SemicolonAt .imports (i + u.length) word rs)
    (hmore : ImportsAt is (i + u.length + word.length) v ss) :
    ImportsAt (item :: is) i (u ++ (word ++ v)) (rs ++ ss) := by
  have hhead := hitem.headKind_append (by decide) (word ++ v)
  have hread : importItem.ReadsAt i (u ++ word) (some item) rs afterImport :=
    Parser.Reads.bind_at hitem.reads
      ((readsAt_terminate hsemi (by decide) (by decide)).bind_nil (Parser.reads_pure _ _)
        (List.Subset.refl _))
      fun _ hrest => hsemi.headKind_append hrest
  refine ⟨?_, .inr hhead⟩
  rw [imports_eq]
  refine Parser.readsAt_kind_bind _ rfl (fun he => by simp [he] at hhead) ?_
  rw [if_pos hhead, ← List.append_assoc]
  refine hread.bind ?_ fun _ hrest => hmore.headKind_append hrest
  rw [List.length_append, ← Nat.add_assoc]
  exact hmore.reads.bind_pure fun is => (some item).toList ++ is

theorem readsAt_heading (name l : String) (hsemi : SemicolonAt .compilationUnit (i + 2) word rs) :
    heading.ReadsAt i (⟨.kwModule, l⟩ :: ⟨.identifier, name⟩ :: word) name rs afterImport := by
  have hend : (terminate .semicolon .compilationUnit headingSync).ReadsAt (i + 2) word () rs
      afterImport := readsAt_terminate hsemi (by decide) (by decide)
  intro rest hrest
  have hindex : i + 2 + word.length = i + (word.length + 2) := by omega
  simp [heading, moduleKeyword, identifier, expect, hend rest hrest, hindex]

theorem reads_fullStop (l : String) : fullStop.Reads [⟨.period, l⟩] () [.eof] := by
  intro rest index hrest
  simp [fullStop, expect, List.mem_singleton.1 hrest]

/-- Heading, imports, block, closing name and full stop. -/
theorem readsAt_unit {name : String} {is : List Import} {b : Block} {start near : List Kind}
    (endName l : String) (hheading : heading.ReadsAt i word name rs start)
    (his : imports.ReadsAt (i + word.length) u is ss near)
    (hb : block.ReadsAt (i + word.length + u.length) v b ts Kind.all)
    (hstart : ∀ rest, headKind (u ++ (v ++ rest)) ∈ start)
    (hnear : ∀ rest, headKind (v ++ rest) ∈ near) :
    compilationUnit.ReadsAt i
      (word ++ (u ++ (v ++ [⟨.identifier, endName⟩, ⟨.period, l⟩])))
      ⟨name, is, b, endName⟩ (rs ++ (ss ++ ts)) [.eof] := by
  have hend : (do
      let endName ← (identifier .compilationUnit).attempt
      fullStop
      return Module.mk name is b (endName.getD "") : Parser Module).Reads
      [⟨.identifier, endName⟩, ⟨.period, l⟩] ⟨name, is, b, endName⟩ [.eof] :=
    Parser.Reads.cons (reads_identifier endName .compilationUnit)
      ((reads_fullStop l).bind_nil (Parser.reads_pure _ _) (List.Subset.refl _))
  refine hheading.bind (his.bind (hb.bind_reads hend fun _ _ => Kind.mem_all _) fun rest _ => ?_)
    fun rest _ => ?_
  · rw [List.append_assoc]
    exact hnear _
  · rw [List.append_assoc, List.append_assoc]
    exact hstart _

/-- A whole module, up to the end of the input. -/
theorem readsAt_compilationUnit (name endName l₁ l₂ : String) {is : List Import} {b : Block}
    (hsemi : SemicolonAt .compilationUnit (i + 2) word rs)
    (his : ImportsAt is (i + word.length + 2) u ss)
    (hb : BlockAt b (i + word.length + 2 + u.length) v ts) :
    compilationUnit.ReadsAt i
      (⟨.kwModule, l₁⟩ :: ⟨.identifier, name⟩ ::
        (word ++ (u ++ (v ++ [⟨.identifier, endName⟩, ⟨.period, l₂⟩]))))
      ⟨name, is, b, endName⟩ (rs ++ (ss ++ ts)) [.eof] := by
  have hlength : i + word.length + 2 =
      i + (⟨.kwModule, l₁⟩ :: ⟨.identifier, name⟩ :: word : List Symbol).length := by
    simp only [List.length_cons]
    omega
  rw [hlength] at his hb
  have hstart (rest : List Symbol) : headKind (u ++ (v ++ rest)) ∈ afterImport :=
    his.headKind_append (hb.headKind_append rest)
  have hread := readsAt_unit endName l₂ (readsAt_heading name l₁ hsemi) his.reads hb.reads
    hstart hb.headKind_append
  exact hread

theorem readsWith_compilationUnit {name endName : String} {is : List Import} {b : Block}
    (l₁ l₂ l₃ : String) (his : ∀ i, ImportsAt is i u []) (hb : ReadsBlock n v b) :
    compilationUnit.ReadsWith 1 n
      (⟨.kwModule, l₁⟩ :: ⟨.identifier, name⟩ :: ⟨.semicolon, l₂⟩ ::
        (u ++ (v ++ [⟨.identifier, endName⟩, ⟨.period, l₃⟩])))
      ⟨name, is, b, endName⟩ [.eof] := by
  intro i
  obtain ⟨rs, hreads, hmarks⟩ := hb (i + 1 + 2 + u.length)
  have hread := readsAt_compilationUnit name endName l₁ l₃ (.present l₂) (his _) hreads
  exact ⟨rs, hread, hmarks.mono (by omega) (by simp; omega)⟩

end ModSyntax.Rule
