import ModSyntax.Proofs.Reading.Entries
import ModSyntax.Proofs.Reading.Holes

/-!
# Broken headings

What stands in place of the heading of a procedure costs no more than that procedure: its block is
read, and its closing name, and the procedure is left out or has that block
(`readsAt_brokenHeading`).

The heading ends before its semicolon, or it has a bracket that is not closed. Then the semicolon is
taken for one between parameters, and the variables that the block begins with for parameters; where
these end, a block is read all the same (`swallows_block`).
-/

namespace ModSyntax

/-- The name of a procedure, and its parameters if it has any. -/
inductive Heading : List Symbol → String → Option Parameters → Prop where
  | plain {n : String} : Heading [⟨.identifier, n⟩] n none
  | withParameters {n : String} {u : List Symbol} {ps : Parameters} :
      Derives .parameters u ps → Heading (⟨.identifier, n⟩ :: u) n (some ps)

theorem Derives.heading {word : List Symbol} {d : Declaration} (h : Derives .procedure word d) :
    ∃ l₁ u name ps l₂ v b endName,
      word = ⟨.kwProcedure, l₁⟩ :: (u ++ ⟨.semicolon, l₂⟩ :: (v ++ [⟨.identifier, endName⟩])) ∧
      Heading u name ps ∧ Derives .block v b ∧ d = .procedure ⟨name, ps, b, endName⟩ := by
  cases h with
  | procedure hb => exact ⟨_, _, _, _, _, _, _, _, rfl, .plain, hb, rfl⟩
  | procedureWith hps hb => exact ⟨_, _, _, _, _, _, _, _, rfl, .withParameters hps, hb, rfl⟩

theorem Heading.derives {u v : List Symbol} {name : String} {ps : Option Parameters} {b : Block}
    (h : Heading u name ps) (hb : Derives .block v b) (l₁ l₂ endName : String) :
    Derives .procedure
      (⟨.kwProcedure, l₁⟩ :: (u ++ ⟨.semicolon, l₂⟩ :: (v ++ [⟨.identifier, endName⟩])))
      (.procedure ⟨name, ps, b, endName⟩) := by
  cases h with
  | plain => exact .procedure hb
  | withParameters hps => exact .procedureWith hps hb

/-- The phrases made of names. -/
def Phrase.names : Phrase → Bool
  | vars | identList | moreNames | qualident | moreSegments => true
  | _ => false

/-- Nothing in a variable ends the search for the end of a parameter. -/
theorem Derives.parameterSyncFree {p : Phrase} {w : List Symbol} {t : p.Tree} (h : Derives p w t)
    (hp : p.names = true) : ∀ s ∈ w, s.kind ∉ Parser.parameterSync := by
  induction h with
  | _ => simp_all [or_imp, Phrase.names, Parser.parameterSync]

namespace Rule

open ModSyntax.Parser

variable {u v w word x y : List Symbol} {i : Nat} {rs ss : List Report} {b : Block}

/-! ## Parameters in a block -/

/-- What no parameter goes on behind, and where a block can begin. -/
def parameterEnd : List Kind := [.kwConst, .kwProcedure, .kwBegin, .kwEnd]

theorem run_parameterList (c : Cursor) :
    parameterList.run c = (parameterListStep parameterList).run c :=
  congrArg (Parser.run · c) parameterList_eq

/-- A broken parameter with no other behind it. -/
theorem readsAt_parameter_last
    (hx : (parameter.orSkipUntil parameterSync).ReadsAt i x none rs parameterEnd) :
    parameterList.ReadsAt i x none rs parameterEnd := by
  intro rest hrest
  have hsemi : headKind rest ≠ .semicolon := fun he => absurd (he ▸ hrest) (by decide)
  simp [run_parameterList, parameterListStep, hx rest hrest, hsemi]

/-- A parameter, whole or broken, with a semicolon behind it. -/
theorem readsAt_parameter_cons {found : Option Parameter} (l : String)
    (hx : (parameter.orSkipUntil parameterSync).ReadsAt i x found rs [.semicolon])
    (hy : parameterList.ReadsAt (i + x.length + 1) y none ss parameterEnd) :
    parameterList.ReadsAt i (x ++ ⟨.semicolon, l⟩ :: y) none (rs ++ ss) parameterEnd := by
  intro rest hrest
  have hfirst := hx (⟨.semicolon, l⟩ :: (y ++ rest)) (by simp)
  have hmore := hy rest hrest
  have hindex : i + x.length + 1 + y.length = i + (x.length + (y.length + 1)) := by omega
  rw [List.append_assoc, List.cons_append, run_parameterList, parameterListStep, run_bind, hfirst]
  cases found <;> simp [hmore, hindex]

theorem readsAt_noParameter (i : Nat) :
    (parameter.orSkipUntil parameterSync).ReadsAt i [] none
      [⟨i, .unexpected .parameter [.identifier]⟩] parameterEnd := by
  intro rest hrest
  have hkinds : ∀ k ∈ parameterEnd, k ≠ .kwVar ∧ k ≠ .identifier ∧ k ∈ parameterSync := by decide
  obtain ⟨hvar, hident, hsync⟩ := hkinds _ hrest
  have hstay : Cursor.skipUntil ⟨rest, i⟩ parameterSync = ⟨rest, i⟩ :=
    Cursor.skipUntil_of_mem (by simpa using hsync)
  simp [orSkipUntil, parameter, identifierList, commaList, identifier, expect, hvar, hident, hstay]

/-- A `VAR` without a name is skipped, with what stands behind it. -/
theorem readsAt_brokenParameter (l : String) (hy : ∀ s ∈ y, s.kind ∉ parameterSync)
    (hhead : headKind y ≠ .identifier) (i : Nat) :
    (parameter.orSkipUntil parameterSync).ReadsAt i (⟨.kwVar, l⟩ :: y) none
      [⟨i + 1, .unexpected .parameter [.identifier]⟩] parameterSync := by
  intro rest hrest
  have hkind : headKind (y ++ rest) ≠ .identifier := by
    cases y with
    | nil => exact fun he => absurd (he ▸ hrest) (by decide)
    | cons => exact hhead
  have hskip := Cursor.skipUntil_past hy hrest (i + 1)
  have hindex : i + 1 + y.length = i + (y.length + 1) := by omega
  simp [orSkipUntil, parameter, identifierList, commaList, identifier, expect, hkind, hskip, hindex]

theorem readsAt_wholeParameter {p : Parameter} (h : Derives .parameter word p) (i : Nat) :
    (parameter.orSkipUntil parameterSync).ReadsAt i word (some p) [] [.semicolon] :=
  (reads_orSkipUntil ((readsPhrase_of_derives h).reads.mono (by decide)) parameterSync).readsAt i

/-- The declarations begin with no section of variables. -/
def EndsParameters (word : List Symbol) : Prop :=
  (∃ ds, Derives .declarations word ds) ∧ (word = [] ∨ headKind word ∈ [.kwConst, .kwProcedure])

/-- A list of parameters that goes on in the word has no value, and ends in front of declarations in
it. -/
def Swallows (word : List Symbol) : Prop :=
  ∃ taken left, word = taken ++ left ∧ EndsParameters left ∧
    ∀ i, ∃ reports, parameterList.ReadsAt i taken none reports parameterEnd

/-- A parameter that is broken before the word is skipped up to declarations in it, or up to a
semicolon behind which the list of parameters goes on. -/
def SkipsOn (word : List Symbol) : Prop :=
  ∃ skipped left, word = skipped ++ left ∧ (∀ s ∈ skipped, s.kind ∉ parameterSync) ∧
    headKind skipped ≠ .identifier ∧
    (EndsParameters left ∨ ∃ l w, left = ⟨.semicolon, l⟩ :: w ∧ Swallows w)

theorem EndsParameters.swallows (h : EndsParameters word) : Swallows word ∧ SkipsOn word :=
  ⟨⟨[], word, rfl, h, fun i => ⟨_, readsAt_parameter_last (readsAt_noParameter i)⟩⟩,
    ⟨[], word, rfl, by simp, by simp, .inl h⟩⟩

/-- One more parameter in front of a semicolon. -/
theorem Swallows.cons {p : Parameter} {l : String} (hu : Derives .parameter u p)
    (h : Swallows v) : Swallows (u ++ ⟨.semicolon, l⟩ :: v) := by
  obtain ⟨taken, left, rfl, hleft, hread⟩ := h
  refine ⟨u ++ ⟨.semicolon, l⟩ :: taken, left, by simp, hleft, fun i => ?_⟩
  obtain ⟨rs, hmore⟩ := hread (i + u.length + 1)
  exact ⟨_, readsAt_parameter_cons l (readsAt_wholeParameter hu i) hmore⟩

/-- A section of variables without entries. -/
theorem SkipsOn.swallows_var (h : SkipsOn v) (l : String) : Swallows (⟨.kwVar, l⟩ :: v) := by
  obtain ⟨skipped, left, rfl, hfree, hhead,
    hleft | ⟨l', w, rfl, taken, left, rfl, hleft, hread⟩⟩ := h
  · refine ⟨⟨.kwVar, l⟩ :: skipped, left, rfl, hleft, fun i => ?_⟩
    have hbroken := (readsAt_brokenParameter l hfree hhead i).mono
      (by decide : parameterEnd ⊆ parameterSync)
    exact ⟨_, readsAt_parameter_last hbroken⟩
  · refine ⟨⟨.kwVar, l⟩ :: (skipped ++ ⟨.semicolon, l'⟩ :: taken), left, by simp, hleft,
      fun i => ?_⟩
    obtain ⟨rs, hmore⟩ := hread (i + (skipped.length + 1) + 1)
    have hbroken := (readsAt_brokenParameter l hfree hhead i).mono
      (by decide : [.semicolon] ⊆ parameterSync)
    exact ⟨_, readsAt_parameter_cons l' hbroken hmore⟩

theorem SkipsOn.var (h : SkipsOn v) (l : String) : SkipsOn (⟨.kwVar, l⟩ :: v) := by
  obtain ⟨skipped, left, rfl, hfree, -, hleft⟩ := h
  have hvar : Kind.kwVar ∉ parameterSync := by decide
  exact ⟨⟨.kwVar, l⟩ :: skipped, left, rfl, List.forall_mem_cons.2 ⟨hvar, hfree⟩, by simp, hleft⟩

theorem swallows_entries {ds : List Declaration} (hu : Section.vars.Entries u ds)
    (h : Swallows v) : Swallows (u ++ v) := by
  induction hu with
  | nil => exact h
  | cons hd _ ih =>
    cases hd with
    | vars hns hq =>
      rw [List.append_assoc, List.cons_append]
      exact ih.cons (.valueParameter hns hq)

/-- A list of parameters that goes on in a section of variables takes its entries, and a broken
parameter before it is skipped with the first of them. -/
theorem swallows_section {ds : List Declaration} (l : String) (hu : Section.vars.Entries u ds)
    (h : Swallows v ∧ SkipsOn v) :
    Swallows (⟨.kwVar, l⟩ :: (u ++ v)) ∧ SkipsOn (⟨.kwVar, l⟩ :: (u ++ v)) := by
  cases hu with
  | nil => exact ⟨h.2.swallows_var l, h.2.var l⟩
  | @cons e w l' d ds he hw =>
    have hmore := swallows_entries hw h.1
    rw [List.append_assoc, List.cons_append]
    have hvar : Kind.kwVar ∉ parameterSync := by decide
    have hfree : ∀ s ∈ e, s.kind ∉ parameterSync := Derives.parameterSyncFree he rfl
    refine ⟨?_, ⟨.kwVar, l⟩ :: e, _, rfl, List.forall_mem_cons.2 ⟨hvar, hfree⟩, by simp,
      .inr ⟨l', _, rfl, hmore⟩⟩
    cases he with
    | vars hns hq => exact hmore.cons (.varParameter hns hq)

/-- What a list of parameters does in declarations. A section or a procedure is looked at together
with the declarations behind it. -/
def SwallowsPhrase : (p : Phrase) → List Symbol → p.Tree → Prop
  | .declarations, w, _ => Swallows w ∧ SkipsOn w
  | _, _, _ => True

theorem swallowsPhrase_of_derives {p : Phrase} {w : List Symbol} {t : p.Tree}
    (h : Derives p w t) : SwallowsPhrase p w t := by
  induction h with
  | noDeclarations => exact EndsParameters.swallows ⟨⟨_, .noDeclarations⟩, .inl rfl⟩
  | @declarations u ds v es hds hes _ ih =>
    -- Nothing but a section of variables can be taken for parameters.
    rcases hds.section_or_procedure with ⟨sec, l, u, rfl, hu⟩ | ⟨u, l, d, rfl, rfl, hd⟩
    · cases sec with
      | constants =>
        exact EndsParameters.swallows ⟨⟨_, .declarations hds hes⟩, .inr (by simp [Section.keyword])⟩
      | vars => exact swallows_section l hu ih
    · refine EndsParameters.swallows ⟨⟨_, .declarations hds hes⟩, .inr ?_⟩
      have hhead := (readsPhrase_of_derives hd).2
      rw [List.append_assoc, headKind_append_of_ne (by simp [hhead]), hhead]
      simp
  | _ => trivial

/-- A list of parameters that goes on in a block ends in front of a block. -/
theorem swallows_block (h : Derives .block v b) :
    ∃ taken v' b', v = taken ++ v' ∧ Derives .block v' b' ∧ headKind v' ∈ parameterEnd ∧
      ∀ i, ∃ reports, parameterList.ReadsAt i taken none reports parameterEnd := by
  have hends {left rest : List Symbol} (hleft : EndsParameters left)
      (hrest : headKind rest ∈ parameterEnd) : headKind (left ++ rest) ∈ parameterEnd :=
    (by decide : [.kwConst, .kwProcedure] ++ parameterEnd ⊆ parameterEnd)
      (headKind_append_mem hleft.2 (by decide) hrest)
  cases h with
  | @block u ds l hds =>
    obtain ⟨taken, left, rfl, hleft, hread⟩ := (swallowsPhrase_of_derives hds).1
    obtain ⟨es, hes⟩ := hleft.1
    exact ⟨taken, _, _, List.append_assoc _ _ _, .block hes, hends hleft (by simp [parameterEnd]),
      hread⟩
  | @blockWithBody u ds l₁ w ss l₂ hds hss =>
    obtain ⟨taken, left, rfl, hleft, hread⟩ := (swallowsPhrase_of_derives hds).1
    obtain ⟨es, hes⟩ := hleft.1
    exact ⟨taken, _, _, List.append_assoc _ _ _, .blockWithBody hes hss,
      hends hleft (by simp [parameterEnd]), hread⟩

/-! ## Parameters in a heading -/

theorem confined_parameter : parameter.Confined .semicolon :=
  (confined_lift (confined_accept (by decide))).bind fun _ => (confined_identifierList _).bind
    fun _ => (confined_discard_expect (by decide) _).bind fun _ =>
      (confined_qualifiedName _).bind fun _ => confined_pure _

theorem confined_orLeave {α : Type} {r : Rule α} (h : r.Confined .semicolon) :
    (parameters.orLeave r).Confined .semicolon := by
  refine (confined_lift h).bind fun a? => ?_
  cases a? with
  | none => exact (confined_lift (confined_skipUntil (by decide))).bind fun _ => confined_fail
  | some a => exact confined_pure a

/-- What follows the parameters. -/
def parametersTail (params : Option (List Parameter)) : Rule Parameters := do
  discard <| parameters.orLeave (expect .rparen .parameters)
  let result ← after? .colon (parameters.orLeave (qualifiedName .parameters))
  match params with
  | some params => return ⟨params, result⟩
  | none => fail

theorem parameters_eq : parameters = (do
    skip
    let params ← parameterItems
    parametersTail params) := rfl

theorem confined_parametersTail (params : Option (List Parameter)) :
    (parametersTail params).Confined .semicolon := by
  have hparen : (parameters.orLeave (expect .rparen .parameters)).Confined .semicolon :=
    confined_orLeave (confined_expect (by decide) _)
  refine (hparen.bind fun _ => confined_pure ()).bind fun _ =>
    (confined_after? (by decide) (confined_orLeave (confined_qualifiedName _))).bind fun _ => ?_
  cases params with
  | none => exact confined_fail
  | some params => exact confined_pure _

/-- The first parameter of a heading ends before the semicolon, or is all that stands before it. -/
theorem parameterList_cases (hfree : StopFree .semicolon word) (i : Nat) :
    parameterList.ConfinedAt .semicolon i word ∨
      ∃ found reports, (parameter.orSkipUntil parameterSync).ReadsAt i word found reports
        [.semicolon] := by
  obtain ⟨taken, left, found, rs, rfl, hbounds, hrun⟩ :=
    confined_parameter.orSkipUntil (by decide : _ ⊆ parameterSync) i word hfree
  cases left with
  | nil =>
    rw [List.append_nil] at hrun ⊢
    exact .inr ⟨found, rs, fun rest hrest => hrun rest hrest⟩
  | cons s left =>
    -- What is left begins with no semicolon, so no other parameter is looked for.
    have hs : s.kind ≠ .semicolon := by simpa [Stops.semicolon] using hfree s (by simp)
    refine .inl ⟨taken, s :: left, found.map ([·]), rs, rfl, hbounds, fun rest hrest => ?_⟩
    rw [run_parameterList, parameterListStep, run_bind, hrun rest hrest]
    simp [hs]

theorem parameterItems_cases (hfree : StopFree .semicolon word) (i : Nat) :
    parameterItems.ConfinedAt .semicolon i word ∨ headKind word ∈ [.kwVar, .identifier] ∧
      ∃ found reports, (parameter.orSkipUntil parameterSync).ReadsAt i word found reports
        [.semicolon] := by
  cases word with
  | nil =>
    have hstops : ∀ k ∈ statementStops, k ∉ [.kwVar, .identifier] := by decide
    exact .inl (Parser.confinedAt_kind_bind_nil (fun k hk => if_neg (hstops k hk))
      (Parser.confined_pure (some []) i [] hfree))
  | cons s word =>
    by_cases hs : s.kind ∈ [.kwVar, .identifier]
    · refine (parameterList_cases hfree i).imp (fun hlist => ?_) (⟨hs, ·⟩)
      refine Parser.confinedAt_kind_bind_cons ?_
      rwa [if_pos hs]
    · refine .inl (Parser.confinedAt_kind_bind_cons ?_)
      rw [if_neg hs]
      exact Parser.confined_pure _ i _ hfree

/-- The parameters end before the semicolon of the heading, or a bracket opens and a parameter is
all that stands behind it. -/
theorem parameters?_cases (hfree : StopFree .semicolon word) (i : Nat) :
    parameters?.ConfinedAt .semicolon i word ∨
      ∃ l u found reports, word = ⟨.lparen, l⟩ :: u ∧ headKind u ∈ [.kwVar, .identifier] ∧
        (parameter.orSkipUntil parameterSync).ReadsAt (i + 1) u found reports [.semicolon] := by
  cases word with
  | nil =>
    refine .inl (confinedAt_kind_bind_nil (r := pure none) (fun k hk => ?_)
      (confined_pure _ i [] hfree))
    exact if_neg ((by decide : ∀ k ∈ statementStops, k ≠ .lparen) k hk)
  | cons s word =>
    obtain ⟨k, l⟩ := s
    by_cases hk : k = .lparen
    · subst hk
      have hword : StopFree .semicolon word := fun s hs => hfree s (List.mem_cons_of_mem _ hs)
      refine (parameterItems_cases hword (i + 1)).imp (fun hitems => ?_) ?_
      · refine confinedAt_kind_bind_cons ?_
        rw [if_pos rfl, parameters_eq]
        exact (confinedAt_skip_bind ((confinedAt_lift hitems).bind hword
          confined_parametersTail)).bind hfree fun _ => confined_pure _
      · rintro ⟨hhead, found, rs, hread⟩
        exact ⟨l, word, found, rs, rfl, hhead, hread⟩
    · refine .inl (confinedAt_kind_bind_cons ?_)
      rw [if_neg hk]
      exact confined_pure _ i _ hfree

/-- Parameters without a value, and no bracket to close them. -/
theorem readsAt_noParameters (l : String) (hx : parameterItems.ReadsAt (i + 1) x none rs
    parameterEnd) :
    parameters?.attempt.ReadsAt i (⟨.lparen, l⟩ :: x) none
      (rs ++ [⟨i + 1 + x.length, .unexpected .parameters [.rparen]⟩]) parameterEnd := by
  intro rest hrest
  have hkinds : ∀ k ∈ parameterEnd, k ≠ .rparen ∧ k ∈ declarationSync := by decide
  obtain ⟨hparen, hsync⟩ := hkinds _ hrest
  have hstay : Cursor.skipUntil ⟨rest, i + 1 + x.length⟩ declarationSync =
      ⟨rest, i + 1 + x.length⟩ := Cursor.skipUntil_of_mem (by simpa using hsync)
  have hindex : i + (x.length + 1) = i + 1 + x.length := by omega
  simp [parameters?, parameters_eq, parametersTail, parameters.orLeave, expect, hx rest hrest,
    hparen, hstay, hindex]

/-- A bracket is not closed before the semicolon of the heading, and the list of parameters goes on
behind it. -/
theorem readsAt_unclosed {found : Option Parameter} (l₁ l₂ : String)
    (hhead : headKind u ∈ [.kwVar, .identifier])
    (hu : (parameter.orSkipUntil parameterSync).ReadsAt (i + 1) u found rs [.semicolon])
    (hv : parameterList.ReadsAt (i + 1 + u.length + 1) v none ss parameterEnd) :
    ∃ reports, parameters?.attempt.ReadsAt i (⟨.lparen, l₁⟩ :: (u ++ ⟨.semicolon, l₂⟩ :: v)) none
      reports parameterEnd := by
  have hitems : parameterItems.ReadsAt (i + 1) (u ++ ⟨.semicolon, l₂⟩ :: v) none (rs ++ ss)
      parameterEnd := by
    intro rest hrest
    have hkind : headKind (u ++ ⟨.semicolon, l₂⟩ :: v ++ rest) ∈ [.kwVar, .identifier] := by
      rwa [List.append_assoc, headKind_append_of_ne fun he => absurd (he ▸ hhead) (by decide)]
    rw [parameterItems, run_kind_bind, Cursor.kind_mk, if_pos hkind]
    exact readsAt_parameter_cons l₂ hu hv rest hrest
  exact ⟨_, readsAt_noParameters l₁ hitems⟩

/-! ## Procedures -/

theorem stopFree_heading (h : ∀ s ∈ word, s.kind ∉ .eof :: declarationSync) :
    StopFree .semicolon word := fun s hs hk =>
  h s hs ((by decide : Stops.semicolon.kinds ⊆ .eof :: declarationSync) hk)

/-- The semicolon of the heading is missed in front of the block. -/
theorem readsAt_procedureRest_missing (name? : Option String)
    (params? : Option (Option Parameters)) (endName : String)
    (hb : block.ReadsAt i v b ss Kind.all) (hv : headKind v ∉ [.eof, .semicolon]) :
    ∃ reports, (procedureRest name? params?).attempt.ReadsAt i (v ++ [⟨.identifier, endName⟩])
      (name?.bind fun name => params?.map fun params => .procedure ⟨name, params, b, endName⟩)
      reports Kind.all := by
  obtain ⟨heof, hne⟩ : headKind v ≠ .eof ∧ headKind v ≠ .semicolon := by simpa using hv
  have hsemi : (require .semicolon .procedure).ReadsAt i [] () _ [headKind v] :=
    readsAt_require .missing (by simpa using hne.symm)
  have hread := readsAt_procedureRest name? params? endName hsemi hb fun rest => by
    rw [headKind_append_of_ne heof]
    exact List.mem_singleton_self _
  exact ⟨_, hread⟩

/-- The block and the closing name are read behind what is left of a heading before its
semicolon. -/
theorem readsAt_procedureRest_behind (name? : Option String) (params? : Option (Option Parameters))
    (l endName : String) (hx : ∀ s ∈ x, s.kind ∉ .eof :: declarationSync)
    (hv : Derives .block v b) (i : Nat) :
    ∃ reports, (procedureRest name? params?).attempt.ReadsAt i
      (x ++ ⟨.semicolon, l⟩ :: (v ++ [⟨.identifier, endName⟩]))
      (name?.bind fun name => params?.map fun params => .procedure ⟨name, params, b, endName⟩)
      reports Kind.all := by
  have hblock (j : Nat) : block.ReadsAt j v b [] Kind.all := (readsPhrase_of_derives hv j).reads
  cases x with
  | nil =>
    have hsemi := (reads_require .semicolon l .procedure Kind.all).readsAt i
    have hread := readsAt_procedureRest name? params? endName hsemi (hblock _)
      fun _ => Kind.mem_all _
    exact ⟨_, hread⟩
  | cons s x =>
    -- The semicolon is missed in front of `s`, and passed over later with the stray symbols.
    have hstray := readsAt_block_behind (resumesAt_stray l hx i) (hblock _)
    obtain ⟨rs, hread⟩ := readsAt_procedureRest_missing name? params? endName hstray fun hk =>
      hx s List.mem_cons_self ((by decide : [.eof, .semicolon] ⊆ .eof :: declarationSync) hk)
    rw [List.append_assoc, List.append_assoc] at hread
    exact ⟨rs, hread⟩

/-- A bracket is left open, and the procedure is left out: its variables are taken for parameters,
and what is left of the block is still a block. -/
theorem readsAt_procedureRest_unclosed {found : Option Parameter} (name? : Option String)
    (l₁ l₂ endName : String) (hhead : headKind u ∈ [.kwVar, .identifier])
    (hu : (parameter.orSkipUntil parameterSync).ReadsAt (i + 1) u found rs [.semicolon])
    (hv : Derives .block v b) :
    ∃ reports,
      (parameters?.attempt >>= fun params? => (procedureRest name? params?).attempt).ReadsAt i
        (⟨.lparen, l₁⟩ :: u ++ ⟨.semicolon, l₂⟩ :: (v ++ [⟨.identifier, endName⟩])) none reports
        Kind.all := by
  obtain ⟨taken, v', b', rfl, hv', hstart, htaken⟩ := swallows_block hv
  obtain ⟨rs', htaken⟩ := htaken (i + 1 + u.length + 1)
  obtain ⟨rs, hparams⟩ := readsAt_unclosed l₁ l₂ hhead hu htaken
  have hkinds : ∀ k ∈ parameterEnd, k ∉ [.eof, .semicolon] := by decide
  obtain ⟨ss, hrest⟩ := readsAt_procedureRest_missing name? none endName
    (readsPhrase_of_derives hv' (i + _)).reads (hkinds _ hstart)
  have hword :
      ⟨.lparen, l₁⟩ :: u ++ ⟨.semicolon, l₂⟩ :: (taken ++ v' ++ [⟨.identifier, endName⟩]) =
        ⟨.lparen, l₁⟩ :: (u ++ ⟨.semicolon, l₂⟩ :: taken) ++ (v' ++ [⟨.identifier, endName⟩]) := by
    simp
  have hnone : (name?.bind fun name => Option.map
      (fun params => Declaration.procedure ⟨name, params, b', endName⟩) none) = none := by simp
  rw [hnone] at hrest
  rw [hword]
  refine ⟨rs ++ ss, hparams.bind hrest fun rest _ => ?_⟩
  rwa [List.append_assoc, headKind_append_of_ne fun he => hkinds _ hstart (by simp [he])]

/-- Behind its name a procedure is read to its closing name, whatever stands before the semicolon of
its heading. -/
theorem readsAt_behindName (name? : Option String) (l endName : String)
    (hx : ∀ s ∈ x, s.kind ∉ .eof :: declarationSync) (hv : Derives .block v b) (i : Nat) :
    ∃ found reports,
      (parameters?.attempt >>= fun params? => (procedureRest name? params?).attempt).ReadsAt i
        (x ++ ⟨.semicolon, l⟩ :: (v ++ [⟨.identifier, endName⟩])) found reports Kind.all ∧
      ∀ d ∈ found, ∃ name ps, d = .procedure ⟨name, ps, b, endName⟩ := by
  rcases parameters?_cases (stopFree_heading hx) i with hconfined | ⟨l', u, _, _, rfl, hhead, hu⟩
  · refine hconfined.readsAt_bind (by simp [Stops.semicolon]) ?_
    rintro params? taken left rfl
    obtain ⟨rs, hread⟩ := readsAt_procedureRest_behind name? params? l endName
      (fun s hs => hx s (List.mem_append_right _ hs)) hv (i + taken.length)
    refine ⟨_, rs, hread, fun d hd => ?_⟩
    obtain ⟨name, -, hps⟩ := Option.bind_eq_some_iff.1 hd
    obtain ⟨ps, -, rfl⟩ := Option.map_eq_some_iff.1 hps
    exact ⟨name, ps, rfl⟩
  · obtain ⟨rs, hread⟩ := readsAt_procedureRest_unclosed name? l' l endName hhead hu hv
    exact ⟨none, rs, hread, nofun⟩

/-- What stands in place of a heading, up to its semicolon, costs no more than the procedure. -/
theorem readsAt_brokenHeading (l₁ l₂ endName : String)
    (hx : ∀ s ∈ x, s.kind ∉ .eof :: declarationSync) (hv : Derives .block v b) (i : Nat) :
    ∃ found reports, (procedureOf block).attempt.ReadsAt i
        (⟨.kwProcedure, l₁⟩ :: (x ++ ⟨.semicolon, l₂⟩ :: (v ++ [⟨.identifier, endName⟩]))) found
        reports Kind.all ∧
      ∀ d ∈ found, ∃ name ps, d = .procedure ⟨name, ps, b, endName⟩ := by
  have hattempt : (procedureOf block).attempt = skip >>= fun _ =>
      (identifier .procedure).attempt >>= fun name? =>
        parameters?.attempt >>= fun params? => (procedureRest name? params?).attempt := by
    simp only [procedureOf_block, attempt_lift_bind]
  have hname : (identifier .procedure).attempt.ConfinedAt .semicolon (i + 1) x :=
    confined_expect (by decide) _ (i + 1) x (stopFree_heading hx)
  obtain ⟨found, rs, hread, hfound⟩ := hname.readsAt_bind (by simp [Stops.semicolon])
    fun name? taken left hleft => readsAt_behindName name? l₂ endName
      (fun s hs => hx s (hleft ▸ List.mem_append_right _ hs)) hv (i + 1 + taken.length)
  rw [hattempt]
  exact ⟨found, rs, .cons (fun near => reads_skip _ near) hread, hfound⟩

end Rule

end ModSyntax
