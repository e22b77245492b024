import ModSyntax.Proofs.Soundness.Statement

/-!
# Modules up to the first report

Where a rule for declarations, blocks or modules has nothing to report, the symbols that it takes
derive the tree that it gives. What it has taken before its first report begins such a phrase; so
what stands before the first report on a module begins a sentence (`follows_compilationUnit`).
-/

namespace ModSyntax.Rule

open ModSyntax.Parser

variable {α : Type} {c : Cursor} {n : Nat} {P : List Symbol → α → Prop}

/-! ## Entries and parameters -/

theorem follows_constant : constant.Follows n (Derives .constant) := by
  refine (follows_identifier .constant).bind fun w name hw => ?_
  subst hw
  refine (follows_discard_expect (by decide) .constant).bind fun w _ hw => ?_
  obtain ⟨l, rfl⟩ := hw
  exact follows_expr.bind_pure fun u e hu => .constant hu

/-- Names with a type, as variables and parameters have them. -/
theorem follows_typedNames (rule : Construct) (f : List String → QualifiedName → α) :
    Follows n (do
      let names ← identifierList rule
      discard <| expect .colon rule
      return f names (← qualifiedName rule)) fun w a => ∃ u ns l v q,
        w = u ++ ⟨.colon, l⟩ :: v ∧ a = f ns q ∧
          Derives .identList u ns ∧ Derives .qualident v q := by
  refine (follows_identifierList rule).bind fun u ns hu => ?_
  refine (follows_discard_expect (by decide) rule).bind fun w _ hw => ?_
  obtain ⟨l, rfl⟩ := hw
  exact (follows_qualifiedName rule).bind_pure fun v q hv => ⟨u, ns, l, v, q, rfl, rfl, hu, hv⟩

theorem follows_vars : vars.Follows n (Derives .vars) := by
  refine (follows_typedNames .vars Declaration.vars).imp ?_
  rintro _ _ ⟨u, ns, l, v, q, rfl, rfl, hu, hv⟩
  exact .vars hu hv

/-- The entries of a section keep to their words if each of them does. -/
theorem follows_entries (rule : Construct) {entry : Rule Declaration}
    (henters : entry.Enters .identifier) {E : List Symbol → Declaration → Prop}
    {Q : List Symbol → List Declaration → Prop} (hentry : ∀ n, entry.Follows n E) (hnil : Q [] [])
    (hcons : ∀ u d l v ds, E u d → Q v ds → Q (u ++ ⟨.semicolon, l⟩ :: v) (d :: ds)) :
    (entries rule entry).Follows n Q := by
  induction n with
  | zero => exact Parser.follows_zero ⟨[], [], hnil⟩
  | succ n ih =>
    refine Parser.follows_succ fun c hc => ?_
    rw [entries_eq rule henters]
    refine Parser.followsAt_kind_bind ?_
    split
    · refine Parser.FollowsAt.bind ((hentry _).below c hc) fun u d? hu => ?_
      obtain ⟨decl, rfl, hu⟩ := hu
      refine Parser.Follows.mono (Parser.follows_succ fun d hd => ?_) (by omega : _ ≤ n + 1)
      refine ((follows_endEntry rule).below d hd).bind fun w _ hw => ?_
      obtain ⟨l, rfl⟩ := hw
      exact (ih.bind_pure fun v ds hv => hcons u decl l v ds hu hv).mono (by simp; omega)
    · exact Parser.followsAt_pure hnil

theorem follows_constDecls : (entries .constant constant).Follows n (Derives .constDecls) :=
  follows_entries .constant enters_constant (fun _ => follows_constant) .noConstDecls
    fun _ _ _ _ _ hd hds => .constDecls hd hds

theorem follows_varDecls : (entries .vars vars).Follows n (Derives .varDecls) :=
  follows_entries .vars enters_vars (fun _ => follows_vars) .noVarDecls
    fun _ _ _ _ _ hd hds => .varDecls hd hds

theorem follows_parameter : parameter.Follows n (Derives .parameter) := by
  refine (follows_lift (follows_accept (by decide))).bind fun w found hfound => ?_
  refine (follows_typedNames .parameter (Parameter.mk found)).imp ?_
  rintro _ _ ⟨u, ns, l, v, q, rfl, rfl, hu, hv⟩
  rcases hfound with ⟨rfl, l₁, rfl⟩ | ⟨rfl, rfl⟩
  · exact .varParameter hu hv
  · exact .valueParameter hu hv

theorem follows_parameterList :
    parameterList.Follows n fun w ps? => ∃ u p v ps, ps? = some (p :: ps) ∧ w = u ++ v ∧
      Derives .parameter u p ∧ Derives .moreParameters v ps := by
  induction n with
  | zero =>
    have hp : Derives .parameter [⟨.identifier, ""⟩, ⟨.colon, ""⟩, ⟨.identifier, ""⟩] _ :=
      .valueParameter (u := [_]) (.identList .noMoreNames) (.qualident .noMoreSegments)
    exact Parser.follows_zero ⟨_ ++ [], _, _, _, [], [], rfl, rfl, hp, .noMoreParameters⟩
  | succ n ih =>
    refine Parser.follows_succ fun c hc => ?_
    rw [parameterList_eq]
    refine ((follows_parameter.orSkipUntil _).below c hc).bind fun u p? hp => ?_
    obtain ⟨p, rfl, hp⟩ := hp
    refine Parser.Follows.mono (Parser.follows_succ fun d hd => ?_) (by omega : _ ≤ n + 1)
    refine ((follows_accept (by decide)).below d hd).bind fun w found hfound => ?_
    rcases hfound with ⟨rfl, l, rfl⟩ | ⟨rfl, rfl⟩
    · refine (ih.bind_pure ?_).mono (by simp; omega)
      rintro _ _ ⟨u', p', v, ps, rfl, rfl, hp', hv⟩
      exact ⟨u, p, ⟨.semicolon, l⟩ :: (u' ++ v), p' :: ps, rfl, rfl, hp, .moreParameters hp' hv⟩
    · exact Parser.follows_pure ⟨u, p, [], [], rfl, by simp, hp, .noMoreParameters⟩

theorem follows_parameterItems :
    parameterItems.Follows n fun w ps? => ∃ ps, ps? = some ps ∧ Derives .parameterList w ps := by
  refine Parser.follows_of_at fun c => Parser.followsAt_kind_bind ?_
  split
  · refine (follows_parameterList.below c (Nat.lt_succ_self _)).imp ?_
    rintro _ _ ⟨u, p, v, ps, rfl, rfl, hp, hv⟩
    exact ⟨p :: ps, rfl, .parameterList hp hv⟩
  · exact Parser.followsAt_pure ⟨[], rfl, .noParameters⟩

theorem Follows.orLeave {r : Rule α} (h : r.Follows n P) :
    (parameters.orLeave r).Follows n P := by
  refine (follows_lift h).bind fun w a? ha => ?_
  obtain ⟨a, rfl, ha⟩ := ha
  exact follows_pure (by rwa [List.append_nil])

theorem followsAt_parameters (hc : c.kind = .lparen) :
    parameters.FollowsAt c (Derives .parameters) := by
  refine (followsAt_lift (followsAt_skip hc (by decide))).bind fun w _ hw => ?_
  obtain ⟨l₁, rfl⟩ := hw
  refine (follows_lift follows_parameterItems).bind fun u ps? hps => ?_
  obtain ⟨ps, rfl, hps⟩ := hps
  have hclose (n : Nat) : (discard (parameters.orLeave (expect .rparen .parameters))).Follows n
      fun w _ => ∃ l, w = [⟨.rparen, l⟩] :=
    (follows_expect (by decide) .parameters).orLeave.map fun _ l hw => ⟨l, hw⟩
  refine (hclose _).bind fun w _ hw => ?_
  obtain ⟨l₂, rfl⟩ := hw
  refine ((follows_qualifiedName .parameters).orLeave.after? (by decide)).bind_pure
    fun w q? hq => ?_
  rcases hq with ⟨q, l₃, v, rfl, rfl, hq⟩ | ⟨rfl, rfl⟩
  · exact .parametersWithResult hps hq
  · exact .parameters hps

theorem follows_parameters? :
    parameters?.Follows n fun w ps? =>
      (∃ ps, ps? = some ps ∧ Derives .parameters w ps) ∨ ps? = none ∧ w = [] := by
  refine follows_of_at fun c => followsAt_kind_bind ?_
  split
  · next hk => exact (followsAt_parameters hk).bind_pure fun w ps hw => .inl ⟨ps, rfl, hw⟩
  · exact followsAt_pure (.inr ⟨rfl, rfl⟩)

/-! ## Declarations and blocks -/

section

-- What holds blocks keeps to its phrases where the blocks inside it do.
variable (h : block.Follows n (Derives .block))

include h

theorem followsAt_procedure (hc : c.kind = .kwProcedure) (hn : c.rest.length ≤ n) :
    (procedureOf block).FollowsAt c (Derives .procedure) := by
  refine (followsAt_lift (followsAt_skip hc (by decide))).bind fun w _ hw => ?_
  obtain ⟨l₁, rfl⟩ := hw
  refine ((follows_lift (follows_identifier .procedure)).bind fun w name? hw => ?_).mono
    (by simpa using hn)
  obtain ⟨name, rfl, rfl⟩ := hw
  refine (follows_lift follows_parameters?).bind fun u ps? hps => ?_
  obtain ⟨ps, rfl, hps⟩ := hps
  refine (follows_lift (follows_require (by decide) .procedure)).bind fun w _ hw => ?_
  obtain ⟨l₂, rfl⟩ := hw
  refine (follows_lift h).bind fun v b hb => ?_
  refine (follows_lift (follows_identifier .procedure)).bind fun w m? hw => ?_
  obtain ⟨m, rfl, rfl⟩ := hw
  rcases hps with ⟨ps, rfl, hps⟩ | ⟨rfl, rfl⟩
  · exact follows_pure (by simpa using Derives.procedureWith hps hb)
  · exact follows_pure (by simpa using Derives.procedure hb)

theorem follows_declarations :
    (declarationsOf block).Follows (n + 1) (Derives .declarations) := by
  suffices hm : ∀ m ≤ n + 1, (declarationsOf block).Follows m (Derives .declarations) from
    hm (n + 1) (Nat.le_refl _)
  intro m hm
  induction m with
  | zero => exact Parser.follows_zero ⟨[], [], .noDeclarations⟩
  | succ m ih =>
    have hmore := ih (by omega)
    refine Parser.follows_succ fun c hc => ?_
    rw [declarationsOf_eq]
    refine Parser.followsAt_kind_bind ?_
    split
    · next hk =>
      refine (followsAt_skip hk (by decide)).bind fun w _ hw => ?_
      obtain ⟨l, rfl⟩ := hw
      exact (follows_constDecls.bind fun u ds hu => hmore.bind_pure fun v es hv =>
        .declarations (u := ⟨.kwConst, l⟩ :: u) (.constSection hu) hv).mono (by simp; omega)
    · next hk =>
      refine (followsAt_skip hk (by decide)).bind fun w _ hw => ?_
      obtain ⟨l, rfl⟩ := hw
      exact (follows_varDecls.bind fun u ds hu => hmore.bind_pure fun v es hv =>
        .declarations (u := ⟨.kwVar, l⟩ :: u) (.varSection hu) hv).mono (by simp; omega)
    · next hk =>
      refine Parser.FollowsAt.bind (followsAt_procedure h hk (by omega)) fun u d? hu => ?_
      obtain ⟨decl, rfl, hu⟩ := hu
      refine Parser.Follows.mono (Parser.follows_succ fun d hd => ?_) (by omega : _ ≤ m + 1)
      refine ((follows_endEntry .procedure).below d hd).bind fun w _ hw => ?_
      obtain ⟨l, rfl⟩ := hw
      refine (hmore.bind_pure fun v es hv => ?_).mono (by simp; omega)
      simpa using Derives.declarations (.procedureSection hu) hv
    · exact Parser.followsAt_pure .noDeclarations
    · exact Parser.followsAt_pure .noDeclarations
    · exact Parser.followsAt_pure .noDeclarations
    · exact Parser.followsAt_unexpected_bind _ _ _ ⟨[], [], .noDeclarations⟩

end

theorem follows_block : block.Follows n (Derives .block) := by
  induction n with
  | zero => exact Parser.follows_zero ⟨[⟨.kwEnd, ""⟩], _, .block .noDeclarations⟩
  | succ n ih =>
    rw [block_eq]
    refine (follows_declarations ih).bind fun u ds hu => follows_body.bind fun w ss hw => ?_
    refine (follows_terminate (by decide) .block sequenceEnd).bind_pure fun z _ hz => ?_
    obtain ⟨l₁, rfl⟩ := hz
    rcases hw with ⟨l₂, v, rfl, hv⟩ | ⟨rfl, rfl⟩
    · exact .blockWithBody hu hv
    · exact .block hu

/-! ## Modules -/

theorem follows_importNames :
    importNames.Follows n fun w i => ∀ l, Derives .importItem (w ++ [⟨.semicolon, l⟩]) i := by
  refine ((follows_identifier .imports).after? (by decide)).bind fun w source hw => ?_
  refine (follows_discard_expect (by decide) .imports).bind fun z _ hz => ?_
  obtain ⟨l₁, rfl⟩ := hz
  refine (follows_identifierList .imports).bind_pure fun u ns hu l₂ => ?_
  rcases hw with ⟨m, l₃, z, rfl, rfl, rfl⟩ | ⟨rfl, rfl⟩
  · exact .importFrom hu
  · exact .importModules hu

theorem follows_importItem :
    importItem.Follows n fun w i? => ∃ i, i? = some i ∧ w ≠ [] ∧ Derives .importItem w i := by
  refine Parser.Follows.bind follows_importNames fun w i? hi => ?_
  obtain ⟨i, rfl, hi⟩ := hi
  refine (follows_terminate (by decide) .imports importSync).bind_pure fun v _ hv => ?_
  obtain ⟨l, rfl⟩ := hv
  exact ⟨i, rfl, by simp, hi l⟩

theorem follows_imports : imports.Follows n (Derives .imports) := by
  induction n with
  | zero => exact Parser.follows_zero ⟨[], [], .noImports⟩
  | succ n ih =>
    refine Parser.follows_succ fun c hc => ?_
    rw [imports_eq]
    refine Parser.followsAt_kind_bind ?_
    split
    · refine (follows_importItem.below c hc).bind fun u i? hu => ?_
      obtain ⟨i, rfl, hne, hu⟩ := hu
      have hpos := List.length_pos_iff.2 hne
      exact (ih.bind_pure fun v is hv => .imports hu hv).mono (by omega)
    · exact Parser.followsAt_pure .noImports

theorem follows_heading :
    heading.Follows n fun w name => ∃ l₁ l₂,
      w = [⟨.kwModule, l₁⟩, ⟨.identifier, name⟩, ⟨.semicolon, l₂⟩] := by
  have hword : moduleKeyword.Follows n fun w found =>
      found = true ∧ ∃ l, w = [⟨.kwModule, l⟩] := by
    refine (follows_accept (by decide)).bind fun w found hfound => ?_
    rcases hfound with ⟨rfl, l, rfl⟩ | ⟨rfl, rfl⟩
    · exact Parser.follows_pure ⟨rfl, l, rfl⟩
    · exact Parser.follows_of_at fun c =>
        Parser.followsAt_unexpected_bind _ _ _ ⟨[⟨.kwModule, ""⟩], true, rfl, "", rfl⟩
  refine hword.bind fun w found hw => ?_
  obtain ⟨rfl, l₁, rfl⟩ := hw
  refine Parser.Follows.bind (follows_identifier .compilationUnit) fun w name? hw => ?_
  obtain ⟨name, rfl, rfl⟩ := hw
  refine (follows_terminate (by decide) .compilationUnit headingSync).bind_pure fun w _ hw => ?_
  obtain ⟨l₂, rfl⟩ := hw
  exact ⟨l₁, l₂, rfl⟩

theorem follows_fullStop : fullStop.Follows n fun w _ => ∃ l, w = [⟨.period, l⟩] := by
  refine Parser.Follows.bind (follows_expect (by decide) .compilationUnit) fun w l? hw => ?_
  obtain ⟨l, rfl, rfl⟩ := hw
  refine Parser.follows_of_at fun c => Parser.followsAt_kind_bind ?_
  split
  · exact followsAt_unexpected _ _ ⟨[], l, rfl⟩
  · exact Parser.followsAt_pure ⟨l, rfl⟩

/-- The parser keeps to the grammar up to its first report. -/
theorem follows_compilationUnit : compilationUnit.Follows n (Derives .compilationUnit) := by
  refine follows_heading.bind fun w name hw => ?_
  obtain ⟨l₁, l₂, rfl⟩ := hw
  refine follows_imports.bind fun u is hu => follows_block.bind fun v b hv => ?_
  refine Parser.Follows.bind (follows_identifier .compilationUnit) fun w m? hw => ?_
  obtain ⟨m, rfl, rfl⟩ := hw
  refine follows_fullStop.bind_pure fun w _ hw => ?_
  obtain ⟨l₃, rfl⟩ := hw
  exact .compilationUnit hu hv

theorem soundAt_compilationUnit (c : Cursor) :
    compilationUnit.SoundAt c (Derives .compilationUnit) :=
  (follows_compilationUnit.below c (Nat.lt_succ_self _)).sound

end ModSyntax.Rule
