import ModSyntax.Proofs.Damage
import ModSyntax.Proofs.Reading.Heading

/-!
# Damage to a declaration

A declaration of a sound module is replaced by other tokens. If an entry of a section is replaced by
tokens in which no other declaration begins, the damage stays in its place: the module around it is
parsed as before, and what stands in its place are entries of the same section
(`parseTokens_damaged_entry`). If the heading of a procedure is replaced, no more is lost than that
procedure, and what is left of it has its block (`parseTokens_broken_heading`).
-/

namespace ModSyntax

/-! ## Places among the tokens -/

/-- A declaration of a module that is parsed without a diagnostic stands at a spot among the
tokens, and the spot in a hole of the module. -/
theorem TokenStream.hasSpot {ts : List Token} {m : Module} {d : Declaration}
    {fill : List Declaration → Module} (h : parseTokens ts = (m, [])) (hd : m.Declares d fill) :
    ∃ before x word y after fill₁ fill₂, ts = before ++ (x ++ (word ++ (y ++ after))) ∧
      (∀ t ∈ before ++ (x ++ (word ++ y)), t.kind ≠ .eof) ∧
      Hole .compilationUnit (before.map Token.toSymbol) (ofTokens after).symbols fill₁ ∧
      Spot (x.map Token.toSymbol) (word.map Token.toSymbol) (y.map Token.toSymbol) d fill₂ ∧
      fill = fun ds => fill₁ (fill₂ ds) := by
  obtain ⟨before, x, word, y, after, fill₁, fill₂, hw, hhole, hspot, rfl⟩ :=
    spotsPhrase_of_derives (Sentence.of_parseTokens h) d fill hd
  simp only [List.append_assoc] at hw
  obtain ⟨before, rest, rfl, rfl, hw, hbefore⟩ := mem_symbols hw
  obtain ⟨x, rest, rfl, rfl, hw, hx⟩ := mem_symbols hw
  obtain ⟨word, rest, rfl, rfl, hw, hword⟩ := mem_symbols hw
  obtain ⟨y, after, rfl, rfl, rfl, hy⟩ := mem_symbols hw
  refine ⟨before, x, word, y, after, fill₁, fill₂, rfl, ?_, hhole, hspot, rfl⟩
  simp only [List.forall_mem_append]
  exact ⟨hbefore, hx, hword, hy⟩

/-- An entry of a section stands in front of its semicolon. What the section takes in place of the
entry is read together with the module. -/
theorem TokenStream.hasEntry {ts : List Token} {m : Module} {d : Declaration} {sec : Section}
    {fill : List Declaration → Module} (h : parseTokens ts = (m, [])) (hd : m.Declares d fill)
    (hsec : d.section? = some sec) :
    ∃ (before word : List Token) (semicolon : Token) (rest : List Token),
      ts = before ++ (word ++ semicolon :: rest) ∧ semicolon.kind = .semicolon ∧
      sec.Entry (word.map Token.toSymbol) d ∧
      ∀ (g : List Token) new rs, (∀ t ∈ g, t.kind ≠ .eof) →
        sec.entries.ResumesAt before.length (g.map Token.toSymbol ++ [semicolon.toSymbol]) new rs
          Kind.all →
        (ofTokens (before ++ (g ++ semicolon :: rest))).parse =
          (fill new, Report.firstPerSymbol rs) := by
  obtain ⟨before, x, word, y, after, fill₁, fill₂, rfl, hne, hhole, hspot, rfl⟩ := hasSpot h hd
  generalize hx : x.map Token.toSymbol = x' at hspot
  generalize hy : y.map Token.toSymbol = y' at hspot
  cases hspot with
  | procedure hproc => simp [hproc.section?_eq_none] at hsec
  | @entry sec' l l' x' _ y' ds es _ hx' hentry hy' =>
    obtain rfl : sec' = sec := Option.some.inj (hentry.section?.symm.trans hsec)
    obtain ⟨semicolon, y, rfl, hsemi, rfl⟩ := List.map_eq_cons_iff.1 hy
    simp only [List.forall_mem_append, List.forall_mem_cons] at hne
    obtain ⟨hbefore, hne_x, -, hne_semi, hne_y⟩ := hne
    refine ⟨before ++ x, word, semicolon, y ++ after, by simp, by simp [hsemi], hentry,
      fun g new rs hg hresumes => ?_⟩
    have hlength : (before ++ x).length = before.length + 1 + x'.length := by
      have := congrArg List.length hx
      simp at this ⊢
      omega
    rw [hlength] at hresumes
    have hfills := Rule.fillsHole_section l hx' hy' hresumes
    have hwhole : ∀ t ∈ x ++ (g ++ semicolon :: y), t.kind ≠ .eof := by
      simp only [List.forall_mem_append, List.forall_mem_cons]
      exact ⟨hne_x, hg, hne_semi, hne_y⟩
    have hparse := parse_hole hbefore hhole hwhole (by simpa [hx] using hfills)
    simpa using hparse

/-- A procedure stands in front of its semicolon. What is read in its place, as a procedure or as
none, is read together with the module. -/
theorem TokenStream.hasProcedure {ts : List Token} {m : Module} {d : Declaration}
    {fill : List Declaration → Module} (h : parseTokens ts = (m, [])) (hd : m.Declares d fill)
    (hsec : d.section? = none) :
    ∃ before word rest : List Token, ts = before ++ (word ++ rest) ∧
      Derives .procedure (word.map Token.toSymbol) d ∧
      ∀ (new : List Token) found rs, (∀ t ∈ new, t.kind ≠ .eof) →
        (Rule.procedureOf Rule.block).attempt.ReadsAt before.length (new.map Token.toSymbol) found
          rs Kind.all →
        headKind (new.map Token.toSymbol) = .kwProcedure →
        (ofTokens (before ++ (new ++ rest))).parse =
          (fill found.toList, Report.firstPerSymbol rs) := by
  obtain ⟨before, x, word, y, after, fill₁, fill₂, rfl, hne, hhole, hspot, rfl⟩ := hasSpot h hd
  generalize hx : x.map Token.toSymbol = x' at hspot
  generalize hy : y.map Token.toSymbol = y' at hspot
  cases hspot with
  | entry _ hentry _ => simp [hentry.section?] at hsec
  | @procedure _ l _ hproc =>
    obtain rfl := List.map_eq_nil_iff.1 hx
    simp only [List.forall_mem_append] at hne
    obtain ⟨hbefore, -, -, hne_y⟩ := hne
    refine ⟨before, word, y ++ after, rfl, hproc, fun new found rs hnew hread hhead => ?_⟩
    have hfills := Rule.fillsHole_procedure l hread hhead
    rw [← hy, ← List.map_append] at hfills
    have hparse := parse_hole hbefore hhole (List.forall_mem_append.2 ⟨hnew, hne_y⟩) hfills
    rwa [List.append_assoc] at hparse

/-- The heading of a procedure stands between its keyword and a semicolon, and behind it stand the
block and the closing name. -/
theorem TokenStream.hasHeading {ts : List Token} {m : Module} {p : Procedure}
    {fill : List Declaration → Module} (h : parseTokens ts = (m, []))
    (hp : m.Declares (.procedure p) fill) :
    ∃ (before : List Token) (keyword : Token) (heading : List Token) (semicolon : Token)
      (body : List Token) (endName : Token) (rest : List Token),
      ts = before ++ (keyword :: (heading ++ semicolon :: (body ++ [endName])) ++ rest) ∧
      keyword.kind = .kwProcedure ∧ Heading (heading.map Token.toSymbol) p.name p.parameters ∧
      semicolon.kind = .semicolon ∧ Derives .block (body.map Token.toSymbol) p.body ∧
      endName.toSymbol = .identifier p.endName ∧
      ∀ (g : List Token) found rs, (∀ t ∈ g, t.kind ≠ .eof) →
        (Rule.procedureOf Rule.block).attempt.ReadsAt before.length
          (⟨.kwProcedure, keyword.lexeme⟩ :: (g.map Token.toSymbol ++
            ⟨.semicolon, semicolon.lexeme⟩ ::
              (body.map Token.toSymbol ++ [⟨.identifier, p.endName⟩]))) found rs Kind.all →
        (ofTokens (before ++ (keyword :: (g ++ semicolon :: (body ++ [endName])) ++ rest))).parse =
          (fill found.toList, Report.firstPerSymbol rs) := by
  obtain ⟨before, word, rest, rfl, hword, hparse⟩ := hasProcedure h hp rfl
  obtain ⟨l₁, u, name, ps, l₂, v, b, endName, hsymbols, hheading, hblock, hd⟩ := hword.heading
  obtain rfl := Declaration.procedure.inj hd
  obtain ⟨keyword, word, rfl, hkeyword, hbehind⟩ := List.map_eq_cons_iff.1 hsymbols
  obtain ⟨heading, word, rfl, rfl, htail⟩ := List.map_eq_append_iff.1 hbehind
  obtain ⟨semicolon, word, rfl, hsemi, hbody⟩ := List.map_eq_cons_iff.1 htail
  obtain ⟨body, word, rfl, rfl, hend⟩ := List.map_eq_append_iff.1 hbody
  obtain ⟨last, rfl, hlast⟩ := List.map_eq_singleton_iff.1 hend
  have hne : ∀ t ∈ body, t.kind ≠ .eof := fun t ht =>
    hblock.kind_ne_eof t.toSymbol (List.mem_map_of_mem ht)
  refine ⟨before, keyword, heading, semicolon, body, last, rest, rfl, by simp [hkeyword],
    hheading, by simp [hsemi], hblock, hlast, fun g found rs hg hread => ?_⟩
  refine hparse _ found rs ?_ (by simpa [hkeyword, hsemi, hlast] using hread) (by simp [hkeyword])
  simp only [List.forall_mem_append, List.forall_mem_cons]
  exact ⟨by simp [hkeyword], hg, by simp [hsemi], hne, by simp [hlast], by simp⟩

/-! ## Entries -/

theorem Section.Entry.kind_ne_eof {sec : Section} {word : List Symbol} {d : Declaration}
    (h : sec.Entry word d) : ∀ s ∈ word, s.kind ≠ .eof := by
  cases sec with
  | constants => exact Derives.kind_ne_eof h
  | vars => exact Derives.kind_ne_eof h

/-- If the tokens of an entry are replaced by others that begin with an identifier and in which no
other declaration begins, the module is parsed as before but for that entry. In its place are
entries of the same section, and each diagnostic is about one of these tokens or the semicolon of
the entry. -/
theorem parseTokens_damaged_entry (ts : List Token) (m : Module) (d : Declaration)
    (fill : List Declaration → Module) (sec : Section) (h : parseTokens ts = (m, []))
    (hd : m.Declares d fill) (hsec : d.section? = some sec) :
    ∃ (before word : List Token) (semicolon : Token) (rest : List Token),
      ts = before ++ (word ++ semicolon :: rest) ∧ semicolon.kind = .semicolon ∧
      sec.Entry (word.map Token.toSymbol) d ∧
      (∀ (other : List Token) d', sec.Entry (other.map Token.toSymbol) d' →
        parseTokens (before ++ (other ++ semicolon :: rest)) = (fill [d'], [])) ∧
      ∀ (first : Token) (g : List Token), first.kind = .identifier →
        (∀ t ∈ g, t.kind ∉ [.semicolon, .kwConst, .kwVar, .kwProcedure, .kwBegin, .kwEnd, .eof]) →
        ∃ ds diagnostics,
          parseTokens (before ++ (first :: g ++ semicolon :: rest)) = (fill ds, diagnostics) ∧
          (∀ d' ∈ ds, d'.section? = some sec) ∧
          ∀ diagnostic ∈ diagnostics, ∃ t ∈ first :: g ++ [semicolon], diagnostic.TrueOf t := by
  obtain ⟨before, word, semicolon, rest, hts, hsemi, hentry, hparse⟩ :=
    TokenStream.hasEntry h hd hsec
  have hsymbol : semicolon.toSymbol = ⟨.semicolon, semicolon.lexeme⟩ := by rw [← hsemi]
  refine ⟨before, word, semicolon, rest, hts, hsemi, hentry, fun other d' hother => ?_,
    fun first g hfirst hg => ?_⟩
  · have hne : ∀ t ∈ other, t.kind ≠ .eof := fun t ht =>
      hother.kind_ne_eof t.toSymbol (List.mem_map_of_mem ht)
    have hread := Rule.resumesAt_entry semicolon.lexeme hother before.length
    exact parseTokens_eq_of_parse (hparse other [d'] [] hne (hsymbol ▸ hread)) (Nat.zero_le 1)
  · have hne : ∀ t ∈ first :: g, t.kind ≠ .eof :=
      List.forall_mem_cons.2 ⟨by simp [hfirst], fun t ht hk => hg t ht (by simp [hk])⟩
    have hsync : ∀ t ∈ first :: g, t.kind ∉ Parser.declarationSync :=
      List.forall_mem_cons.2 ⟨by simp [hfirst, Parser.declarationSync], fun t ht hk =>
        hg t ht ((by decide : Parser.declarationSync ⊆ _) hk)⟩
    obtain ⟨ds, rs, hds, hbounds, hresumes⟩ := (Rule.takesEntries_of_damaged sec before.length
      ((first :: g).map Token.toSymbol) hfirst (List.forall_mem_map.2 hsync)).resumesAt
      semicolon.lexeme
    rw [List.length_map] at hbounds
    obtain ⟨diagnostics, hdiagnostics, htrue⟩ :=
      parseTokens_of_within (hparse (first :: g) ds rs hne (hsymbol ▸ hresumes)) hbounds
    exact ⟨ds, diagnostics, hdiagnostics, hds, htrue⟩

/-- A constant without a value, half an expression and a list of names stand in place of a variable
in a procedure. -/
theorem parseTokens_damaged_entry_nested :
    let tokens (column : Nat) (word : List Symbol) : List Token :=
      (word.zipIdx column).map fun (s, column) => ⟨s, ⟨1, column⟩⟩
    let ts := tokens 1
      [.ofKind .kwModule, .identifier "M", .ofKind .semicolon, .ofKind .kwProcedure,
        .identifier "P", .ofKind .semicolon, .ofKind .kwVar, .identifier "a", .ofKind .colon,
        .identifier "T", .ofKind .semicolon, .identifier "b", .ofKind .colon, .identifier "T",
        .ofKind .semicolon, .ofKind .kwEnd, .identifier "P", .ofKind .semicolon, .ofKind .kwEnd,
        .identifier "M", .ofKind .period, .ofKind .eof]
    let first : Token := ⟨.identifier "c", ⟨2, 1⟩⟩
    let g := tokens 40
      [.ofKind .colon, .identifier "T", .identifier "d", .ofKind .equal, .ofKind .lparen,
        .identifier "e", .ofKind .comma]
    let fill (ds : List Declaration) : Module :=
      let inner := ds ++ [Declaration.vars ["b"] ⟨["T"]⟩]
      ⟨"M", [], ⟨[.procedure ⟨"P", none, ⟨inner, []⟩, "P"⟩], []⟩, "M"⟩
    let d : Declaration := .vars ["a"] ⟨["T"]⟩
    parseTokens ts = (fill [d], []) ∧ (fill [d]).Declares d fill ∧ d.section? = some .vars ∧
      first.kind = .identifier ∧
      (∀ t ∈ g, t.kind ∉ [.semicolon, .kwConst, .kwVar, .kwProcedure, .kwBegin, .kwEnd, .eof]) ∧
      ∃ (before word : List Token) (semicolon : Token) (rest : List Token),
        ts = before ++ (word ++ semicolon :: rest) ∧
        Section.vars.Entry (word.map Token.toSymbol) d ∧
        ∃ ds diagnostics,
          parseTokens (before ++ (first :: g ++ semicolon :: rest)) = (fill ds, diagnostics) ∧
          (∀ d' ∈ ds, d'.section? = some .vars) ∧
          ∀ diagnostic ∈ diagnostics, ∃ t ∈ first :: g ++ [semicolon], diagnostic.TrueOf t := by
  intro tokens ts first g fill d
  have hparse : (TokenStream.ofTokens ts).parse = (fill [d], []) := by decide +kernel
  have h : parseTokens ts = (fill [d], []) := parseTokens_eq_of_parse hparse (Nat.zero_le 1)
  have hd : (fill [d]).Declares d fill :=
    .block (.declarations (.inside (.procedure (.declarations .here))))
  have hg : ∀ t ∈ g,
      t.kind ∉ [.semicolon, .kwConst, .kwVar, .kwProcedure, .kwBegin, .kwEnd, .eof] := by decide
  obtain ⟨before, word, semicolon, rest, hts, -, hword, -, hdamaged⟩ :=
    parseTokens_damaged_entry ts _ d fill .vars h hd rfl
  exact ⟨h, hd, rfl, rfl, hg, before, word, semicolon, rest, hts, hword, hdamaged first g rfl hg⟩

/-! ## Headings -/

/-- If the tokens of the heading of a procedure are replaced by others in which no declaration
begins, the module is parsed as before but for that procedure. It is left out, or has the same body
and closing name. -/
theorem parseTokens_broken_heading (ts : List Token) (m : Module) (p : Procedure)
    (fill : List Declaration → Module) (h : parseTokens ts = (m, []))
    (hp : m.Declares (.procedure p) fill) :
    ∃ (before : List Token) (keyword : Token) (heading : List Token) (semicolon : Token)
      (body : List Token) (endName : Token) (rest : List Token),
      ts = before ++ (keyword :: (heading ++ semicolon :: (body ++ [endName])) ++ rest) ∧
      keyword.kind = .kwProcedure ∧ Heading (heading.map Token.toSymbol) p.name p.parameters ∧
      semicolon.kind = .semicolon ∧ Derives .block (body.map Token.toSymbol) p.body ∧
      endName.toSymbol = .identifier p.endName ∧
      (∀ (other : List Token) name ps, Heading (other.map Token.toSymbol) name ps →
        parseTokens
            (before ++ (keyword :: (other ++ semicolon :: (body ++ [endName])) ++ rest)) =
          (fill [.procedure ⟨name, ps, p.body, p.endName⟩], [])) ∧
      ∀ g : List Token,
        (∀ t ∈ g, t.kind ∉ [.semicolon, .kwConst, .kwVar, .kwProcedure, .kwBegin, .kwEnd, .eof]) →
        ∃ found : Option Declaration,
          (parseTokens
            (before ++ (keyword :: (g ++ semicolon :: (body ++ [endName])) ++ rest))).1 =
              fill found.toList ∧
          ∀ d ∈ found, ∃ name ps, d = .procedure ⟨name, ps, p.body, p.endName⟩ := by
  obtain ⟨before, keyword, heading, semicolon, body, endName, rest, hts, hkeyword, hheading, hsemi,
    hbody, hend, hparse⟩ := TokenStream.hasHeading h hp
  refine ⟨before, keyword, heading, semicolon, body, endName, rest, hts, hkeyword, hheading, hsemi,
    hbody, hend, fun other name ps hother => ?_, fun g hg => ?_⟩
  · have hderives := hother.derives hbody keyword.lexeme semicolon.lexeme p.endName
    have hne : ∀ t ∈ other, t.kind ≠ .eof := fun t ht =>
      hderives.kind_ne_eof t.toSymbol (by simp [List.mem_map_of_mem ht])
    have hread := (Rule.readsPhrase_of_derives hderives).1.readsAt before.length
    exact parseTokens_eq_of_parse (hparse other _ [] hne hread) (Nat.zero_le 1)
  · have hne : ∀ t ∈ g, t.kind ≠ .eof := fun t ht hk => hg t ht (by simp [hk])
    have hsync : ∀ t ∈ g, t.toSymbol.kind ∉ .eof :: Parser.declarationSync := fun t ht hk =>
      hg t ht ((by decide : .eof :: Parser.declarationSync ⊆ _) hk)
    obtain ⟨found, rs, hread, hfound⟩ := Rule.readsAt_brokenHeading keyword.lexeme
      semicolon.lexeme p.endName (List.forall_mem_map.2 hsync) hbody before.length
    exact ⟨found, by rw [parseTokens, hparse g found rs hne hread], hfound⟩

/-- A bracket is left open in the heading of a procedure in another, and its variables are taken for
parameters. -/
theorem parseTokens_broken_heading_nested :
    let tokens (column : Nat) (word : List Symbol) : List Token :=
      (word.zipIdx column).map fun (s, column) => ⟨s, ⟨1, column⟩⟩
    let ts := tokens 1
      [.ofKind .kwModule, .identifier "M", .ofKind .semicolon, .ofKind .kwProcedure,
        .identifier "P", .ofKind .semicolon, .ofKind .kwProcedure, .identifier "Q",
        .ofKind .semicolon, .ofKind .kwVar, .identifier "a", .ofKind .colon, .identifier "T",
        .ofKind .semicolon, .ofKind .kwBegin, .identifier "a", .ofKind .kwEnd, .identifier "Q",
        .ofKind .semicolon, .ofKind .kwVar, .identifier "c", .ofKind .colon, .identifier "T",
        .ofKind .semicolon, .ofKind .kwEnd, .identifier "P", .ofKind .semicolon, .ofKind .kwEnd,
        .identifier "M", .ofKind .period, .ofKind .eof]
    let g := tokens 40 [.identifier "R", .ofKind .lparen, .identifier "b", .ofKind .comma]
    let fill (ds : List Declaration) : Module :=
      let inner := ds ++ [Declaration.vars ["c"] ⟨["T"]⟩]
      ⟨"M", [], ⟨[.procedure ⟨"P", none, ⟨inner, []⟩, "P"⟩], []⟩, "M"⟩
    let p : Procedure := ⟨"Q", none, ⟨[.vars ["a"] ⟨["T"]⟩], [.bare ⟨["a"]⟩]⟩, "Q"⟩
    parseTokens ts = (fill [.procedure p], []) ∧
      (fill [.procedure p]).Declares (.procedure p) fill ∧
      (∀ t ∈ g, t.kind ∉ [.semicolon, .kwConst, .kwVar, .kwProcedure, .kwBegin, .kwEnd, .eof]) ∧
      ∃ (before : List Token) (keyword : Token) (heading : List Token) (semicolon : Token)
        (body : List Token) (endName : Token) (rest : List Token),
        ts = before ++ (keyword :: (heading ++ semicolon :: (body ++ [endName])) ++ rest) ∧
        Heading (heading.map Token.toSymbol) "Q" none ∧
        ∃ found : Option Declaration,
          (parseTokens
            (before ++ (keyword :: (g ++ semicolon :: (body ++ [endName])) ++ rest))).1 =
              fill found.toList ∧
          ∀ d ∈ found, ∃ name ps, d = .procedure ⟨name, ps, p.body, "Q"⟩ := by
  intro tokens ts g fill p
  have hparse : (TokenStream.ofTokens ts).parse = (fill [.procedure p], []) := by decide +kernel
  have h : parseTokens ts = (fill [.procedure p], []) :=
    parseTokens_eq_of_parse hparse (Nat.zero_le 1)
  have hp : (fill [.procedure p]).Declares (.procedure p) fill :=
    .block (.declarations (.inside (.procedure (.declarations .here))))
  have hg : ∀ t ∈ g,
      t.kind ∉ [.semicolon, .kwConst, .kwVar, .kwProcedure, .kwBegin, .kwEnd, .eof] := by decide
  obtain ⟨before, keyword, heading, semicolon, body, endName, rest, hts, -, hheading, -, -, -, -,
    hbroken⟩ := parseTokens_broken_heading ts _ p fill h hp
  exact ⟨h, hp, hg, before, keyword, heading, semicolon, body, endName, rest, hts, hheading,
    hbroken g hg⟩

end ModSyntax
