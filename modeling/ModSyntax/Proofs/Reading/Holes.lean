import ModSyntax.Proofs.Reading.Missing
import ModSyntax.Proofs.Reading.Resume
import ModSyntax.Proofs.Tree.Places

/-!
# Holes among the declarations

A phrase with a hole where a declaration can begin. Whatever is read there as some declarations may
stand in the hole, and the phrase around it is read as before (`readsAround_of_hole`): only the
reports on what fills the hole are added.
-/

namespace ModSyntax

/-- The words before and behind a place in the phrase where a declaration can begin, with the tree
of the phrase as a function of the declarations that stand there. -/
inductive Hole : (p : Phrase) → List Symbol → List Symbol → (List Declaration → p.Tree) → Prop where
  | here {v es} : Derives .declarations v es → Hole .declarations [] v fun ds => ds ++ es
  | inside {x y fill l v es} :
      Hole .procedure x y fill → Derives .declarations v es →
      Hole .declarations x (y ++ ⟨.semicolon, l⟩ :: v) fun ds => fill ds :: es
  | behind {u ds x y fill} :
      Derives .declaration u ds → Hole .declarations x y fill →
      Hole .declarations (u ++ x) y fun es => ds ++ fill es
  | procedure {l₁ n l₂ x y fill m} :
      Hole .block x y fill →
      Hole .procedure (⟨.kwProcedure, l₁⟩ :: ⟨.identifier, n⟩ :: ⟨.semicolon, l₂⟩ :: x)
        (y ++ [⟨.identifier, m⟩]) fun ds => .procedure ⟨n, none, fill ds, m⟩
  | procedureWith {l₁ n u ps l₂ x y fill m} :
      Derives .parameters u ps → Hole .block x y fill →
      Hole .procedure (⟨.kwProcedure, l₁⟩ :: ⟨.identifier, n⟩ :: (u ++ ⟨.semicolon, l₂⟩ :: x))
        (y ++ [⟨.identifier, m⟩]) fun ds => .procedure ⟨n, some ps, fill ds, m⟩
  | block {x y fill l} :
      Hole .declarations x y fill →
      Hole .block x (y ++ [⟨.kwEnd, l⟩]) fun ds => ⟨fill ds, []⟩
  | blockWithBody {x y fill l₁ v ss l₂} :
      Hole .declarations x y fill → Derives .sequence v ss →
      Hole .block x (y ++ ⟨.kwBegin, l₁⟩ :: (v ++ [⟨.kwEnd, l₂⟩])) fun ds => ⟨fill ds, ss⟩
  | compilationUnit {l₁ n l₂ u is x y fill m l₃} :
      Derives .imports u is → Hole .block x y fill →
      Hole .compilationUnit
        (⟨.kwModule, l₁⟩ :: ⟨.identifier, n⟩ :: ⟨.semicolon, l₂⟩ :: (u ++ x))
        (y ++ [⟨.identifier, m⟩, ⟨.period, l₃⟩]) fun ds => ⟨n, is, fill ds, m⟩

namespace Rule

open ModSyntax.Parser

variable {u v word before after : List Symbol} {ds es : List Declaration} {i : Nat}
  {rs : List Report}

/-! ## What fills a hole -/

/-- Where a declaration can begin, the word at `index` is read as the declarations, with the
reports. It is not taken for an entry or an import. -/
structure FillsHole (index : Nat) (word : List Symbol) (ds : List Declaration)
    (reports : List Report) : Prop where
  resumes : (declarationsOf block).ResumesAt index word ds reports afterSection
  opens : word = [] ∨ headKind word ∈ blockStart

theorem FillsHole.headKind_append (h : FillsHole i word ds rs) {rest : List Symbol}
    (hrest : headKind rest ∈ blockStart) : headKind (word ++ rest) ∈ blockStart :=
  List.append_subset.2 ⟨List.Subset.refl _, List.Subset.refl _⟩
    (headKind_append_mem h.opens (by simp [mem_blockStart]) hrest)

/-- Declarations behind what fills a hole. -/
theorem FillsHole.append (h : FillsHole i u ds rs) (hv : Derives .declarations v es) :
    FillsHole i (u ++ v) (ds ++ es) rs := by
  have hclean : (declarationsOf block).ResumesAt (i + u.length) v es [] afterSection :=
    (resumesPhrase_of_derives hv _).mono (by decide)
  refine ⟨List.append_nil rs ▸ h.resumes.append hclean fun _ hrest =>
    headKind_declarations hv (by decide) hrest, ?_⟩
  rcases h.opens with rfl | hu
  · exact (readsPhrase_of_derives hv i).opens.imp id fun hk => (by decide : _ ⊆ blockStart) hk
  · exact .inr (by rwa [headKind_append_of_ne fun he => by simp [he, mem_blockStart] at hu])

/-- A declaration in front of what fills a hole. -/
theorem FillsHole.declaration_append (hu : Derives .declaration u ds)
    (h : FillsHole (i + u.length) v es rs) : FillsHole i (u ++ v) (ds ++ es) rs := by
  have hhead := headKind_declaration hu
  refine ⟨(resumesAt_declaration hu i).append h.resumes fun _ hrest =>
    h.headKind_append ((by decide : afterSection ⊆ blockStart) hrest), .inr ?_⟩
  rw [headKind_append_of_ne fun he => by simp [he] at hhead]
  exact (by decide : [.kwConst, .kwVar, .kwProcedure] ⊆ blockStart) hhead

/-- A procedure with its semicolon fills a hole, also if it is left out. -/
theorem fillsHole_procedure {found : Option Declaration} (l : String)
    (h : (procedureOf block).attempt.ReadsAt i word found rs Kind.all)
    (hhead : headKind word = .kwProcedure) :
    FillsHole i (word ++ [⟨.semicolon, l⟩]) found.toList rs := by
  refine ⟨(resumesAt_procedure l h hhead).mono fun _ _ => Kind.mem_all _, .inr ?_⟩
  rw [headKind_append_of_ne (by simp [hhead]), hhead]
  decide

/-- A section fills a hole, whatever stands where one of its entries belongs. -/
theorem fillsHole_section {sec : Section} {x y : List Symbol} {new : List Declaration}
    (l : String) (hx : sec.Entries x ds) (hy : sec.Entries y es)
    (hword : sec.entries.ResumesAt (i + 1 + x.length) word new rs Kind.all) :
    FillsHole i (⟨sec.keyword, l⟩ :: (x ++ (word ++ y))) (ds ++ (new ++ es)) rs := by
  have hbehind := hword.append (resumesAt_entries hy _) fun _ _ => Kind.mem_all _
  have hentries := (resumesAt_entries hx (i + 1)).append hbehind fun _ _ => Kind.mem_all _
  rw [List.append_nil, List.nil_append] at hentries
  have hsection := resumesAt_section l (hentries.mono fun _ _ => Kind.mem_all _)
  refine ⟨hsection.mono (by decide), .inr ?_⟩
  cases sec <;> simp [Section.keyword, mem_blockStart]

/-! ## Phrases around a hole -/

/-- The word at an index is read as the phrase, with the reports. -/
def ReadsAround : (p : Phrase) → Nat → List Symbol → p.Tree → List Report → Prop
  | .declarations, i, w, ds, rs => FillsHole i w ds rs
  | .procedure, i, w, d, rs =>
      (procedureOf block).ReadsAt i w d rs Kind.all ∧ headKind w = .kwProcedure
  | .block, i, w, b, rs => block.ReadsAt i w b rs Kind.all ∧ headKind w ∈ blockStart
  | .compilationUnit, i, w, m, rs =>
      compilationUnit.ReadsAt i w m rs [.eof] ∧ ∃ init l, w = init ++ [⟨.period, l⟩]
  | _, _, _, _, _ => True

theorem declarations_nil : (declarationsOf block).Reads [] [] [.kwBegin, .kwEnd] :=
  Parser.reads_of_readsAt fun i => (declarationsAt_nil i).reads

/-- A block, from its declarations and its body. -/
theorem readsAround_block {statements : List Statement} (l : String) (h : FillsHole i u ds rs)
    (hbody : body.Reads v statements sequenceEnd)
    (hv : headKind (v ++ [⟨.kwEnd, l⟩]) ∈ [.kwBegin, .kwEnd]) :
    ReadsAround .block i (u ++ (v ++ [⟨.kwEnd, l⟩])) ⟨ds, statements⟩ rs := by
  have hds := h.resumes.readsAt declarations_nil (by decide)
  exact ⟨List.append_nil rs ▸ readsAt_block l hds (hbody.readsAt _) hv,
    h.headKind_append ((by decide : [.kwBegin, .kwEnd] ⊆ blockStart) hv)⟩

/-- A procedure, from its heading and its block. -/
theorem readsAround_procedure {ps : Option Parameters} {b : Block} (name endName l₁ l₂ : String)
    (hps : parameters?.Reads u ps afterHeading)
    (hb : block.ReadsAt (i + u.length + 2 + 1) v b rs Kind.all) :
    ReadsAround .procedure i
      (⟨.kwProcedure, l₁⟩ :: ⟨.identifier, name⟩ ::
        (u ++ ⟨.semicolon, l₂⟩ :: (v ++ [⟨.identifier, endName⟩])))
      (.procedure ⟨name, ps, b, endName⟩) rs :=
  ⟨(readsAt_procedureOf name endName l₁ hps ((reads_require _ l₂ _ Kind.all).readsAt _) hb
    (fun _ => by simp [afterHeading]) fun _ => Kind.mem_all _ :), rfl⟩

theorem reads_heading (name l₁ l₂ : String) (follow : List Kind) :
    heading.Reads [⟨.kwModule, l₁⟩, ⟨.identifier, name⟩, ⟨.semicolon, l₂⟩] name follow := by
  intro rest index _
  simp [heading, moduleKeyword, identifier, expect, terminate]

/-- A module, from its heading, its imports and its block. -/
theorem readsAround_compilationUnit {is : List Import} {b : Block} (name endName l₁ l₂ l₃ : String)
    (his : Derives .imports u is)
    (hb : ReadsAround .block (i + 3 + u.length) v b rs) :
    ReadsAround .compilationUnit i
      (⟨.kwModule, l₁⟩ :: ⟨.identifier, name⟩ :: ⟨.semicolon, l₂⟩ ::
        (u ++ (v ++ [⟨.identifier, endName⟩, ⟨.period, l₃⟩])))
      ⟨name, is, b, endName⟩ rs := by
  have himports : imports.ReadsAt (i + 3) u is [] blockStart :=
    (resumesPhrase_of_derives his _).readsAt imports_nil fun _ _ => Kind.mem_all _
  have hread := readsAt_unit endName l₃ ((reads_heading name l₁ l₂ Kind.all).readsAt i) himports
    hb.1 (fun _ => Kind.mem_all _) fun rest => by
      rw [headKind_append_of_ne fun he => by simpa [he, mem_blockStart] using hb.2]
      exact hb.2
  exact ⟨hread, ⟨.kwModule, l₁⟩ :: ⟨.identifier, name⟩ :: ⟨.semicolon, l₂⟩ ::
    (u ++ (v ++ [⟨.identifier, endName⟩])), l₃, by simp⟩

/-- What fills the hole of a phrase is read together with the phrase. -/
theorem readsAround_of_hole {p : Phrase} {fill : List Declaration → p.Tree}
    (h : Hole p before after fill) (hword : FillsHole (i + before.length) word ds rs) :
    ReadsAround p i (before ++ (word ++ after)) (fill ds) rs := by
  induction h generalizing i with
  | here hv => exact hword.append hv
  | @inside x y fill l v es _ hv ih =>
    obtain ⟨hread, hhead⟩ := ih hword
    simpa [ReadsAround] using (fillsHole_procedure l hread hhead).append hv
  | behind hu _ ih =>
    rw [List.append_assoc]
    rw [List.length_append, ← Nat.add_assoc] at hword
    exact (ih hword).declaration_append hu
  | @procedure l₁ n l₂ x y fill m _ ih =>
    have hindex : i + (⟨.kwProcedure, l₁⟩ :: ⟨.identifier, n⟩ :: ⟨.semicolon, l₂⟩ :: x :
        List Symbol).length = i + 0 + 2 + 1 + x.length := by
      simp only [List.length_cons]
      omega
    rw [hindex] at hword
    simpa using readsAround_procedure n m l₁ l₂ reads_parameters?_absent (ih hword).1
  | @procedureWith l₁ n u ps l₂ x y fill m hps _ ih =>
    have hindex : i + (⟨.kwProcedure, l₁⟩ :: ⟨.identifier, n⟩ :: (u ++ ⟨.semicolon, l₂⟩ :: x) :
        List Symbol).length = i + u.length + 2 + 1 + x.length := by
      simp only [List.length_cons, List.length_append]
      omega
    rw [hindex] at hword
    have hparams := reads_parameters? (readsPhrase_of_derives hps)
    simpa using readsAround_procedure n m l₁ l₂ hparams (ih hword).1
  | @block x y fill l _ ih =>
    simpa using readsAround_block l (ih hword) reads_body_nil (by simp)
  | @blockWithBody x y fill l₁ v ss l₂ _ hss ih =>
    have hbody := Parser.reads_of_readsAt fun i =>
      readsAt_body l₁ ((readsPhrase_of_derives hss _ closing_sequenceEnd).readsAt (i + 1))
    simpa using readsAround_block l₂ (ih hword) hbody (by simp)
  | @compilationUnit l₁ n l₂ u is x y fill m l₃ his _ ih =>
    have hindex : i + (⟨.kwModule, l₁⟩ :: ⟨.identifier, n⟩ :: ⟨.semicolon, l₂⟩ :: (u ++ x) :
        List Symbol).length = i + 3 + u.length + x.length := by
      simp only [List.length_cons, List.length_append]
      omega
    rw [hindex] at hword
    simpa using readsAround_compilationUnit n m l₁ l₂ l₃ his (ih hword)

end Rule

/-! ## Where the holes are -/

/-- A place in a section or a procedure: the word is the declaration that stands there, between the
words before and behind it. -/
inductive Spot : List Symbol → List Symbol → List Symbol → Declaration →
    (List Declaration → List Declaration) → Prop where
  | entry {sec : Section} {l l' : String} {x u y : List Symbol} {ds es : List Declaration}
      {d : Declaration} :
      sec.Entries x ds → sec.Entry u d → sec.Entries y es →
      Spot (⟨sec.keyword, l⟩ :: x) u (⟨.semicolon, l'⟩ :: y) d fun new => ds ++ (new ++ es)
  | procedure {u : List Symbol} {l : String} {d : Declaration} :
      Derives .procedure u d → Spot [] u [⟨.semicolon, l⟩] d id

/-- The declaration stands at a spot, and the spot in a hole of the phrase. -/
def HasSpot (p : Phrase) (word : List Symbol) (d : Declaration)
    (fill : List Declaration → p.Tree) : Prop :=
  ∃ before x u y after fill₁ fill₂, word = before ++ ((x ++ (u ++ y)) ++ after) ∧
    Hole p before after fill₁ ∧ Spot x u y d fill₂ ∧ fill = fun ds => fill₁ (fill₂ ds)

/-- A spot in a part of a phrase is a spot in the phrase. -/
theorem HasSpot.wrap {p : Phrase} {word : List Symbol} {d : Declaration}
    {fill : List Declaration → p.Tree} (h : HasSpot p word d fill) (q : Phrase)
    (x z : List Symbol) (f : p.Tree → q.Tree)
    (hole : ∀ {before after fill}, Hole p before after fill →
      Hole q (x ++ before) (after ++ z) fun ds => f (fill ds)) :
    HasSpot q (x ++ (word ++ z)) d fun ds => f (fill ds) := by
  obtain ⟨before, w, u, y, after, fill₁, fill₂, rfl, hhole, hspot, rfl⟩ := h
  exact ⟨x ++ before, w, u, y, after ++ z, _, fill₂, by simp, hole hhole, hspot, rfl⟩

/-- An entry has no block with declarations. -/
theorem Section.Entry.not_declares {sec : Section} {word : List Symbol} {d e : Declaration}
    {fill : List Declaration → Declaration} (h : sec.Entry word e) : ¬e.Declares d fill := by
  cases sec with
  | constants =>
    cases h
    exact nofun
  | vars =>
    cases h
    exact nofun

theorem Section.Entries.spot {sec : Section} {word v : List Symbol} {l : String}
    {ds es : List Declaration} {d : Declaration} {fill : List Declaration → List Declaration}
    (h : sec.Entries word ds) (hd : Declaration.ListDeclares ds d fill)
    (hv : Derives .declarations v es) :
    HasSpot .declarations (⟨sec.keyword, l⟩ :: word ++ v) d fun new => fill new ++ es := by
  have hsplit : ∃ x u l y ds₁ ds₂, word = x ++ (u ++ ⟨.semicolon, l⟩ :: y) ∧ sec.Entries x ds₁ ∧
      sec.Entry u d ∧ sec.Entries y ds₂ ∧ fill = fun new => ds₁ ++ (new ++ ds₂) := by
    induction h generalizing fill with
    | nil => cases hd
    | @cons u w l e ds he hds ih =>
      cases hd with
      | here => exact ⟨[], u, l, w, [], ds, rfl, .nil, he, hds, rfl⟩
      | inside hold => exact absurd hold he.not_declares
      | behind hd =>
        obtain ⟨x, u', l', y, ds₁, ds₂, rfl, hx, hu, hy, rfl⟩ := ih hd
        exact ⟨u ++ ⟨.semicolon, l⟩ :: x, u', l', y, e :: ds₁, ds₂, by simp, .cons he hx, hu, hy,
          rfl⟩
  obtain ⟨x, u, l', y, ds₁, ds₂, rfl, hx, hu, hy, rfl⟩ := hsplit
  exact ⟨[], _, u, _, v, _, _, rfl, .here hv, .entry hx hu hy, rfl⟩

/-- The declarations of the phrase stand at spots in its holes. A section or a procedure is looked
at together with the declarations behind it. -/
def SpotsPhrase : (p : Phrase) → List Symbol → p.Tree → Prop
  | .compilationUnit, w, m => ∀ d fill, m.Declares d fill → HasSpot .compilationUnit w d fill
  | .block, w, b => ∀ d fill, b.Declares d fill → HasSpot .block w d fill
  | .declarations, w, ds => ∀ d fill, Declaration.ListDeclares ds d fill →
      HasSpot .declarations w d fill
  | .declaration, w, ds => ∀ d fill, Declaration.ListDeclares ds d fill →
      ∀ v es, Derives .declarations v es →
        HasSpot .declarations (w ++ v) d fun new => fill new ++ es
  | .procedure, w, e => ∀ d fill, e.Declares d fill → HasSpot .procedure w d fill
  | _, _, _ => True

theorem spotsPhrase_of_derives {p : Phrase} {w : List Symbol} {t : p.Tree} (h : Derives p w t) :
    SpotsPhrase p w t := by
  induction h with
  | @compilationUnit l₁ n l₂ u is v b m l₃ his _ _ ih =>
    rintro d _ ⟨hold⟩
    exact (ih d _ hold).wrap .compilationUnit
      (⟨.kwModule, l₁⟩ :: ⟨.identifier, n⟩ :: ⟨.semicolon, l₂⟩ :: u)
      [⟨.identifier, m⟩, ⟨.period, l₃⟩] (fun b => ⟨n, is, b, m⟩) (.compilationUnit his)
  | @block u ds l _ ih =>
    rintro d _ ⟨hold⟩
    exact (ih d _ hold).wrap .block [] [⟨.kwEnd, l⟩] (fun ds => ⟨ds, []⟩) .block
  | @blockWithBody u ds l₁ v ss l₂ _ hss ih _ =>
    rintro d _ ⟨hold⟩
    exact (ih d _ hold).wrap .block [] (⟨.kwBegin, l₁⟩ :: (v ++ [Symbol.mk .kwEnd l₂]))
      (fun ds => ⟨ds, ss⟩) fun hhole => .blockWithBody hhole hss
  | noDeclarations => exact fun d fill hold => nomatch hold
  | @declarations u ds v es hds hes ihds ihes =>
    intro d fill hold
    rcases hold.append_cases with ⟨fill', hold', rfl⟩ | ⟨fill', hold', rfl⟩
    · exact ihds d fill' hold' v es hes
    · have hspot := (ihes d fill' hold').wrap .declarations u [] (fun es => ds ++ es)
        fun hhole => by simpa using .behind hds hhole
      rwa [List.append_nil] at hspot
  | constSection hds => exact fun d fill hold v es hv => (entriesPhrase_of_derives hds).spot hold hv
  | varSection hds => exact fun d fill hold v es hv => (entriesPhrase_of_derives hds).spot hold hv
  | @procedureSection u e l he ih =>
    intro d fill hold v es hv
    rw [List.append_assoc]
    cases hold with
    | here =>
      exact ⟨[], [], u, [⟨.semicolon, l⟩], v, _, id, by simp, .here hv, .procedure he, by simp⟩
    | inside hold =>
      exact (ih d _ hold).wrap .declarations [] (⟨.semicolon, l⟩ :: v) (fun e => e :: es)
        fun hhole => .inside hhole hv
    | behind hold => cases hold
  | @procedure l₁ n l₂ u b m _ ih =>
    rintro d _ ⟨hold⟩
    exact (ih d _ hold).wrap .procedure [⟨.kwProcedure, l₁⟩, ⟨.identifier, n⟩, ⟨.semicolon, l₂⟩]
      [⟨.identifier, m⟩] (fun b => .procedure ⟨n, none, b, m⟩) .procedure
  | @procedureWith l₁ n u ps l₂ v b m hps _ _ ih =>
    rintro d _ ⟨hold⟩
    have hspot := (ih d _ hold).wrap .procedure
      (⟨.kwProcedure, l₁⟩ :: ⟨.identifier, n⟩ :: (u ++ [⟨.semicolon, l₂⟩]))
      [⟨.identifier, m⟩] (fun b => .procedure ⟨n, some ps, b, m⟩)
      fun hhole => by simpa using .procedureWith hps hhole
    simpa using hspot
  | _ => trivial

/-! ## Where a section can begin -/

/-- The phrases with declarations in them. -/
def Phrase.declares : Phrase → Bool
  | compilationUnit | block | declarations | declaration | procedure => true
  | _ => false

/-- Only a section begins with `CONST`. -/
theorem Derives.constFree {p : Phrase} {w : List Symbol} {t : p.Tree} (h : Derives p w t)
    (hp : p.declares = false) : ∀ s ∈ w, s.kind ≠ .kwConst := by
  induction h with
  | compare op | signed op | moreTerms op | moreFactors op =>
    have hop : op.kind ≠ .kwConst := by cases op <;> decide
    simp_all [or_imp, Phrase.declares]
  | _ => simp_all [or_imp, Phrase.declares]

/-- Where the word has an empty section of constants, there is a hole. -/
def HolesAtConst (p : Phrase) (word : List Symbol) : Prop :=
  ∀ before l after, word = before ++ ⟨.kwConst, l⟩ :: after → headKind after ≠ .identifier →
    ∃ fill, Hole p before after fill

namespace HolesAtConst

variable {u v word : List Symbol}

theorem headKind_left {y : List Symbol} (h : headKind (y ++ v) ≠ .identifier) :
    headKind y ≠ .identifier := by
  cases y with
  | nil => simp
  | cons => exact h

/-- The section is in a part of the phrase. -/
theorem wrap {p : Phrase} (h : HolesAtConst p word) (q : Phrase) (x z : List Symbol)
    (f : p.Tree → q.Tree) (hx : ∀ s ∈ x, s.kind ≠ .kwConst) (hz : ∀ s ∈ z, s.kind ≠ .kwConst)
    (hole : ∀ {before after fill}, Hole p before after fill →
      Hole q (x ++ before) (after ++ z) fun ds => f (fill ds)) :
    HolesAtConst q (x ++ (word ++ z)) := by
  intro before l after hw hhead
  -- The keyword stands in none of the words that are put around the phrase.
  rcases append_eq_append_cons hw with ⟨y, rfl, -⟩ | ⟨before, rfl, hw'⟩
  · exact absurd rfl (hx ⟨.kwConst, l⟩ (by simp))
  rcases append_eq_append_cons hw' with ⟨y, rfl, rfl⟩ | ⟨before, rfl, rfl⟩
  · obtain ⟨fill, hhole⟩ := h before l y rfl (headKind_left hhead)
    exact ⟨_, hole hhole⟩
  · exact absurd rfl (hz ⟨.kwConst, l⟩ (by simp))

/-- The section is in the first declaration, or in those behind it. -/
theorem behind {ds : List Declaration} (hu : Derives .declaration u ds)
    (hv : HolesAtConst .declarations v)
    (h : ∀ before l y, u = before ++ ⟨.kwConst, l⟩ :: y → headKind (y ++ v) ≠ .identifier →
      ∃ fill, Hole .declarations before (y ++ v) fill) :
    HolesAtConst .declarations (u ++ v) := by
  intro before l after hw hhead
  rcases append_eq_append_cons hw with ⟨y, rfl, rfl⟩ | ⟨before, rfl, rfl⟩
  · exact h before l y rfl hhead
  · obtain ⟨fill, hhole⟩ := hv before l after rfl hhead
    exact ⟨_, .behind hu hhole⟩

end HolesAtConst

/-- Where the phrase has an empty section of constants, there is a hole. A section or a procedure is
looked at together with the declarations behind it. -/
def HolesPhrase : (p : Phrase) → List Symbol → p.Tree → Prop
  | .compilationUnit, w, _ => HolesAtConst .compilationUnit w
  | .block, w, _ => HolesAtConst .block w
  | .declarations, w, _ => HolesAtConst .declarations w
  | .declaration, w, _ => ∀ v es, Derives .declarations v es → HolesAtConst .declarations v →
      HolesAtConst .declarations (w ++ v)
  | .procedure, w, _ => HolesAtConst .procedure w
  | _, _, _ => True

theorem holesPhrase_of_derives {p : Phrase} {w : List Symbol} {t : p.Tree} (h : Derives p w t) :
    HolesPhrase p w t := by
  induction h with
  | @compilationUnit l₁ n l₂ u is v b m l₃ his _ _ ih =>
    have hu := his.constFree rfl
    exact ih.wrap .compilationUnit (⟨.kwModule, l₁⟩ :: ⟨.identifier, n⟩ :: ⟨.semicolon, l₂⟩ :: u)
      [⟨.identifier, m⟩, ⟨.period, l₃⟩] (fun b => ⟨n, is, b, m⟩) (by simpa using hu) (by simp)
      (.compilationUnit his)
  | @block u ds l _ ih =>
    exact ih.wrap .block [] [⟨.kwEnd, l⟩] (fun ds => ⟨ds, []⟩) (by simp) (by simp) .block
  | @blockWithBody u ds l₁ v ss l₂ _ hss ih _ =>
    have hv := hss.constFree rfl
    exact ih.wrap .block [] (⟨.kwBegin, l₁⟩ :: (v ++ [Symbol.mk .kwEnd l₂])) (fun ds => ⟨ds, ss⟩)
      (by simp) (by simp_all [or_imp]) fun hhole => .blockWithBody hhole hss
  | noDeclarations => exact fun before l after hw => by simp at hw
  | declarations _ hes ihds ihes => exact ihds _ _ hes ihes
  | @constSection l u ds hds =>
    intro v es hv ihv
    refine .behind (.constSection hds) ihv fun before l' y hw hhead => ?_
    rcases cons_eq_append_cons hw with ⟨rfl, -, rfl⟩ | ⟨x, rfl, rfl⟩
    · -- Without an identifier behind its keyword, the section has no entries.
      rcases (Rule.readsPhrase_of_derives hds 0).opens with rfl | hu
      · exact ⟨_, .here hv⟩
      · have hu : headKind u = .identifier := by simpa using hu
        exact absurd (by rw [headKind_append_of_ne (by simp [hu]), hu]) hhead
    · exact absurd rfl (hds.constFree rfl ⟨.kwConst, l'⟩ (by simp))
  | @varSection l u ds hds =>
    intro v es hv ihv
    refine .behind (.varSection hds) ihv fun before l' y hw _ => ?_
    rcases cons_eq_append_cons hw with ⟨-, hkind, -⟩ | ⟨x, -, rfl⟩
    · exact absurd (congrArg Symbol.kind hkind) (by simp)
    · exact absurd rfl (hds.constFree rfl ⟨.kwConst, l'⟩ (by simp))
  | @procedureSection u d l hd ih =>
    intro v es hv ihv
    refine .behind (.procedureSection hd) ihv fun before l' y hw hhead => ?_
    rcases append_eq_append_cons hw with ⟨y, rfl, rfl⟩ | ⟨x, -, hx⟩
    · rw [List.append_assoc] at hhead ⊢
      obtain ⟨fill, hhole⟩ := ih before l' y rfl (HolesAtConst.headKind_left hhead)
      exact ⟨_, .inside hhole hv⟩
    · have hmem : (⟨.kwConst, l'⟩ : Symbol) ∈ [⟨.semicolon, l⟩] := hx ▸ by simp
      simp at hmem
  | @procedure l₁ n l₂ u b m _ ih =>
    exact ih.wrap .procedure [⟨.kwProcedure, l₁⟩, ⟨.identifier, n⟩, ⟨.semicolon, l₂⟩]
      [⟨.identifier, m⟩] (fun b => .procedure ⟨n, none, b, m⟩) (by simp) (by simp) .procedure
  | @procedureWith l₁ n u ps l₂ v b m hps _ _ ih =>
    have hu := hps.constFree rfl
    have hholes := ih.wrap .procedure
      (⟨.kwProcedure, l₁⟩ :: ⟨.identifier, n⟩ :: (u ++ [⟨.semicolon, l₂⟩]))
      [⟨.identifier, m⟩] (fun b => .procedure ⟨n, some ps, b, m⟩) (by simp_all [or_imp]) (by simp)
      fun hhole => by simpa using .procedureWith hps hhole
    simpa [HolesPhrase] using hholes
  | _ => trivial

end ModSyntax
