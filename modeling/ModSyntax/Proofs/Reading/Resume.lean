import ModSyntax.Proofs.Completeness

/-!
# Going on behind a word

A parser of a list takes a word for some of its items and goes on behind it as if the list began
there (`Parser.ResumesAt`). Imports, entries and declarations end with a semicolon, so there is
hardly a condition on what follows them. In the declarations of a block, symbols that begin none are
passed over up to a semicolon, with one report (`resumesAt_stray`).
-/

namespace ModSyntax

namespace Parser

variable {α : Type} {p : Parser (List α)} {u v word : List Symbol} {as bs : List α}
  {follow near : List Kind} {i : Nat} {rs ss : List Report}

/-- In front of a symbol of one of the kinds `follow`, the parser takes the word, which begins at
`index`, for the values `as`, makes the reports, and goes on behind the word. -/
def ResumesAt (index : Nat) (p : Parser (List α)) (word : List Symbol) (as : List α)
    (reports : List Report) (follow : List Kind) : Prop :=
  ∀ rest, headKind rest ∈ follow →
    p.run ⟨word ++ rest, index⟩ = (p.run ⟨rest, index + word.length⟩).behind as reports

theorem resumesAt_nil (p : Parser (List α)) (i : Nat) (follow : List Kind) :
    p.ResumesAt i [] [] [] follow := fun _ _ => rfl

theorem ResumesAt.mono (h : p.ResumesAt i word as rs near) (hsub : follow ⊆ near) :
    p.ResumesAt i word as rs follow := fun rest hrest => h rest (hsub hrest)

theorem ResumesAt.append (hu : p.ResumesAt i u as rs near)
    (hv : p.ResumesAt (i + u.length) v bs ss follow)
    (hnear : ∀ rest, headKind rest ∈ follow → headKind (v ++ rest) ∈ near) :
    p.ResumesAt i (u ++ v) (as ++ bs) (rs ++ ss) follow := by
  intro rest hrest
  rw [List.append_assoc, hu _ (hnear rest hrest), hv rest hrest, List.length_append, Nat.add_assoc]
  simp [Outcome.behind]

/-- The list ends where the parser takes nothing. -/
theorem ResumesAt.readsAt (h : p.ResumesAt i word as rs near) (hnil : p.Reads [] [] follow)
    (hsub : follow ⊆ near) : p.ReadsAt i word as rs follow := by
  intro rest hrest
  have hend := hnil rest (i + word.length) hrest
  rw [List.nil_append] at hend
  simp [h rest (hsub hrest), hend, Outcome.behind]

end Parser

/-! ## Sections -/

/-- The sections that are lists of entries. -/
inductive Section where
  | constants | vars
deriving DecidableEq

/-- The section that a declaration is an entry of. -/
def Declaration.section? : Declaration → Option Section
  | .constant .. => some .constants
  | .vars .. => some .vars
  | .procedure _ => none

namespace Section

def keyword : Section → Kind
  | constants => .kwConst
  | vars => .kwVar

def rule : Section → Construct
  | constants => .constant
  | vars => .vars

def entry : Section → Rule Declaration
  | constants => .constant
  | vars => .vars

/-- What reads the entries of the section. -/
def entries (sec : Section) : Parser (List Declaration) := Rule.entries sec.rule sec.entry

/-- The word is an entry of the section. -/
def Entry : Section → List Symbol → Declaration → Prop
  | constants => Derives .constant
  | vars => Derives .vars

/-- The word is entries of the section, each with its semicolon. -/
inductive Entries (sec : Section) : List Symbol → List Declaration → Prop where
  | nil : Entries sec [] []
  | cons {u v : List Symbol} {l : String} {d : Declaration} {ds : List Declaration} :
      sec.Entry u d → Entries sec v ds → Entries sec (u ++ ⟨.semicolon, l⟩ :: v) (d :: ds)

theorem enters_entry (sec : Section) : sec.entry.Enters .identifier := by
  cases sec with
  | constants => exact Rule.enters_constant
  | vars => exact Rule.enters_vars

theorem run_entries (sec : Section) (c : Cursor) :
    sec.entries.run c = (Rule.entriesStep sec.rule sec.entry sec.entries).run c :=
  congrArg (Parser.run · c) (Rule.entries_eq sec.rule sec.enters_entry)

theorem Entry.reads {sec : Section} {word : List Symbol} {d : Declaration} (h : sec.Entry word d) :
    sec.entry.ReadsFrom [.identifier] word d Rule.afterEntry := by
  cases sec with
  | constants => exact Rule.readsPhrase_of_derives h
  | vars => exact Rule.readsPhrase_of_derives h

theorem Entry.section? {sec : Section} {word : List Symbol} {d : Declaration}
    (h : sec.Entry word d) : d.section? = some sec := by
  cases sec <;> (cases h; rfl)

end Section

theorem Derives.section?_eq_none {word : List Symbol} {d : Declaration}
    (h : Derives .procedure word d) : d.section? = none := by
  cases h <;> rfl

/-- What the grammar repeats in a section is its entries. -/
def EntriesPhrase : (p : Phrase) → List Symbol → p.Tree → Prop
  | .constDecls, w, ds => Section.constants.Entries w ds
  | .varDecls, w, ds => Section.vars.Entries w ds
  | _, _, _ => True

theorem entriesPhrase_of_derives {p : Phrase} {w : List Symbol} {t : p.Tree} (h : Derives p w t) :
    EntriesPhrase p w t := by
  induction h with
  | noConstDecls | noVarDecls => exact .nil
  | constDecls hd _ _ ih | varDecls hd _ _ ih => exact .cons hd ih
  | _ => trivial

/-- A declaration is a section of entries, or a procedure with its semicolon. -/
theorem Derives.section_or_procedure {word : List Symbol} {ds : List Declaration}
    (h : Derives .declaration word ds) :
    (∃ (sec : Section) (l : String) (u : List Symbol), word = ⟨sec.keyword, l⟩ :: u ∧
      sec.Entries u ds) ∨
    ∃ (u : List Symbol) (l : String) (d : Declaration), word = u ++ [⟨.semicolon, l⟩] ∧ ds = [d] ∧
      Derives .procedure u d := by
  cases h with
  | constSection h => exact .inl ⟨.constants, _, _, rfl, entriesPhrase_of_derives h⟩
  | varSection h => exact .inl ⟨.vars, _, _, rfl, entriesPhrase_of_derives h⟩
  | procedureSection h => exact .inr ⟨_, _, _, rfl, rfl, h⟩

namespace Rule

open ModSyntax.Parser

variable {u v word g : List Symbol} {ds es : List Declaration} {follow near : List Kind} {i : Nat}
  {rs ss : List Report} {sec : Section}

/-- An entry with its semicolon. -/
theorem resumesAt_entry {d : Declaration} (l : String) (h : sec.Entry word d) (i : Nat) :
    sec.entries.ResumesAt i (word ++ [⟨.semicolon, l⟩]) [d] [] Kind.all := by
  intro rest _
  have hhead : headKind (word ++ ⟨.semicolon, l⟩ :: rest) = .identifier := by
    simpa using h.reads.headKind_append (by decide) (⟨.semicolon, l⟩ :: rest)
  have hread := h.reads.reads (⟨.semicolon, l⟩ :: rest) i (by simp [afterEntry])
  rw [List.append_assoc, List.singleton_append, sec.run_entries, entriesStep, run_kind_bind,
    Cursor.kind_mk, if_pos hhead]
  simp [hread, endEntry, Outcome.behind, Nat.add_assoc]

theorem resumesAt_entries (h : sec.Entries word ds) (i : Nat) :
    sec.entries.ResumesAt i word ds [] Kind.all := by
  induction h generalizing i with
  | nil => exact resumesAt_nil _ i _
  | @cons u v l d ds hd _ ih =>
    have hentry := resumesAt_entry l hd i
    have hmore := hentry.append (ih _) fun _ _ => Kind.mem_all _
    rwa [List.append_assoc] at hmore

/-! ## Declarations -/

theorem run_declarations (c : Cursor) :
    (declarationsOf block).run c = (declarationsStep block (declarationsOf block)).run c :=
  congrArg (Parser.run · c) (declarationsOf_eq block)

/-- The kinds that neither an entry nor an import begins with. -/
def blockStart : List Kind := Kind.all.filter (· ∉ [.identifier, .kwFrom, .kwImport, .eof])

theorem mem_blockStart {k : Kind} :
    k ∈ blockStart ↔ k ∉ [.identifier, .kwFrom, .kwImport, .eof] := by
  simp [blockStart, Kind.mem_all]

theorem entries_nil (sec : Section) : sec.entries.Reads [] [] blockStart := by
  intro rest index hrest
  have hne : headKind rest ≠ .identifier := fun he => by simp [he, mem_blockStart] at hrest
  simp [sec.run_entries, entriesStep, hne]

/-- A section, behind its keyword. -/
theorem resumesAt_section (l : String) (h : sec.entries.ResumesAt (i + 1) word ds rs blockStart) :
    (declarationsOf block).ResumesAt i (⟨sec.keyword, l⟩ :: word) ds rs blockStart := by
  intro rest hrest
  have hread := h.readsAt (entries_nil sec) (List.Subset.refl _) rest hrest
  rw [Section.entries] at hread
  rw [run_declarations, declarationsStep, run_kind_bind]
  have hindex : i + 1 + word.length = i + (word.length + 1) := by omega
  cases sec <;>
    simp_all [Section.keyword, Section.rule, Section.entry, Outcome.behind]

/-- A procedure with its semicolon; it may be left out. -/
theorem resumesAt_procedure {found : Option Declaration} (l : String)
    (h : (procedureOf block).attempt.ReadsAt i word found rs Kind.all)
    (hhead : headKind word = .kwProcedure) :
    (declarationsOf block).ResumesAt i (word ++ [⟨.semicolon, l⟩]) found.toList rs Kind.all := by
  intro rest _
  have hread := h (⟨.semicolon, l⟩ :: rest) (Kind.mem_all _)
  have hkind : headKind (word ++ ⟨.semicolon, l⟩ :: rest) = .kwProcedure := by
    rw [headKind_append_of_ne (by simp [hhead]), hhead]
  rw [List.append_assoc, List.singleton_append, run_declarations, declarationsStep, run_kind_bind,
    Cursor.kind_mk, hkind]
  simp [hread, endEntry, Outcome.behind, Nat.add_assoc]

/-- A broken declaration is left with the semicolon behind it. -/
theorem run_leaveDeclaration (l : String) (hword : ∀ s ∈ word, s.kind ∉ declarationSync)
    (rest : List Symbol) (i : Nat) :
    leaveDeclaration.run ⟨word ++ ⟨.semicolon, l⟩ :: rest, i⟩ =
      ⟨(), ⟨rest, i + word.length + 1⟩, []⟩ := by
  have hskip : Cursor.skipUntil ⟨word ++ ⟨.semicolon, l⟩ :: rest, i⟩ declarationSync =
      ⟨⟨.semicolon, l⟩ :: rest, i + word.length⟩ :=
    Cursor.skipUntil_past hword (by simp [declarationSync]) i
  simp [leaveDeclaration, hskip]

/-- Symbols that begin no declaration are left with the semicolon behind them. -/
theorem resumesAt_stray (l : String) (hword : ∀ s ∈ word, s.kind ∉ .eof :: declarationSync)
    (i : Nat) :
    (declarationsOf block).ResumesAt i (word ++ [⟨.semicolon, l⟩]) []
      [⟨i, .unexpected .block [.kwConst, .kwVar, .kwProcedure, .kwBegin, .kwEnd]⟩] Kind.all := by
  intro rest _
  have hother : headKind (word ++ ⟨.semicolon, l⟩ :: rest) ∉ .eof :: afterSection := by
    cases word with
    | nil => simp [afterSection]
    | cons s word =>
      exact fun hk => hword s List.mem_cons_self
        ((by decide : .eof :: afterSection ⊆ .eof :: declarationSync) hk)
  have hleave := run_leaveDeclaration l
    (fun s hs hk => hword s hs (List.mem_cons_of_mem _ hk)) rest i
  rw [List.append_assoc, List.singleton_append, run_declarations, declarationsStep, run_kind_bind,
    Cursor.kind_mk]
  split <;> simp_all [afterSection, Outcome.behind, Nat.add_assoc]

/-- A block is read behind symbols that its declarations pass over. -/
theorem readsAt_block_behind {b : Block}
    (hu : (declarationsOf block).ResumesAt i u [] rs Kind.all)
    (hv : block.ReadsAt (i + u.length) v b ss Kind.all) :
    block.ReadsAt i (u ++ v) b (rs ++ ss) Kind.all := by
  have hrun (c : Cursor) : block.run c = (blockOf block).run c :=
    congrArg (Parser.run · c) block_eq
  intro rest hrest
  have hread := hv rest hrest
  rw [hrun, blockOf, run_bind] at hread
  rw [hrun, blockOf, run_bind, List.append_assoc, hu (v ++ rest) (Kind.mem_all _)]
  obtain ⟨rfl, hnext, rfl⟩ := Outcome.mk.inj hread
  rw [Nat.add_assoc, ← List.length_append] at hnext
  rw [Outcome.mk.injEq]
  exact ⟨rfl, hnext, List.append_assoc _ _ _⟩

/-! ## Declarations of the grammar -/

/-- A declaration of the grammar is read without a report. -/
theorem resumesAt_declaration (h : Derives .declaration word ds) (i : Nat) :
    (declarationsOf block).ResumesAt i word ds [] blockStart := by
  rcases h.section_or_procedure with ⟨sec, l, u, rfl, hu⟩ | ⟨u, l, d, rfl, rfl, hd⟩
  · exact resumesAt_section l ((resumesAt_entries hu _).mono fun _ _ => Kind.mem_all _)
  · obtain ⟨hread, hhead⟩ := readsPhrase_of_derives hd
    exact (resumesAt_procedure l (hread.readsAt i) hhead).mono fun _ _ => Kind.mem_all _

theorem headKind_declaration (h : Derives .declaration word ds) :
    headKind word ∈ [.kwConst, .kwVar, .kwProcedure] := by
  rcases h.section_or_procedure with ⟨sec, l, u, rfl, -⟩ | ⟨u, l, d, rfl, -, hd⟩
  · cases sec <;> simp [Section.keyword]
  · have hhead := (readsPhrase_of_derives hd).2
    rw [headKind_append_of_ne (by simp [hhead]), hhead]
    simp

/-- Declarations begin with a keyword, if there are any. -/
theorem headKind_declarations (h : Derives .declarations word ds) {rest : List Symbol}
    (hsub : [.kwConst, .kwVar, .kwProcedure] ⊆ near) (hrest : headKind rest ∈ near) :
    headKind (word ++ rest) ∈ near :=
  List.append_subset.2 ⟨hsub, List.Subset.refl _⟩
    (headKind_append_mem (readsPhrase_of_derives h 0).opens (by decide) hrest)

/-! ## Imports -/

theorem run_imports (c : Cursor) : imports.run c = (importsStep imports).run c :=
  congrArg (Parser.run · c) imports_eq

/-- An import with its semicolon. -/
theorem resumesAt_import {item : Import} (l : String)
    (h : importNames.ReadsFrom [.kwFrom, .kwImport] word item [.semicolon]) (i : Nat) :
    imports.ResumesAt i (word ++ [⟨.semicolon, l⟩]) [item] [] Kind.all := by
  intro rest _
  have hhead := h.headKind_append (by decide) (⟨.semicolon, l⟩ :: rest)
  have hread := h.reads (⟨.semicolon, l⟩ :: rest) i (by simp)
  rw [List.append_assoc, List.singleton_append, run_imports, importsStep, run_kind_bind,
    Cursor.kind_mk, if_pos hhead]
  simp [importItem, terminate, hread, Outcome.behind, Nat.add_assoc]

theorem imports_nil : imports.Reads [] [] blockStart := by
  intro rest index hrest
  have hne : headKind rest ∉ [.kwFrom, .kwImport] := fun hk =>
    mem_blockStart.1 hrest ((by decide : [.kwFrom, .kwImport] ⊆ _) hk)
  rw [run_imports, importsStep, run_kind_bind, List.nil_append, Cursor.kind_mk, if_neg hne]
  rfl

/-! ## Phrases -/

/-- The declarations of a block and the imports of a module are read without a report. -/
def ResumesPhrase : (p : Phrase) → List Symbol → p.Tree → Prop
  | .declarations, w, ds => ∀ i, (declarationsOf block).ResumesAt i w ds [] blockStart
  | .imports, w, is => ∀ i, imports.ResumesAt i w is [] Kind.all
  | .importItem, w, item => ∀ i, imports.ResumesAt i w [item] [] Kind.all
  | _, _, _ => True

theorem resumesPhrase_of_derives {p : Phrase} {w : List Symbol} {t : p.Tree} (h : Derives p w t) :
    ResumesPhrase p w t := by
  induction h with
  | noDeclarations => exact fun i => resumesAt_nil _ i _
  | declarations hd hds _ ih =>
    exact fun i => (resumesAt_declaration hd i).append (ih _) fun _ hrest =>
      headKind_declarations hds (by decide) hrest
  | noImports => exact fun i => resumesAt_nil _ i _
  | imports _ _ ihi ihis => exact fun i => (ihi i).append (ihis _) fun _ _ => Kind.mem_all _
  | @importModules l₁ _ _ _ hns =>
    have hnames := (readsPhrase_of_derives hns .imports [.semicolon] (by decide)).reads
    have hitem : importNames.ReadsFrom [.kwFrom, .kwImport] _ _ [.semicolon] :=
      ⟨reads_importModules l₁ hnames, by simp⟩
    exact resumesAt_import _ hitem
  | @importFrom l₁ m l₂ _ _ _ hns =>
    have hnames := (readsPhrase_of_derives hns .imports [.semicolon] (by decide)).reads
    have hitem : importNames.ReadsFrom [.kwFrom, .kwImport] _ ⟨some m, _⟩ [.semicolon] :=
      ⟨reads_importFrom l₁ l₂ hnames, by simp⟩
    exact resumesAt_import _ hitem
  | _ => trivial

end Rule

end ModSyntax
