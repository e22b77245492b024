import ModSyntax.Proofs.Reading.Missing
import ModSyntax.Proofs.Tree.Places

/-!
# Slots

Every statement of a phrase stands in a slot: a word that is read there as some statements may stand
in its place, and the phrase around it is read as before (`slotsPhrase_of_derives`). Only the
reports on that word are added.
-/

namespace ModSyntax

namespace Rule

open ModSyntax.Parser

variable {closers : List Kind} {i : Nat} {u v w word : List Symbol} {s : Statement}
  {ss ts : List Statement} {rs rs' : List Report}

/-- What a sequence does behind one of its statements. -/
def sequenceTail (closers : List Kind) : Parser (List Statement) := do
  if ← separator closers then
    sequence closers
  else
    return []

/-- A sequence is a statement, or what is skipped in place of one, and what follows. -/
theorem run_sequence (h : Closing closers) {c d : Cursor} {found : Option Statement}
    (hstmt : (statement.orSkipUntil (.semicolon :: closers)).run c = ⟨found, d, rs⟩) :
    (sequence closers).run c = ((sequenceTail closers).run d).behind found.toList rs := by
  rw [sequence_eq h.not_start, sequenceStep, run_bind, hstmt]
  cases hgoesOn : ((separator closers).run d).value <;>
    simp [sequenceTail, Outcome.behind, hgoesOn]

/-! ## Words in the place of a statement -/

/-- Where a statement of the sequence belongs, the word that begins at `index` is read as the
statements `ss`, with the reports, and what follows it as what follows a statement. -/
def FillsAt (closers : List Kind) (index : Nat) (word : List Symbol) (ss : List Statement)
    (reports : List Report) : Prop :=
  ∀ rest, headKind rest ∈ .semicolon :: closers →
    (sequence closers).run ⟨word ++ rest, index⟩ =
      ((sequenceTail closers).run ⟨rest, index + word.length⟩).behind ss reports

/-- A statement ends in front of what parts or closes statements. -/
theorem Closing.semicolon_after (h : Closing closers) (s : Statement) :
    .semicolon :: closers ⊆ afterStatement s :=
  List.cons_subset.2 ⟨afterReturn_subset s (by decide), h.after s⟩

theorem fillsAt_of_readsAt (h : Closing closers)
    (hs : statement.ReadsAt i word s rs (afterStatement s)) : FillsAt closers i word [s] rs :=
  fun rest hrest => run_sequence h (readsAt_orSkipUntil hs _ rest (h.semicolon_after s hrest))

theorem FillsAt.readsAt_single (h : Closing closers) (hword : FillsAt closers i word ss rs) :
    (sequence closers).ReadsAt i word ss rs closers := by
  intro rest hrest
  have hsep := reads_separator_nil h rest (i + word.length) hrest
  rw [List.nil_append] at hsep
  rw [hword rest (List.mem_cons_of_mem _ hrest)]
  simp [sequenceTail, hsep, Outcome.behind]

theorem FillsAt.readsAt_cons (l : String) (hword : FillsAt closers i word ss rs)
    (hmore : (sequence closers).ReadsAt (i + word.length + 1) v ts rs' closers) :
    (sequence closers).ReadsAt i (word ++ ⟨.semicolon, l⟩ :: v) (ss ++ ts) (rs ++ rs') closers := by
  intro rest hrest
  rw [List.append_assoc, List.cons_append, hword _ (by simp)]
  simp [sequenceTail, separator, hmore rest hrest, Outcome.behind]
  omega

/-! ## Words with a slot -/

/-- A statement `s` stands in the word, and what fills its place is read as `reads` says of the
statements that it is read as, together with what stands around it. -/
def HasSlot (reads : Nat → List Symbol → List Statement → List Report → Prop) (word : List Symbol)
    (s : Statement) : Prop :=
  ∃ closers before u after, Closing closers ∧ word = before ++ (u ++ after) ∧
    Derives .statement u s ∧ ∀ i g ss rs, FillsAt closers (i + before.length) g ss rs →
      reads i (before ++ (g ++ after)) ss rs

namespace HasSlot

variable {R S : Nat → List Symbol → List Statement → List Report → Prop}

theorem mono (h : HasSlot R word s) (hsub : ∀ i w ss rs, R i w ss rs → S i w ss rs) :
    HasSlot S word s := by
  obtain ⟨closers, before, u, after, hclosing, hword, hs, hreads⟩ := h
  exact ⟨closers, before, u, after, hclosing, hword, hs,
    fun i g ss rs hg => hsub i _ ss rs (hreads i g ss rs hg)⟩

/-- The slot is in the first of two words. -/
theorem left (h : HasSlot (fun i u' ss rs => R i (u' ++ v) ss rs) u s) : HasSlot R (u ++ v) s := by
  obtain ⟨closers, before, w, after, hclosing, rfl, hs, hreads⟩ := h
  refine ⟨closers, before, w, after ++ v, hclosing, by simp, hs, fun i g ss rs hg => ?_⟩
  simpa using hreads i g ss rs hg

/-- The slot is in the second of two words. -/
theorem right (h : HasSlot (fun j v' ss rs => ∀ i, j = i + u.length → R i (u ++ v') ss rs) v s) :
    HasSlot R (u ++ v) s := by
  obtain ⟨closers, before, w, after, hclosing, rfl, hs, hreads⟩ := h
  refine ⟨closers, u ++ before, w, after, hclosing, by simp, hs, fun i g ss rs hg => ?_⟩
  rw [List.length_append, ← Nat.add_assoc] at hg
  simpa using hreads (i + u.length) g ss rs hg i rfl

theorem cons {t : Symbol}
    (h : HasSlot (fun j v' ss rs => ∀ i, j = i + 1 → R i (t :: v') ss rs) v s) :
    HasSlot R (t :: v) s := right (u := [t]) h

end HasSlot

/-! ## Statements -/

/-- The statements that the statement holds stand in slots of the word. -/
def StatementSlots (word : List Symbol) (t : Statement) : Prop :=
  ∀ s fill, t.Holds s fill →
    HasSlot (fun i w ss rs => statement.ReadsAt i w (fill ss) rs (afterStatement (fill ss))) word s

/-- The statements and those that they hold stand in slots of the word. -/
def SequenceSlots (word : List Symbol) (ts : List Statement) : Prop :=
  ∀ closers, Closing closers → ∀ s fill, Statement.ListHolds ts s fill →
    HasSlot (fun i w ss rs => (sequence closers).ReadsAt i w (fill ss) rs closers) word s

theorem sequenceSlots_single {t : Statement} (ht : Derives .statement u t)
    (hslots : StatementSlots u t) : SequenceSlots u [t] := by
  intro closers h s fill hold
  cases hold with
  | here =>
    refine ⟨closers, [], u, [], h, by simp, ht, fun i g ss rs hg => ?_⟩
    simpa using hg.readsAt_single h
  | inside hold => exact (hslots s _ hold).mono fun i w ss rs hw => readsAt_sequence_single h hw
  | behind hold => cases hold

theorem sequenceSlots_cons {t : Statement} (l : String) (ht : Derives .statement u t)
    (hts : Derives .sequence v ts) (hslots : StatementSlots u t) (hmore : SequenceSlots v ts) :
    SequenceSlots (u ++ ⟨.semicolon, l⟩ :: v) (t :: ts) := by
  intro closers h s fill hold
  have hreads (i : Nat) : (sequence closers).ReadsAt i v ts [] closers :=
    (readsPhrase_of_derives hts closers h).readsAt i
  cases hold with
  | here =>
    refine ⟨closers, [], u, ⟨.semicolon, l⟩ :: v, h, by simp, ht, fun i g ss rs hg => ?_⟩
    exact List.append_nil rs ▸ hg.readsAt_cons l (hreads _)
  | inside hold =>
    refine .left ((hslots s _ hold).mono fun i w ss rs hw => ?_)
    exact List.append_nil rs ▸ readsAt_sequence_cons h l hw (hreads _)
  | behind hold =>
    refine .right (.cons ((hmore closers h s _ hold).mono ?_))
    rintro _ w ss rs hw _ rfl i rfl
    exact readsAt_sequence_cons h l ((readsPhrase_of_derives ht).readsAt i) hw

theorem statementSlots_branch {e : Expr} (l₁ l₂ l₃ : String) (he : Derives .expr u e)
    (hts : SequenceSlots v ts) :
    StatementSlots (⟨.kwIf, l₁⟩ :: (u ++ ⟨.kwThen, l₂⟩ :: (v ++ [⟨.kwEnd, l₃⟩])))
      (.branch e ts none) := by
  intro s fill hold
  cases hold with
  | thenBody hold =>
    refine .cons (.right (.cons (.left ((hts _ closing_thenEnd s _ hold).mono ?_))))
    rintro _ w ss rs hw _ rfl _ rfl i rfl
    exact readsAt_branch (readsPhrase_of_derives he) l₁ l₂ l₃ _ hw

theorem statementSlots_branchElse {e : Expr} {us : List Statement} (l₁ l₂ l₃ l₄ : String)
    (he : Derives .expr u e) (hts : Derives .sequence v ts) (hus : Derives .sequence w us)
    (hslots : SequenceSlots v ts) (hslots' : SequenceSlots w us) :
    StatementSlots
      (⟨.kwIf, l₁⟩ :: (u ++ ⟨.kwThen, l₂⟩ :: (v ++ ⟨.kwElse, l₃⟩ :: (w ++ [⟨.kwEnd, l₄⟩]))))
      (.branch e ts (some us)) := by
  have hcond := readsPhrase_of_derives he
  rintro s fill (hold | hold)
  · refine .cons (.right (.cons (.left ((hslots _ closing_thenEnd s _ hold).mono ?_))))
    rintro _ v' ss rs hv _ rfl _ rfl i rfl
    have helse := (readsPhrase_of_derives hus _ closing_sequenceEnd).readsAt
      (i + 1 + u.length + 1 + v'.length + 1)
    exact List.append_nil rs ▸ readsAt_branchElse hcond l₁ l₂ l₃ l₄ _ hv helse
  · refine .cons (.right (.cons (.right (.cons (.left
      ((hslots' _ closing_sequenceEnd s _ hold).mono ?_))))))
    rintro _ w' ss rs hw _ rfl _ rfl _ rfl _ rfl i rfl
    have hthen := (readsPhrase_of_derives hts _ closing_thenEnd).readsAt (i + 1 + u.length + 1)
    exact readsAt_branchElse hcond l₁ l₂ l₃ l₄ _ hthen hw

theorem statementSlots_loop {e : Expr} (l₁ l₂ l₃ : String) (he : Derives .expr u e)
    (hts : SequenceSlots v ts) :
    StatementSlots (⟨.kwWhile, l₁⟩ :: (u ++ ⟨.kwDo, l₂⟩ :: (v ++ [⟨.kwEnd, l₃⟩])))
      (.loop e ts) := by
  intro s fill hold
  cases hold with
  | loopBody hold =>
    refine .cons (.right (.cons (.left ((hts _ closing_sequenceEnd s _ hold).mono ?_))))
    rintro _ w ss rs hw _ rfl _ rfl i rfl
    exact readsAt_loop (readsPhrase_of_derives he) l₁ l₂ l₃ _ hw

/-! ## Declarations and blocks -/

def DeclarationsSlots (word : List Symbol) (ds : List Declaration) : Prop :=
  ∀ s fill, Declaration.ListHolds ds s fill →
    HasSlot (fun i w ss rs => DeclarationsAt (fill ss) i w rs) word s

def BlockSlots (word : List Symbol) (b : Block) : Prop :=
  ∀ s fill, b.Holds s fill → HasSlot (fun i w ss rs => BlockAt (fill ss) i w rs) word s

def ProcedureSlots (word : List Symbol) (d : Declaration) : Prop :=
  ∀ s fill, d.Holds s fill → HasSlot (fun i w ss rs =>
    (procedureOf block).ReadsAt i w (fill ss) rs Kind.all ∧ headKind w = .kwProcedure) word s

/-- The entries of a section hold no statements. -/
theorem declarationsSlots_section {ds es : List Declaration}
    (hsection : ∀ i v es rs, DeclarationsAt es (i + u.length) v rs →
      DeclarationsAt (ds ++ es) i (u ++ v) rs)
    (hplain : ∀ d ∈ ds, ∀ s fill, ¬d.Holds s fill) (hslots : DeclarationsSlots v es) :
    DeclarationsSlots (u ++ v) (ds ++ es) := by
  intro s fill hold
  obtain ⟨fill', hes, rfl⟩ := hold.of_append hplain
  refine .right ((hslots s fill' hes).mono ?_)
  rintro _ w ss rs hw i rfl
  exact hsection i w (fill' ss) rs hw

theorem declarationsSlots_procedure {d : Declaration} {es : List Declaration} (l : String)
    (hd : Derives .procedure u d) (hes : Derives .declarations v es) (hslots : ProcedureSlots u d)
    (hmore : DeclarationsSlots v es) :
    DeclarationsSlots (u ++ ⟨.semicolon, l⟩ :: v) (d :: es) := by
  obtain ⟨hread, hhead⟩ := readsPhrase_of_derives hd
  intro s fill hold
  cases hold with
  | inside hold =>
    refine .left ((hslots s _ hold).mono ?_)
    rintro i w ss rs ⟨hw, hhead⟩
    exact List.append_nil rs ▸
      declarationsAt_procedure hw hhead (.present l) (readsPhrase_of_derives hes _)
  | behind hold =>
    refine .right (.cons ((hmore s _ hold).mono ?_))
    rintro _ w ss rs hw _ rfl i rfl
    exact declarationsAt_procedure (hread.readsAt i) hhead (.present l) hw

theorem procedureSlots {name endName : String} {ps : Option Parameters} {b : Block}
    (l₁ l₂ : String) (hps : parameters?.Reads u ps afterHeading) (hslots : BlockSlots v b) :
    ProcedureSlots
      (⟨.kwProcedure, l₁⟩ :: ⟨.identifier, name⟩ ::
        (u ++ ⟨.semicolon, l₂⟩ :: (v ++ [⟨.identifier, endName⟩])))
      (.procedure ⟨name, ps, b, endName⟩) := by
  intro s fill hold
  cases hold with
  | procedure hold =>
    refine .cons (.cons (.right (.cons (.left ((hslots s _ hold).mono ?_)))))
    rintro _ w ss rs hw _ rfl _ rfl _ rfl i rfl
    have hindex : i + 1 + 1 + u.length + 1 = i + u.length + 2 + 1 := by omega
    rw [hindex] at hw
    exact ⟨(readsAt_procedure name endName l₁ hps (.present l₂) hw :), rfl⟩

theorem blockSlots {ds : List Declaration} (l : String) (hslots : DeclarationsSlots u ds) :
    BlockSlots (u ++ [⟨.kwEnd, l⟩]) ⟨ds, []⟩ := by
  intro s fill hold
  cases hold with
  | declarations hold =>
    refine .left ((hslots s _ hold).mono fun i w ss rs hw => ?_)
    exact List.append_nil rs ▸ blockAt l hw (reads_body_nil.readsAt _) (by simp)
  | statements hold => cases hold

theorem blockSlots_body {ds : List Declaration} (l₁ l₂ : String)
    (hds : Derives .declarations u ds) (hts : Derives .sequence v ts)
    (hslots : DeclarationsSlots u ds) (hslots' : SequenceSlots v ts) :
    BlockSlots (u ++ ⟨.kwBegin, l₁⟩ :: (v ++ [⟨.kwEnd, l₂⟩])) ⟨ds, ts⟩ := by
  intro s fill hold
  cases hold with
  | declarations hold =>
    refine .left ((hslots s _ hold).mono fun i w ss rs hw => ?_)
    have hbody := readsAt_body l₁
      ((readsPhrase_of_derives hts _ closing_sequenceEnd).readsAt (i + w.length + 1))
    exact List.append_nil rs ▸ blockAt l₂ hw hbody (by simp)
  | statements hold =>
    refine .right (.cons (.left ((hslots' _ closing_sequenceEnd s _ hold).mono ?_)))
    rintro _ w ss rs hw _ rfl i rfl
    exact blockAt l₂ (readsPhrase_of_derives hds i) (readsAt_body l₁ hw) (by simp)

/-! ## Phrases -/

/-- The statements that the phrase holds stand in slots. What is repeated behind the first item of a
list is looked at together with that item. -/
def SlotsPhrase : (p : Phrase) → List Symbol → p.Tree → Prop
  | .compilationUnit, w, m => ∀ s fill, m.Holds s fill → HasSlot (fun i w ss rs =>
      compilationUnit.ReadsAt i w (fill ss) rs [.eof] ∧ ∃ init l, w = init ++ [⟨.period, l⟩]) w s
  | .block, w, b => BlockSlots w b
  | .declarations, w, ds => DeclarationsSlots w ds
  | .declaration, w, ds => ∀ v es, Derives .declarations v es → DeclarationsSlots v es →
      DeclarationsSlots (w ++ v) (ds ++ es)
  | .constDecls, _, ds | .varDecls, _, ds => ∀ d ∈ ds, ∀ s fill, ¬d.Holds s fill
  | .constant, _, d | .vars, _, d => ∀ s fill, ¬d.Holds s fill
  | .procedure, w, d => ProcedureSlots w d
  | .sequence, w, ss => SequenceSlots w ss
  | .moreStatements, w, ss => ∀ u s, Derives .statement u s → StatementSlots u s →
      SequenceSlots (u ++ w) (s :: ss)
  | .statement, w, s => StatementSlots w s
  | _, _, _ => True

/-- A statement without a body holds none. -/
theorem statementSlots_plain {t : Statement} (h : ∀ s fill, ¬t.Holds s fill) :
    StatementSlots word t := fun s fill hold => absurd hold (h s fill)

theorem slotsPhrase_of_derives {p : Phrase} {w : List Symbol} {t : p.Tree} (h : Derives p w t) :
    SlotsPhrase p w t := by
  induction h with
  | @compilationUnit l₁ n l₂ u is v b m l₃ his hb _ ihb =>
    intro s fill hold
    cases hold with
    | block hold =>
      refine .cons (.cons (.cons (.right (.left ((ihb s _ hold).mono ?_)))))
      rintro _ v' ss rs hv _ rfl _ rfl _ rfl i rfl
      have hindex : i + 1 + 1 + 1 + u.length = i + 1 + 2 + u.length := by omega
      rw [hindex] at hv
      have himports := readsPhrase_of_derives his
      exact ⟨(readsAt_compilationUnit n m l₁ l₃ (.present l₂) (himports _) hv :),
        ⟨.kwModule, l₁⟩ :: ⟨.identifier, n⟩ :: ⟨.semicolon, l₂⟩ ::
          (u ++ (v' ++ [⟨.identifier, m⟩])), l₃, by simp⟩
  | block _ ih => exact blockSlots _ ih
  | blockWithBody hds hts ihds ihts => exact blockSlots_body _ _ hds hts ihds ihts
  | noDeclarations => exact fun s fill hold => nomatch hold
  | declarations _ hes ihds ihes => exact ihds _ _ hes ihes
  | constSection hds ih =>
    exact fun v es _ hes => declarationsSlots_section
      (readsPhrase_of_derives (.constSection hds)) ih hes
  | varSection hds ih =>
    exact fun v es _ hes => declarationsSlots_section
      (readsPhrase_of_derives (.varSection hds)) ih hes
  | procedureSection hd ih =>
    intro v es hes hslots
    rw [List.append_assoc]
    exact declarationsSlots_procedure _ hd hes ih hslots
  | noConstDecls | noVarDecls => exact fun d hd => nomatch hd
  | constDecls _ _ ihd ihds | varDecls _ _ ihd ihds => exact List.forall_mem_cons.2 ⟨ihd, ihds⟩
  | constant | vars => exact fun s fill hold => nomatch hold
  | procedure _ ih => exact procedureSlots (u := []) _ _ reads_parameters?_absent ih
  | procedureWith hps _ _ ih =>
    exact procedureSlots _ _ (reads_parameters? (readsPhrase_of_derives hps)) ih
  | sequence hs _ ihs ihss => exact ihss _ _ hs ihs
  | noMoreStatements =>
    intro u s hs hslots
    rw [List.append_nil]
    exact sequenceSlots_single hs hslots
  | moreStatements hs' hss ihs ihss =>
    exact fun u s hs hslots => sequenceSlots_cons _ hs (.sequence hs' hss) hslots (ihss _ _ hs' ihs)
  | assign | callStatement | bare | leave | leaveWith =>
    exact statementSlots_plain fun s fill hold => nomatch hold
  | branch he _ _ ihss => exact statementSlots_branch _ _ _ he ihss
  | branchElse he hss hts _ ihss ihts =>
    exact statementSlots_branchElse _ _ _ _ he hss hts ihss ihts
  | loop he _ _ ihss => exact statementSlots_loop _ _ _ he ihss
  | _ => trivial

end Rule

end ModSyntax
