import ModSyntax.Proofs.Completeness

/-!
# Words that lack a semicolon

A word of the grammar that has lost one of its semicolons is still read as the tree of the whole
word, with one report, on the symbol that stands where the semicolon belongs
(`mendsPhrase_of_derives`). Two kinds of semicolons are essential and cannot be missed: those
between parameters, and those between a `RETURN` without a value and an identifier, which the parser
would take for the value.
-/

namespace ModSyntax

/-- The semicolons that the parser cannot do without, by the symbols before them and behind them. -/
inductive Essential : List Symbol → List Symbol → Prop where
  /-- Between two parameters of a procedure. -/
  | betweenParameters {x l₁ n l₂ u p ps v q y} :
      Derives .parameterList u (p :: ps) → Derives .parameter v q →
      Essential (x ++ ⟨.kwProcedure, l₁⟩ :: ⟨.identifier, n⟩ :: ⟨.lparen, l₂⟩ :: u) (v ++ y)
  /-- Between a `RETURN` without a value and a statement that begins with an identifier. -/
  | behindReturn {x l n y} : Essential (x ++ [⟨.kwReturn, l⟩]) (⟨.identifier, n⟩ :: y)

theorem Essential.append_left {x y : List Symbol} (h : Essential x y) (u : List Symbol) :
    Essential (u ++ x) y := by
  cases h with
  | betweenParameters hps hq => exact List.append_assoc u _ _ ▸ .betweenParameters hps hq
  | behindReturn => exact List.append_assoc u _ _ ▸ .behindReturn

theorem Essential.append_right {x y : List Symbol} (h : Essential x y) (v : List Symbol) :
    Essential x (y ++ v) := by
  cases h with
  | betweenParameters hps hq => exact (List.append_assoc _ _ v).symm ▸ .betweenParameters hps hq
  | behindReturn => exact .behindReturn

/-- An essential semicolon stands before a parameter or before an identifier. -/
theorem Essential.headKind_mem {x y : List Symbol} (h : Essential x y) :
    headKind y ∈ [.kwVar, .identifier] := by
  cases h with
  | betweenParameters _ hq =>
    exact (Rule.readsPhrase_of_derives hq).headKind_append (by decide) _
  | behindReturn => simp

/-! ## Where a semicolon stands -/

section

variable {u v before after : List Symbol} {s : Symbol}

/-- A symbol of two words together is a symbol of the first or of the second. -/
theorem append_eq_append_cons (h : u ++ v = before ++ s :: after) :
    (∃ y, u = before ++ s :: y ∧ after = y ++ v) ∨ ∃ x, before = u ++ x ∧ v = x ++ s :: after := by
  rcases List.append_eq_append_iff.1 h with ⟨x, rfl, rfl⟩ | ⟨y, rfl, hv⟩
  · exact .inr ⟨x, rfl, rfl⟩
  · cases y with
    | nil => exact .inr ⟨[], by simp, hv.symm⟩
    | cons t y =>
      obtain ⟨rfl, rfl⟩ := List.cons.inj hv
      exact .inl ⟨y, rfl, rfl⟩

theorem cons_eq_append_cons {t : Symbol} (h : t :: v = before ++ s :: after) :
    before = [] ∧ t = s ∧ v = after ∨ ∃ x, before = t :: x ∧ v = x ++ s :: after := by
  cases before with
  | nil => exact .inl ⟨rfl, List.cons.inj h⟩
  | cons t' x =>
    obtain ⟨rfl, rfl⟩ := List.cons.inj h
    exact .inr ⟨x, rfl, rfl⟩

end

/-- No symbol of the word is a semicolon. -/
def SemicolonFree (word : List Symbol) : Prop := ∀ s ∈ word, s.kind ≠ .semicolon

section

variable {u v : List Symbol} {s : Symbol}

@[simp] theorem semicolonFree_nil : SemicolonFree [] := by simp [SemicolonFree]

@[simp] theorem semicolonFree_cons :
    SemicolonFree (s :: v) ↔ s.kind ≠ .semicolon ∧ SemicolonFree v := by simp [SemicolonFree]

@[simp] theorem semicolonFree_append :
    SemicolonFree (u ++ v) ↔ SemicolonFree u ∧ SemicolonFree v := by
  simp [SemicolonFree, or_imp, forall_and]

theorem SemicolonFree.ne_append {before after : List Symbol} {l : String} (h : SemicolonFree u) :
    u ≠ before ++ ⟨.semicolon, l⟩ :: after := by
  rintro rfl
  simp at h

end

theorem Relation.kind_ne_semicolon (op : Relation) : op.kind ≠ .semicolon := by
  cases op <;> decide

theorem Sign.kind_ne_semicolon (sign : Sign) : sign.kind ≠ .semicolon := by
  cases sign <;> decide

theorem AddOp.kind_ne_semicolon (op : AddOp) : op.kind ≠ .semicolon := by
  cases op <;> decide

theorem MulOp.kind_ne_semicolon (op : MulOp) : op.kind ≠ .semicolon := by
  cases op <;> decide

/-- The phrases that have no semicolon in them. -/
def Phrase.plain : Phrase → Bool
  | compilationUnit | imports | importItem | block | declarations | declaration | constDecls
  | varDecls | procedure | parameters | parameterList | moreParameters | sequence | moreStatements
  | statement => false
  | _ => true

theorem Derives.semicolonFree {p : Phrase} {w : List Symbol} {t : p.Tree} (h : Derives p w t)
    (hp : p.plain = true) : SemicolonFree w := by
  induction h with
  | compare op => simp_all [Phrase.plain, op.kind_ne_semicolon]
  | signed sign => simp_all [Phrase.plain, sign.kind_ne_semicolon]
  | moreTerms op => simp_all [Phrase.plain, op.kind_ne_semicolon]
  | moreFactors op => simp_all [Phrase.plain, op.kind_ne_semicolon]
  | _ => simp_all [Phrase.plain]

/-! ## Words that can be mended -/

/-- If the word loses a semicolon that is not essential, it is still read, with one report, on the
symbol behind the gap. -/
def Mends (reads : Nat → List Symbol → List Report → Prop) (word : List Symbol) : Prop :=
  ∀ before l after, word = before ++ ⟨.semicolon, l⟩ :: after → ¬Essential before after →
    ∃ rule, ∀ i,
      reads i (before ++ after) [⟨i + before.length, .unexpected rule [.semicolon]⟩]

namespace Mends

variable {R S : Nat → List Symbol → List Report → Prop} {u v word : List Symbol} {s : Symbol}

theorem mono (h : Mends R word) (hsub : ∀ i w rs, R i w rs → S i w rs) : Mends S word := by
  intro before l after hw hne
  obtain ⟨rule, hread⟩ := h before l after hw hne
  exact ⟨rule, fun i => hsub i _ _ (hread i)⟩

theorem of_free (h : SemicolonFree word) : Mends R word :=
  fun _ _ _ hw => absurd hw h.ne_append

theorem of_essential (h : ∀ before l after, word = before ++ ⟨.semicolon, l⟩ :: after →
    Essential before after) : Mends R word :=
  fun before l after hw hne => absurd (h before l after hw) hne

/-- The semicolon is missing in one of two words. -/
theorem append (hu : Mends (fun i u' rs => R i (u' ++ v) rs) u)
    (hv : Mends (fun j v' rs => ∀ i, j = i + u.length → R i (u ++ v') rs) v) :
    Mends R (u ++ v) := by
  intro before l after hw hne
  rcases append_eq_append_cons hw with ⟨y, rfl, rfl⟩ | ⟨x, rfl, rfl⟩
  · obtain ⟨rule, hread⟩ := hu before l y rfl fun he => hne (he.append_right v)
    exact ⟨rule, fun i => List.append_assoc before y v ▸ hread i⟩
  · obtain ⟨rule, hread⟩ := hv x l after rfl fun he => hne (he.append_left u)
    refine ⟨rule, fun i => ?_⟩
    rw [List.append_assoc, List.length_append, ← Nat.add_assoc]
    exact hread _ i rfl

theorem cons (hs : s.kind ≠ .semicolon)
    (h : Mends (fun j w rs => ∀ i, j = i + 1 → R i (s :: w) rs) word) : Mends R (s :: word) :=
  append (u := [s]) (of_free (by simpa using hs)) h

/-- The semicolon is missing before a certain one, or it is that one, or it is missing behind it. -/
theorem gap {l : String} (hu : Mends (fun i u' rs => R i (u' ++ ⟨.semicolon, l⟩ :: v) rs) u)
    (hgap : ¬Essential u v →
      ∃ rule, ∀ i, R i (u ++ v) [⟨i + u.length, .unexpected rule [.semicolon]⟩])
    (hv : Mends (fun j v' rs => ∀ i, j = i + u.length + 1 →
      R i (u ++ ⟨.semicolon, l⟩ :: v') rs) v) :
    Mends R (u ++ ⟨.semicolon, l⟩ :: v) := by
  intro before l' after hw hne
  -- What is not essential in the whole word is not essential in a part of it.
  rcases append_eq_append_cons hw with ⟨y, rfl, rfl⟩ | ⟨x, rfl, hx⟩
  · obtain ⟨rule, hread⟩ := hu before l' y rfl fun he => hne (he.append_right _)
    exact ⟨rule, fun i => List.append_assoc before y _ ▸ hread i⟩
  rcases cons_eq_append_cons hx with ⟨rfl, -, rfl⟩ | ⟨x, rfl, rfl⟩
  · rw [List.append_nil] at hne ⊢
    exact hgap hne
  · have hx : ¬Essential x after := fun he =>
      hne (List.append_cons u _ x ▸ he.append_left (u ++ [⟨.semicolon, l⟩]))
    obtain ⟨rule, hread⟩ := hv x l' after rfl hx
    refine ⟨rule, fun i => ?_⟩
    have hlength : i + (u ++ ⟨.semicolon, l⟩ :: x).length = i + u.length + 1 + x.length := by
      simp
      omega
    rw [hlength, List.append_assoc]
    exact hread _ i rfl

end Mends

/-! ## Parameters -/

/-- One more parameter in front of a list of them. -/
theorem Derives.cons_parameterList {u v : List Symbol} {l : String} {p q : Parameter}
    {ps : List Parameter} (hp : Derives .parameter u p) (hps : Derives .parameterList v (q :: ps)) :
    Derives .parameterList (u ++ ⟨.semicolon, l⟩ :: v) (p :: q :: ps) := by
  cases hps with
  | parameterList hq hmore => exact .parameterList hp (.moreParameters hq hmore)

/-- Before each semicolon of the word stands a list of parameters, and behind it a parameter. -/
def PartsParameters (word : List Symbol) : Prop :=
  ∀ before l after, word = before ++ ⟨.semicolon, l⟩ :: after →
    (∃ p ps, Derives .parameterList before (p :: ps)) ∧
      ∃ v q rest, Derives .parameter v q ∧ after = v ++ rest

theorem partsParameters_cons {u v w : List Symbol} {l : String} {p q : Parameter}
    (hp : Derives .parameter u p) (hq : Derives .parameter v q) (h : PartsParameters (v ++ w)) :
    PartsParameters (u ++ ⟨.semicolon, l⟩ :: (v ++ w)) := by
  intro before l' after hw
  rcases append_eq_append_cons hw with ⟨y, hu, -⟩ | ⟨x, rfl, hx⟩
  · exact absurd hu (hp.semicolonFree rfl).ne_append
  rcases cons_eq_append_cons hx with ⟨rfl, -, rfl⟩ | ⟨y, rfl, hy⟩
  · rw [List.append_nil]
    exact ⟨⟨p, [], List.append_nil u ▸ .parameterList hp .noMoreParameters⟩, v, q, w, hq, rfl⟩
  · obtain ⟨⟨p', ps, hps⟩, hafter⟩ := h y l' after hy
    exact ⟨⟨p, p' :: ps, hp.cons_parameterList hps⟩, hafter⟩

/-- Behind the name of a procedure, the semicolons between brackets are essential. -/
theorem PartsParameters.essential {u w before after : List Symbol} {l₁ name l₂ l : String}
    (h : PartsParameters u) (hfree : SemicolonFree w)
    (hw : ⟨.lparen, l₂⟩ :: (u ++ w) = before ++ ⟨.semicolon, l⟩ :: after) :
    Essential (⟨.kwProcedure, l₁⟩ :: ⟨.identifier, name⟩ :: before) after := by
  rcases cons_eq_append_cons hw with ⟨-, hs, -⟩ | ⟨x, rfl, hx⟩
  · cases hs
  rcases append_eq_append_cons hx with ⟨y, hu, rfl⟩ | ⟨x, -, hx⟩
  · obtain ⟨⟨p, ps, hps⟩, v, q, rest, hq, rfl⟩ := h x l y hu
    rw [List.append_assoc]
    exact .betweenParameters (x := []) hps hq
  · exact absurd hx hfree.ne_append

namespace Rule

open ModSyntax.Parser

variable {u v w : List Symbol}

/-! ## Statements -/

/-- A statement begins with one of the kinds for it. -/
theorem headKind_of_derives_statement {s : Statement} (h : Derives .statement u s) :
    headKind u ∈ statementStart := by
  have hname {u : List Symbol} {q : QualifiedName} (hq : Derives .qualident u q) :
      headKind u = .identifier := by
    cases hq with
    | qualident _ => rfl
  cases h with
  | assign hq _ => simp [headKind_append_of_ne, hname hq, statementStart]
  | callStatement hq _ => simp [headKind_append_of_ne, hname hq, statementStart]
  | bare hq => simp [hname hq, statementStart]
  | branch _ _ => simp [statementStart]
  | branchElse _ _ _ => simp [statementStart]
  | loop _ _ => simp [statementStart]
  | leave => simp [statementStart]
  | leaveWith _ => simp [statementStart]

/-- Where a semicolon is not essential, the second of two statements cannot be taken for a part of
the first. -/
theorem headKind_mem_afterStatement {s s' : Statement} (hs : Derives .statement u s)
    (hs' : Derives .statement v s') (hne : ¬Essential u (v ++ w)) :
    headKind v ∈ afterStatement s := by
  have hstart := headKind_of_derives_statement hs'
  have hsub : statementStart ⊆ .identifier :: afterReturn := by decide
  unfold afterStatement
  split
  · cases hs with
    | leave =>
      have hident : headKind v ≠ .identifier := by
        intro hk
        cases v with
        | nil => cases hk
        | cons t v =>
          obtain ⟨k, n⟩ := t
          obtain rfl : k = .identifier := hk
          exact hne (.behindReturn (x := []))
      simpa [hident] using hsub hstart
  · exact hsub hstart

theorem mends_sequence_cons {closers : List Kind} (h : Closing closers) {s s' : Statement}
    {ss : List Statement} (l : String) (hs : Derives .statement u s)
    (hs' : Derives .statement v s') (hss : Derives .moreStatements w ss)
    (ms : Mends (statement.ReadsAt · · s · (afterStatement s)) u)
    (mss : Mends ((sequence closers).ReadsAt · · (s' :: ss) · closers) (v ++ w)) :
    Mends ((sequence closers).ReadsAt · · (s :: s' :: ss) · closers)
      (u ++ ⟨.semicolon, l⟩ :: (v ++ w)) := by
  have hread (i : Nat) : statement.ReadsAt i u s [] (afterStatement s) :=
    (readsPhrase_of_derives hs).readsAt i
  have hmore (i : Nat) : (sequence closers).ReadsAt i (v ++ w) (s' :: ss) [] closers :=
    (readsPhrase_of_derives (.sequence hs' hss) closers h).readsAt i
  have hstart := headKind_of_derives_statement hs'
  have hhead : headKind (v ++ w) = headKind v :=
    headKind_append_of_ne (fun he => by simp [he, statementStart] at hstart) w
  refine .gap (ms.mono fun i u' rs hu => ?_) (fun hne => ⟨.statementSequence, fun i => ?_⟩)
    (mss.mono fun j v' rs hv i hj => ?_)
  · exact List.append_nil rs ▸ readsAt_sequence_cons h l hu (hmore _)
  · exact readsAt_sequence_missing h (hread i) (hmore _) (hhead ▸ hstart)
      (hhead ▸ headKind_mem_afterStatement hs hs' hne)
  · exact readsAt_sequence_cons h l (hread i) (hj ▸ hv)

/-- A statement without a body has no semicolon in it. -/
theorem mends_statement (s : Statement) (h : SemicolonFree u) :
    Mends (statement.ReadsAt · · s · (afterStatement s)) u := .of_free h

theorem mends_branch {e : Expr} {ss : List Statement} (l₁ l₂ l₃ : String) (follow : List Kind)
    (he : Derives .expr u e) (mss : Mends ((sequence thenEnd).ReadsAt · · ss · thenEnd) v) :
    Mends (statement.ReadsAt · · (.branch e ss none) · follow)
      (⟨.kwIf, l₁⟩ :: (u ++ ⟨.kwThen, l₂⟩ :: (v ++ [⟨.kwEnd, l₃⟩]))) := by
  refine .cons (by simp) (.append (.of_free (he.semicolonFree rfl)) (.cons (by simp)
    (.append (mss.mono ?_) (.of_free (by simp)))))
  -- Each equation places a part of the statement behind the one before it.
  rintro _ v' rs hv _ rfl _ rfl i rfl
  exact readsAt_branch (readsPhrase_of_derives he) l₁ l₂ l₃ follow hv

theorem mends_branchElse {e : Expr} {ss ts : List Statement} (l₁ l₂ l₃ l₄ : String)
    (follow : List Kind) (he : Derives .expr u e) (hss : Derives .sequence v ss)
    (hts : Derives .sequence w ts)
    (mss : Mends ((sequence thenEnd).ReadsAt · · ss · thenEnd) v)
    (mts : Mends ((sequence sequenceEnd).ReadsAt · · ts · sequenceEnd) w) :
    Mends (statement.ReadsAt · · (.branch e ss (some ts)) · follow)
      (⟨.kwIf, l₁⟩ ::
        (u ++ ⟨.kwThen, l₂⟩ :: (v ++ ⟨.kwElse, l₃⟩ :: (w ++ [⟨.kwEnd, l₄⟩])))) := by
  have hcond := readsPhrase_of_derives he
  refine .cons (by simp) (.append (.of_free (he.semicolonFree rfl)) (.cons (by simp)
    (.append (mss.mono ?_) (.cons (by simp) (.append (mts.mono ?_) (.of_free (by simp)))))))
  · rintro _ v' rs hv _ rfl _ rfl i rfl
    have helse := (readsPhrase_of_derives hts _ closing_sequenceEnd).readsAt
      (i + 1 + u.length + 1 + v'.length + 1)
    exact List.append_nil rs ▸ readsAt_branchElse hcond l₁ l₂ l₃ l₄ follow hv helse
  · rintro _ w' rs hw _ rfl _ rfl _ rfl _ rfl i rfl
    have hthen := (readsPhrase_of_derives hss _ closing_thenEnd).readsAt (i + 1 + u.length + 1)
    exact readsAt_branchElse hcond l₁ l₂ l₃ l₄ follow hthen hw

theorem mends_loop {e : Expr} {ss : List Statement} (l₁ l₂ l₃ : String) (follow : List Kind)
    (he : Derives .expr u e) (mss : Mends ((sequence sequenceEnd).ReadsAt · · ss · sequenceEnd) v) :
    Mends (statement.ReadsAt · · (.loop e ss) · follow)
      (⟨.kwWhile, l₁⟩ :: (u ++ ⟨.kwDo, l₂⟩ :: (v ++ [⟨.kwEnd, l₃⟩]))) := by
  refine .cons (by simp) (.append (.of_free (he.semicolonFree rfl)) (.cons (by simp)
    (.append (mss.mono ?_) (.of_free (by simp)))))
  rintro _ v' rs hv _ rfl _ rfl i rfl
  exact readsAt_loop (readsPhrase_of_derives he) l₁ l₂ l₃ follow hv

/-! ## Declarations and blocks -/

theorem mends_entries_cons {rule : Construct} {entry : Rule Declaration}
    (henters : entry.Enters .identifier) {d : Declaration} {ds : List Declaration} (l : String)
    (hd : entry.ReadsFrom [.identifier] u d afterEntry) (hfree : SemicolonFree u)
    (hds : ∀ i, EntriesAt rule entry ds i v []) (mds : Mends (EntriesAt rule entry ds) v) :
    Mends (EntriesAt rule entry (d :: ds)) (u ++ ⟨.semicolon, l⟩ :: v) := by
  refine .gap (.of_free hfree) (fun _ => ⟨rule, fun i => ?_⟩) (mds.mono ?_)
  · exact entriesAt_cons henters hd .missing (hds _)
  · rintro _ v' rs hv i rfl
    exact entriesAt_cons henters hd (.present l) hv

/-- A section, behind its keyword. -/
theorem mends_section {rule : Construct} {entry : Rule Declaration} {ds es : List Declaration}
    {s : Symbol} (hs : s.kind ≠ .semicolon)
    (hsection : ∀ {i u v rs ss}, EntriesAt rule entry ds (i + 1) u rs →
      DeclarationsAt es (i + (u.length + 1)) v ss →
      DeclarationsAt (ds ++ es) i (s :: (u ++ v)) (rs ++ ss))
    (hds : ∀ i, EntriesAt rule entry ds i u []) (hes : ∀ i, DeclarationsAt es i v [])
    (mds : Mends (EntriesAt rule entry ds) u) (mes : Mends (DeclarationsAt es) v) :
    Mends (DeclarationsAt (ds ++ es)) (s :: (u ++ v)) := by
  refine .cons hs (.append (mds.mono ?_) (mes.mono ?_))
  · rintro _ u' rs hu i rfl
    exact List.append_nil rs ▸ hsection hu (hes _)
  · rintro _ v' rs hv _ rfl i rfl
    rw [Nat.add_assoc, Nat.add_comm 1] at hv
    exact hsection (hds _) hv

theorem mends_procedureSection {d : Declaration} {es : List Declaration} (l : String)
    (hd : Derives .procedure u d) (hes : Derives .declarations v es)
    (md : Mends
      (fun i w rs => (procedureOf block).ReadsAt i w d rs Kind.all ∧ headKind w = .kwProcedure) u)
    (mes : Mends (DeclarationsAt es) v) :
    Mends (DeclarationsAt (d :: es)) (u ++ ⟨.semicolon, l⟩ :: v) := by
  obtain ⟨hread, hhead⟩ := readsPhrase_of_derives hd
  have hmore := readsPhrase_of_derives hes
  refine .gap (md.mono ?_) (fun _ => ⟨.procedure, fun i => ?_⟩) (mes.mono ?_)
  · rintro i u' rs ⟨hu, hhead⟩
    exact List.append_nil rs ▸ declarationsAt_procedure hu hhead (.present l) (hmore _)
  · exact declarationsAt_procedure (hread.readsAt i) hhead .missing (hmore _)
  · rintro _ v' rs hv i rfl
    exact declarationsAt_procedure (hread.readsAt i) hhead (.present l) hv

theorem mends_procedure {name endName : String} {ps : Option Parameters} {b : Block}
    (l₁ l₂ : String) (hps : parameters?.Reads u ps afterHeading)
    (hess : ∀ before l after, u = before ++ ⟨.semicolon, l⟩ :: after →
      Essential (⟨.kwProcedure, l₁⟩ :: ⟨.identifier, name⟩ :: before) after)
    (hb : Derives .block v b) (mb : Mends (BlockAt b) v) :
    Mends (fun i w rs =>
        (procedureOf block).ReadsAt i w (.procedure ⟨name, ps, b, endName⟩) rs Kind.all ∧
          headKind w = .kwProcedure)
      (⟨.kwProcedure, l₁⟩ :: ⟨.identifier, name⟩ ::
        (u ++ ⟨.semicolon, l₂⟩ :: (v ++ [⟨.identifier, endName⟩]))) := by
  have hblock := readsPhrase_of_derives hb
  change Mends _ ((⟨.kwProcedure, l₁⟩ :: ⟨.identifier, name⟩ :: u) ++ ⟨.semicolon, l₂⟩ :: _)
  refine .gap (.of_essential ?_) (fun _ => ⟨.procedure, fun i => ⟨?_, rfl⟩⟩)
    (.append (mb.mono ?_) (.of_free (by simp)))
  · intro before l after hw
    rcases cons_eq_append_cons hw with ⟨-, hs, -⟩ | ⟨x, rfl, hx⟩
    · cases hs
    rcases cons_eq_append_cons hx with ⟨-, hs, -⟩ | ⟨y, rfl, hy⟩
    · cases hs
    · exact hess y l after hy
  · exact (readsAt_procedure name endName l₁ hps .missing (hblock _) :)
  · rintro _ v' rs hv i rfl
    exact ⟨(readsAt_procedure name endName l₁ hps (.present l₂) hv :), rfl⟩

theorem mends_block {ds : List Declaration} (l : String) (mds : Mends (DeclarationsAt ds) u) :
    Mends (BlockAt ⟨ds, []⟩) (u ++ [⟨.kwEnd, l⟩]) := by
  refine .append (mds.mono fun i u' rs hu => ?_) (.of_free (by simp))
  exact List.append_nil rs ▸ blockAt l hu (reads_body_nil.readsAt _) (by simp)

theorem mends_blockWithBody {ds : List Declaration} {ss : List Statement} (l₁ l₂ : String)
    (hds : Derives .declarations u ds) (hss : Derives .sequence v ss)
    (mds : Mends (DeclarationsAt ds) u)
    (mss : Mends ((sequence sequenceEnd).ReadsAt · · ss · sequenceEnd) v) :
    Mends (BlockAt ⟨ds, ss⟩) (u ++ ⟨.kwBegin, l₁⟩ :: (v ++ [⟨.kwEnd, l₂⟩])) := by
  refine .append (mds.mono fun i u' rs hu => ?_)
    (.cons (by simp) (.append (mss.mono ?_) (.of_free (by simp))))
  · have hbody := readsAt_body l₁ ((readsPhrase_of_derives hss _ closing_sequenceEnd).readsAt
      (i + u'.length + 1))
    exact List.append_nil rs ▸ blockAt l₂ hu hbody (by simp)
  · rintro _ v' rs hv _ rfl i rfl
    exact blockAt l₂ (readsPhrase_of_derives hds i) (readsAt_body l₁ hv) (by simp)

/-! ## Modules -/

theorem mends_imports_cons {item : Import} {is : List Import} (l : String)
    (hitem : importNames.ReadsFrom [.kwFrom, .kwImport] u item (.semicolon :: afterImport))
    (hfree : SemicolonFree u) (his : Derives .imports v is) (mis : Mends (ImportsAt is) v) :
    Mends (ImportsAt (item :: is)) (u ++ ⟨.semicolon, l⟩ :: v) := by
  refine .gap (.of_free hfree) (fun _ => ⟨.imports, fun i => ?_⟩) (mis.mono ?_)
  · exact importsAt_cons hitem .missing (readsPhrase_of_derives his _)
  · rintro _ v' rs hv i rfl
    exact importsAt_cons hitem (.present l) hv

theorem mends_compilationUnit {name endName : String} {is : List Import} {b : Block}
    (l₁ l₂ l₃ : String) (his : Derives .imports u is) (hb : Derives .block v b)
    (mis : Mends (ImportsAt is) u) (mb : Mends (BlockAt b) v) :
    Mends (compilationUnit.ReadsAt · · ⟨name, is, b, endName⟩ · [.eof])
      (⟨.kwModule, l₁⟩ :: ⟨.identifier, name⟩ :: ⟨.semicolon, l₂⟩ ::
        (u ++ (v ++ [⟨.identifier, endName⟩, ⟨.period, l₃⟩]))) := by
  change Mends _ ([⟨.kwModule, l₁⟩, ⟨.identifier, name⟩] ++ ⟨.semicolon, l₂⟩ :: _)
  have himports := readsPhrase_of_derives his
  have hblock := readsPhrase_of_derives hb
  refine .gap (.of_free (by simp)) (fun _ => ⟨.compilationUnit, fun i => ?_⟩)
    (.append (mis.mono ?_) (.append (mb.mono ?_) (.of_free (by simp))))
  · exact (readsAt_compilationUnit name endName l₁ l₃ .missing (himports _) (hblock _) :)
  · rintro _ u' rs hu i rfl
    have hread := readsAt_compilationUnit name endName l₁ l₃ (.present l₂) hu (hblock _)
    rwa [List.append_nil] at hread
  · rintro _ v' rs hv _ rfl i rfl
    exact (readsAt_compilationUnit name endName l₁ l₃ (.present l₂) (himports _) hv :)

/-! ## Phrases that can be mended -/

/-- The phrase can be mended. What is repeated behind the first item of a list is mended together
with that item. -/
def MendsPhrase : (p : Phrase) → List Symbol → p.Tree → Prop
  | .compilationUnit, w, m => Mends (compilationUnit.ReadsAt · · m · [.eof]) w
  | .imports, w, is => Mends (ImportsAt is) w
  | .importItem, w, item => ∀ v is, Derives .imports v is → Mends (ImportsAt is) v →
      Mends (ImportsAt (item :: is)) (w ++ v)
  | .block, w, b => Mends (BlockAt b) w
  | .declarations, w, ds => Mends (DeclarationsAt ds) w
  | .declaration, w, ds => ∀ v es, Derives .declarations v es → Mends (DeclarationsAt es) v →
      Mends (DeclarationsAt (ds ++ es)) (w ++ v)
  | .constDecls, w, ds => Mends (EntriesAt .constant constant ds) w
  | .varDecls, w, ds => Mends (EntriesAt .vars vars ds) w
  | .procedure, w, d => Mends
      (fun i w rs => (procedureOf block).ReadsAt i w d rs Kind.all ∧ headKind w = .kwProcedure) w
  | .parameters, w, _ => ∀ before l after, w = before ++ ⟨.semicolon, l⟩ :: after → ∀ l₁ name,
      Essential (⟨.kwProcedure, l₁⟩ :: ⟨.identifier, name⟩ :: before) after
  | .parameterList, w, _ => PartsParameters w
  | .moreParameters, w, _ => ∀ u p, Derives .parameter u p → PartsParameters (u ++ w)
  | .sequence, w, ss => ∀ closers, Closing closers →
      Mends ((sequence closers).ReadsAt · · ss · closers) w
  | .moreStatements, w, ss => ∀ closers, Closing closers → ∀ u s, Derives .statement u s →
      Mends (statement.ReadsAt · · s · (afterStatement s)) u →
        Mends ((sequence closers).ReadsAt · · (s :: ss) · closers) (u ++ w)
  | .statement, w, s => Mends (statement.ReadsAt · · s · (afterStatement s)) w
  | _, _, _ => True

/-- A phrase of the grammar that has lost a semicolon is still read as its tree. -/
theorem mendsPhrase_of_derives {p : Phrase} {w : List Symbol} {t : p.Tree} (h : Derives p w t) :
    MendsPhrase p w t := by
  induction h with
  | compilationUnit his hb ihis ihb => exact mends_compilationUnit _ _ _ his hb ihis ihb
  | noImports => exact .of_free (by simp)
  | imports _ his ihi ihis => exact ihi _ _ his ihis
  | importModules hns =>
    intro v is his mis
    rw [← List.cons_append, List.append_assoc]
    have hnames := readsPhrase_of_derives hns .imports (.semicolon :: afterImport) (by decide)
    exact mends_imports_cons _ ⟨reads_importModules _ hnames.reads, by simp⟩
      (by simpa using hns.semicolonFree rfl) his mis
  | importFrom hns =>
    intro v is his mis
    rw [← List.cons_append, ← List.cons_append, ← List.cons_append, List.append_assoc]
    have hnames := readsPhrase_of_derives hns .imports (.semicolon :: afterImport) (by decide)
    exact mends_imports_cons _ ⟨reads_importFrom _ _ hnames.reads, by simp⟩
      (by simpa using hns.semicolonFree rfl) his mis
  | block _ ih => exact mends_block _ ih
  | blockWithBody hds hss ihds ihss =>
    exact mends_blockWithBody _ _ hds hss ihds (ihss _ closing_sequenceEnd)
  | noDeclarations => exact .of_free (by simp)
  | declarations _ hds ihd ihds => exact ihd _ _ hds ihds
  | constSection hds ih =>
    exact fun v es hes mes => mends_section (by simp) (declarationsAt_const _)
      (readsPhrase_of_derives hds) (readsPhrase_of_derives hes) ih mes
  | varSection hds ih =>
    exact fun v es hes mes => mends_section (by simp) (declarationsAt_var _)
      (readsPhrase_of_derives hds) (readsPhrase_of_derives hes) ih mes
  | procedureSection hd ih =>
    intro v es hes mes
    rw [List.append_assoc]
    exact mends_procedureSection _ hd hes ih mes
  | noConstDecls => exact .of_free (by simp)
  | constDecls hd hds _ ihds =>
    exact mends_entries_cons enters_constant _ (readsPhrase_of_derives hd) (hd.semicolonFree rfl)
      (readsPhrase_of_derives hds) ihds
  | noVarDecls => exact .of_free (by simp)
  | varDecls hd hds _ ihds =>
    exact mends_entries_cons enters_vars _ (readsPhrase_of_derives hd) (hd.semicolonFree rfl)
      (readsPhrase_of_derives hds) ihds
  | procedure hb ih =>
    exact mends_procedure (u := []) _ _ reads_parameters?_absent (fun _ _ _ hw => by simp at hw) hb
      ih
  | procedureWith hps hb ihps ih =>
    exact mends_procedure _ _ (reads_parameters? (readsPhrase_of_derives hps))
      (fun before l after hw => ihps before l after hw _ _) hb ih
  | parameters _ ih => exact fun before l after hw l₁ name => ih.essential (by simp) hw
  | parametersWithResult _ hq ih =>
    exact fun before l after hw l₁ name => ih.essential (by simpa using hq.semicolonFree rfl) hw
  | noParameters => exact fun before l after hw => by simp at hw
  | parameterList hp _ _ ihps => exact ihps _ _ hp
  | noMoreParameters =>
    intro u p hp before l after hw
    rw [List.append_nil] at hw
    exact absurd hw (hp.semicolonFree rfl).ne_append
  | moreParameters hq _ _ ihps => exact fun u p hp => partsParameters_cons hp hq (ihps _ _ hq)
  | sequence hs _ ihs ihss => exact fun closers h => ihss closers h _ _ hs ihs
  | noMoreStatements =>
    intro closers h u s _ ms
    rw [List.append_nil]
    exact ms.mono fun _ _ _ hs => readsAt_sequence_single h hs
  | moreStatements hs' hss ihs ihss =>
    exact fun closers h u s hs ms =>
      mends_sequence_cons h _ hs hs' hss ms (ihss closers h _ _ hs' ihs)
  | assign hq he =>
    exact mends_statement _ (by simp [hq.semicolonFree rfl, he.semicolonFree rfl])
  | callStatement hq hes =>
    exact mends_statement _ (by simp [hq.semicolonFree rfl, hes.semicolonFree rfl])
  | bare hq => exact mends_statement _ (hq.semicolonFree rfl)
  | branch he _ _ ihss => exact mends_branch _ _ _ _ he (ihss _ closing_thenEnd)
  | branchElse he hss hts _ ihss ihts =>
    exact mends_branchElse _ _ _ _ _ he hss hts (ihss _ closing_thenEnd)
      (ihts _ closing_sequenceEnd)
  | loop he _ _ ihss => exact mends_loop _ _ _ _ he (ihss _ closing_sequenceEnd)
  | leave => exact mends_statement _ (by simp)
  | leaveWith he => exact mends_statement _ (by simp [he.semicolonFree rfl])
  | _ => trivial

end Rule

end ModSyntax
