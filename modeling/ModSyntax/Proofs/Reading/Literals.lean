import ModSyntax.Proofs.Reading.Orderly
import ModSyntax.Proofs.Reading.Overflow
import ModSyntax.Proofs.Reading.Resume

/-!
# Modules with another literal

A literal of a module may be replaced by another one. If that has no value, it is reported, the
statement or the constant whose expression it stands in is left out, and all the rest is read as
before (`swapsPhrase_of_derives`).
-/

namespace ModSyntax

namespace Rule

open ModSyntax.Parser

/-- Another literal in a phrase. If it has no value, what is left of the phrase is read as `reads`
says, with one report on the literal. -/
abbrev SwapsAt {α β : Type} (place : (Int64 → α) → β → Prop) (derives : List Symbol → α → Prop)
    (reads : β → Nat → List Symbol → List Report → Prop) (word : List Symbol) : Prop :=
  Swaps place derives (fun left l x w => ∀ i, reads left i w [⟨i + x.length, .outOfRange l⟩]) word

namespace SwapsAt

variable {α β : Type} {place : (Int64 → α) → β → Prop} {derives : List Symbol → α → Prop}
  {reads : β → Nat → List Symbol → List Report → Prop} {u v word : List Symbol} {s : Symbol}

/-- The literal stands in one of two words. -/
theorem append
    (hu : SwapsAt place (fun w a => derives (w ++ v) a) (fun b i w rs => reads b i (w ++ v) rs) u)
    (hv : SwapsAt place (fun w a => derives (u ++ w) a)
      (fun b j w rs => ∀ i, j = i + u.length → reads b i (u ++ w) rs) v) :
    SwapsAt place derives reads (u ++ v) := by
  refine Swaps.append hu (hv.map id id id id fun hreads i => ?_)
  rw [List.length_append, ← Nat.add_assoc]
  exact hreads (i + u.length) i rfl

theorem cons (hs : s.kind ≠ .integer)
    (h : SwapsAt place (fun w a => derives (s :: w) a)
      (fun b j w rs => ∀ i, j = i + 1 → reads b i (s :: w) rs) word) :
    SwapsAt place derives reads (s :: word) :=
  append (u := [s]) (.of_free (by simpa using hs)) h

/-- The literal stands in a part of the tree, and what is left of that is put into the tree. -/
theorem part {holds : Statement → (List Statement → α) → Prop}
    {declares : Declaration → (List Declaration → α) → Prop}
    {holds' : Statement → (List Statement → β) → Prop}
    {declares' : Declaration → (List Declaration → β) → Prop} {derives' : List Symbol → β → Prop}
    {reads : α → Nat → List Symbol → List Report → Prop}
    {reads' : β → Nat → List Symbol → List Report → Prop}
    (h : SwapsAt (LiteralPlace holds declares) derives reads word) (f : α → β)
    (hholds : ∀ {s put}, holds s put → holds' s fun ss => f (put ss))
    (hdeclares : ∀ {d put}, declares d put → declares' d fun ds => f (put ds))
    (hderives : ∀ {w a}, derives w a → derives' w (f a))
    (hreads : ∀ {a i w rs}, reads a i w rs → reads' (f a) i w rs) :
    SwapsAt (LiteralPlace holds' declares') derives' reads' word :=
  h.map f f (·.map f hholds hdeclares) hderives fun h i => hreads (h i)

/-- The literal stands in a body of a statement. -/
theorem inside {t : Statement} {derives : List Symbol → Statement → Prop}
    {reads : List Statement → Nat → List Symbol → List Report → Prop}
    (h : SwapsAt (LiteralPlace t.Holds fun _ _ => False) derives (fun s => reads [s]) word) :
    SwapsAt t.Literal derives reads word := h.map id (fun t => [t]) .inside id id

end SwapsAt

/-! ## Statements that break -/

section

variable {l : String} {u v w word before : List Symbol} {closers : List Kind}

theorem breaks_designator (h : designator.Breaks l word)
    (hk : headKind (word ++ [⟨.integer, l⟩]) = .identifier) : statement.Breaks l word := by
  rw [statement_eq]
  exact breaks_kind_bind .identifier hk h

theorem breaks_assign {q : QualifiedName} (l₁ : String)
    (hq : (qualifiedName .statement).ReadsFrom [.identifier] u q afterName)
    (h : expr.Breaks l v) : statement.Breaks l (u ++ ⟨.becomes, l₁⟩ :: v) := by
  have hhead := hq.headKind_append (by decide) (⟨.becomes, l₁⟩ :: v ++ [⟨.integer, l⟩])
  refine breaks_designator (hq.reads.bind_breaks ⟨breaks_kind_bind .becomes rfl ?_,
    List.mem_singleton_self Kind.becomes⟩ (by decide)) (by simpa using hhead)
  exact breaks_cons (fun near => reads_lift (reads_skip _ near)) (h.bind _)

theorem breaks_callStatement {q : QualifiedName}
    (hq : (qualifiedName .statement).ReadsFrom [.identifier] u q afterName)
    (h : (arguments .statement).BreaksFrom [.lparen] l v) : statement.Breaks l (u ++ v) := by
  have hhead := hq.headKind_append (by decide) (v ++ [⟨.integer, l⟩])
  refine breaks_designator (hq.reads.bind_breaks ⟨?_, h.opens⟩ (by decide)) (by simpa using hhead)
  exact breaks_kind_bind .lparen (by simpa using h.opens) (h.breaks.bind _)

theorem breaks_leaveWith (l₁ : String) (h : expr.BreaksFrom Kind.expressionStart l word) :
    statement.Breaks l (⟨.kwReturn, l₁⟩ :: word) := by
  rw [statement_eq]
  refine breaks_kind_bind .kwReturn rfl (breaks_cons (fun near => reads_lift (reads_skip _ near))
    (breaks_kind_bind _ rfl ?_))
  rw [if_pos (show (headKind _).startsExpression = true from decide_eq_true h.opens)]
  exact h.breaks.bind _

/-- A statement that breaks is read as nothing, with what it leaves of its expression. -/
theorem fillsAt_of_breaks (h : Closing closers) (hs : statement.Breaks l before)
    (hword : Strands l before word) (i : Nat) :
    FillsAt closers i word [] [⟨i + before.length, .outOfRange l⟩] := by
  obtain ⟨after, rfl, hafter⟩ := hword
  rw [← List.singleton_append, ← List.append_assoc]
  refine fillsAt_of_broken h (fun rest _ => ?_) fun s hs hk => hafter s hs ?_
  · simpa [Nat.add_assoc] using hs (after ++ rest) i
  · rcases List.mem_cons.1 hk with hk | hk
    · simp [hk, exprStops]
    · rcases h _ hk with hk | hk <;> simp [hk, exprStops]

/-- Behind a condition that breaks, parsing goes on at its keyword. -/
theorem run_condition_broken {keyword : Kind} (hkey : keyword ∈ [.kwThen, .kwDo])
    (rule : Construct) (h : expr.Breaks l before) (hword : Strands l before word) (l₁ : String)
    (rest : List Symbol) (i : Nat) :
    (condition keyword rule).run ⟨word ++ ⟨keyword, l₁⟩ :: rest, i⟩ =
      ⟨none, ⟨rest, i + word.length + 1⟩, [⟨i + before.length, .outOfRange l⟩]⟩ := by
  obtain ⟨after, rfl, hafter⟩ := hword
  have hstops : [keyword, .semicolon, .kwEnd] ⊆ exprStops := by
    rcases (by simpa using hkey : keyword = .kwThen ∨ keyword = .kwDo) with rfl | rfl <;> decide
  have hexpr := h (after ++ ⟨keyword, l₁⟩ :: rest) i
  have hskip : Cursor.skipUntil ⟨after ++ ⟨keyword, l₁⟩ :: rest, i + before.length + 1⟩
      [keyword, .semicolon, .kwEnd] =
      ⟨⟨keyword, l₁⟩ :: rest, i + before.length + 1 + after.length⟩ :=
    Cursor.skipUntil_past (fun s hs hk => hafter s hs (hstops hk)) (by simp) _
  simp [condition, orSkipUntil, require, hexpr, hskip]
  omega

/-- A statement that ends with its word and fails is read as nothing. -/
theorem fillsAt_of_lost (h : Closing closers) {rs : List Report} {i j : Nat}
    (hj : j = i + word.length)
    (hrun : ∀ rest, statement.attempt.run ⟨word ++ rest, i⟩ = ⟨none, ⟨rest, j⟩, rs⟩) :
    FillsAt closers i word [] rs := by
  subst hj
  have hlost := fillsAt_of_broken (v := []) h (fun rest _ => hrun rest) (by simp)
  rwa [List.append_nil] at hlost

section

variable (h : Closing closers) (hcond : expr.Breaks l before) (hword : Strands l before word)
  {ss ts : List Statement} (l₁ l₂ l₃ l₄ : String) (i : Nat)
include h hcond hword

/-- A statement whose condition breaks is read as nothing, with its bodies. -/
theorem fillsAt_branch_broken (hss : (sequence thenEnd).Reads v ss thenEnd) :
    FillsAt closers i (⟨.kwIf, l₁⟩ :: (word ++ ⟨.kwThen, l₂⟩ :: (v ++ [⟨.kwEnd, l₃⟩]))) []
      [⟨i + 1 + before.length, .outOfRange l⟩] := by
  refine fillsAt_of_lost h (j := i + 1 + word.length + 1 + v.length + 1) (by simp; omega)
    fun rest => ?_
  have hthen := hss (⟨.kwEnd, l₃⟩ :: rest) (i + 1 + word.length + 1) (by simp [thenEnd])
  simpa using run_branch l₁
    (run_condition_broken (by decide) .ifStatement hcond hword l₂ _ _) hthen

theorem fillsAt_branchElse_broken (hss : (sequence thenEnd).Reads v ss thenEnd)
    (hts : (sequence sequenceEnd).Reads w ts sequenceEnd) :
    FillsAt closers i (⟨.kwIf, l₁⟩ ::
        (word ++ ⟨.kwThen, l₂⟩ :: (v ++ ⟨.kwElse, l₃⟩ :: (w ++ [⟨.kwEnd, l₄⟩])))) []
      [⟨i + 1 + before.length, .outOfRange l⟩] := by
  refine fillsAt_of_lost h (j := i + 1 + word.length + 1 + v.length + 1 + w.length + 1)
    (by simp; omega) fun rest => ?_
  have hthen := hss (⟨.kwElse, l₃⟩ :: (w ++ ⟨.kwEnd, l₄⟩ :: rest)) (i + 1 + word.length + 1)
    (by simp [thenEnd])
  have helse := hts (⟨.kwEnd, l₄⟩ :: rest) (i + 1 + word.length + 1 + v.length + 1)
    (by simp [sequenceEnd])
  simpa using run_branchElse l₁
    (run_condition_broken (by decide) .ifStatement hcond hword l₂ _ _) hthen helse

theorem fillsAt_loop_broken (hss : (sequence sequenceEnd).Reads v ss sequenceEnd) :
    FillsAt closers i (⟨.kwWhile, l₁⟩ :: (word ++ ⟨.kwDo, l₂⟩ :: (v ++ [⟨.kwEnd, l₃⟩]))) []
      [⟨i + 1 + before.length, .outOfRange l⟩] := by
  refine fillsAt_of_lost h (j := i + 1 + word.length + 1 + v.length + 1) (by simp; omega)
    fun rest => ?_
  have hbody := hss (⟨.kwEnd, l₃⟩ :: rest) (i + 1 + word.length + 1) (by simp [sequenceEnd])
  simpa using run_loop l₁
    (run_condition_broken (by decide) .whileStatement hcond hword l₂ _ _) hbody

end

end

/-! ## Statements -/

/-- Another literal in a statement. -/
abbrev SwapsStatement (word : List Symbol) (s : Statement) : Prop :=
  SwapsAt s.Literal (Derives .statement)
    (fun ss i w rs => ∀ closers, Closing closers → FillsAt closers i w ss rs) word

/-- Another literal in a sequence of statements. -/
abbrev SwapsSequence (word : List Symbol) (ss : List Statement) : Prop :=
  SwapsAt (Statement.ListLiteral ss) (Derives .sequence)
    (fun ss i w rs => ∀ closers, Closing closers → (sequence closers).ReadsAt i w ss rs closers)
    word

section

variable {u v w : List Symbol} {q : QualifiedName} {e : Expr} {s : Statement}
  {ss ts : List Statement} (l₁ l₂ l₃ l₄ : String)

theorem swapsSequence_single (h : SwapsStatement u s) : SwapsSequence u [s] := by
  refine h.map (fun s => [s]) id (fun hs => ?_) (fun hs => ?_) fun hreads i closers hclosing => ?_
  · simpa using hs.cons []
  · simpa using Derives.sequence hs .noMoreStatements
  · exact (hreads i closers hclosing).readsAt_single hclosing

theorem swapsSequence_cons (hs : Derives .statement u s) (hss : Derives .sequence v ss)
    (h : SwapsStatement u s) (hmore : SwapsSequence v ss) :
    SwapsSequence (u ++ ⟨.semicolon, l₁⟩ :: v) (s :: ss) := by
  have hderives {u v s ss} (hs : Derives .statement u s) (hss : Derives .sequence v ss) :
      Derives .sequence (u ++ ⟨.semicolon, l₁⟩ :: v) (s :: ss) := by
    cases hss with
    | sequence ht hts => exact .sequence hs (.moreStatements ht hts)
  refine .append ?_ (.cons (by simp) ?_)
  · refine h.map (· :: ss) (· ++ ss) (·.cons ss) (hderives · hss) fun hreads i closers h => ?_
    exact (hreads i closers h).readsAt_cons l₁ ((readsPhrase_of_derives hss _ h).readsAt _)
  · refine hmore.part (s :: ·) .behind nofun (hderives hs) ?_
    rintro _ _ _ _ hreads _ rfl i rfl closers h
    exact readsAt_sequence_cons h l₁ ((readsPhrase_of_derives hs).readsAt i) (hreads closers h)

theorem swapsStatement_assign (hq : Derives .qualident u q) (he : Derives .expr v e) :
    SwapsStatement (u ++ ⟨.becomes, l₁⟩ :: v) (.assign q e) := by
  refine Swaps.append (.of_free (hq.literalFree rfl)) (Swaps.cons (by simp) ((swaps_expr he).map
    (.assign q) (fun _ => []) (fun h => .own (.assign h)) (.assign hq) ?_))
  rintro _ _ _ _ ⟨hbreaks, hword⟩ i closers h
  exact fillsAt_of_breaks h
    (breaks_assign l₁ (readsPhrase_of_derives hq _ _ (by decide)) hbreaks.breaks)
    ((hword.cons _).append u) i

theorem swapsStatement_call {es : List Expr} (hq : Derives .qualident u q)
    (hes : Derives .arguments v es) : SwapsStatement (u ++ v) (.call q es) := by
  refine Swaps.append (.of_free (hq.literalFree rfl)) ((swaps_arguments hes).map
    (.call q) (fun _ => []) (fun h => .own (.call h)) (.callStatement hq) ?_)
  rintro _ _ _ _ ⟨hbreaks, hword⟩ i closers h
  exact fillsAt_of_breaks h
    (breaks_callStatement (readsPhrase_of_derives hq _ _ (by decide)) (hbreaks .statement))
    (hword.append u) i

theorem swapsStatement_leave (he : Derives .expr u e) :
    SwapsStatement (⟨.kwReturn, l₁⟩ :: u) (.leave (some e)) := by
  refine Swaps.cons (by simp) ((swaps_expr he).map (fun e => .leave (some e)) (fun _ => [])
    (fun h => .own (.leave h)) .leaveWith ?_)
  rintro _ _ _ _ ⟨hbreaks, hword⟩ i closers h
  exact fillsAt_of_breaks h (breaks_leaveWith l₁ hbreaks) (hword.cons _) i

theorem swapsStatement_branch (he : Derives .expr u e) (hss : Derives .sequence v ss)
    (h : SwapsSequence v ss) :
    SwapsStatement (⟨.kwIf, l₁⟩ :: (u ++ ⟨.kwThen, l₂⟩ :: (v ++ [⟨.kwEnd, l₃⟩])))
      (.branch e ss none) := by
  refine .cons (by simp) (.append ?_ (.cons (by simp) (.append ?_
    (.of_free (by simp)))))
  · refine (swaps_expr he).map (.branch · ss none) (fun _ => []) (fun h => .own (.branch h))
      (.branch · hss) ?_
    rintro _ _ _ _ ⟨hbreaks, hword⟩ _ i rfl closers h
    exact fillsAt_branch_broken h hbreaks.breaks hword l₁ l₂ l₃ i
      (readsPhrase_of_derives hss _ closing_thenEnd)
  · refine .inside (h.part (.branch e · none) .thenBody nofun (.branch he) ?_)
    rintro _ _ _ _ hreads _ rfl _ rfl i rfl closers h
    exact fillsAt_of_readsAt h (readsAt_branch (readsPhrase_of_derives he) l₁ l₂ l₃ _
      (hreads _ closing_thenEnd))

theorem swapsStatement_branchElse (he : Derives .expr u e) (hss : Derives .sequence v ss)
    (hts : Derives .sequence w ts) (h : SwapsSequence v ss) (h' : SwapsSequence w ts) :
    SwapsStatement
      (⟨.kwIf, l₁⟩ :: (u ++ ⟨.kwThen, l₂⟩ :: (v ++ ⟨.kwElse, l₃⟩ :: (w ++ [⟨.kwEnd, l₄⟩]))))
      (.branch e ss (some ts)) := by
  refine .cons (by simp) (.append ?_ (.cons (by simp) (.append ?_ (.cons (by simp) (.append ?_
    (.of_free (by simp)))))))
  · refine (swaps_expr he).map (.branch · ss (some ts)) (fun _ => []) (fun h => .own (.branch h))
      (.branchElse · hss hts) ?_
    rintro _ _ _ _ ⟨hbreaks, hword⟩ _ i rfl closers h
    exact fillsAt_branchElse_broken h hbreaks.breaks hword l₁ l₂ l₃ l₄ i
      (readsPhrase_of_derives hss _ closing_thenEnd)
      (readsPhrase_of_derives hts _ closing_sequenceEnd)
  · refine .inside (h.part (.branch e · (some ts)) .thenBody nofun (.branchElse he · hts) ?_)
    rintro _ _ _ rs hreads _ rfl _ rfl i rfl closers h
    exact fillsAt_of_readsAt h (List.append_nil rs ▸ readsAt_branchElse
      (readsPhrase_of_derives he) l₁ l₂ l₃ l₄ _ (hreads _ closing_thenEnd)
      ((readsPhrase_of_derives hts _ closing_sequenceEnd).readsAt _))
  · refine .inside (h'.part (fun ts => .branch e ss (some ts)) .elseBody nofun
      (.branchElse he hss) ?_)
    rintro _ _ _ _ hreads _ rfl _ rfl _ rfl _ rfl i rfl closers h
    exact fillsAt_of_readsAt h (readsAt_branchElse (readsPhrase_of_derives he) l₁ l₂ l₃ l₄ _
      ((readsPhrase_of_derives hss _ closing_thenEnd).readsAt _)
      (hreads _ closing_sequenceEnd))

theorem swapsStatement_loop (he : Derives .expr u e) (hss : Derives .sequence v ss)
    (h : SwapsSequence v ss) :
    SwapsStatement (⟨.kwWhile, l₁⟩ :: (u ++ ⟨.kwDo, l₂⟩ :: (v ++ [⟨.kwEnd, l₃⟩])))
      (.loop e ss) := by
  refine .cons (by simp) (.append ?_ (.cons (by simp) (.append ?_
    (.of_free (by simp)))))
  · refine (swaps_expr he).map (.loop · ss) (fun _ => []) (fun h => .own (.loop h))
      (.loop · hss) ?_
    rintro _ _ _ _ ⟨hbreaks, hword⟩ _ i rfl closers h
    exact fillsAt_loop_broken h hbreaks.breaks hword l₁ l₂ l₃ i
      (readsPhrase_of_derives hss _ closing_sequenceEnd)
  · refine .inside (h.part (.loop e) .loopBody nofun (.loop he) ?_)
    rintro _ _ _ _ hreads _ rfl _ rfl i rfl closers h
    exact fillsAt_of_readsAt h (readsAt_loop (readsPhrase_of_derives he) l₁ l₂ l₃ _
      (hreads _ closing_sequenceEnd))

end

/-! ## Declarations and blocks -/

/-- Another literal in a list of declarations. -/
abbrev SwapsDeclarations (word : List Symbol) (ds : List Declaration) : Prop :=
  SwapsAt (Declaration.ListLiteral ds) (Derives .declarations) DeclarationsAt word

/-- Another literal in the constants of a section. -/
abbrev SwapsConstants (word : List Symbol) (ds : List Declaration) : Prop :=
  SwapsAt (Declaration.ListLiteral ds) (Derives .constDecls) (EntriesAt .constant constant) word

/-- Another literal in a section or a procedure. -/
abbrev SwapsDeclaration (word : List Symbol) (ds : List Declaration) : Prop :=
  SwapsAt (Declaration.ListLiteral ds) (Derives .declaration)
    (fun ds i w rs => ∀ v es, DeclarationsAt es (i + w.length) v [] →
      DeclarationsAt (ds ++ es) i (w ++ v) rs) word

abbrev SwapsProcedure (word : List Symbol) (d : Declaration) : Prop :=
  SwapsAt (LiteralPlace d.Holds d.Declares) (Derives .procedure)
    (fun d i w rs => (procedureOf block).ReadsAt i w d rs Kind.all ∧ headKind w = .kwProcedure) word

abbrev SwapsBlock (word : List Symbol) (b : Block) : Prop :=
  SwapsAt (LiteralPlace b.Holds b.Declares) (Derives .block) BlockAt word

abbrev SwapsModule (word : List Symbol) (m : Module) : Prop :=
  SwapsAt (LiteralPlace m.Holds m.Declares) (Derives .compilationUnit)
    (fun m i w rs => compilationUnit.ReadsAt i w m rs [.eof]) word

section

variable {u v w : List Symbol} {e : Expr} {d : Declaration} {ds es : List Declaration} {b : Block}
  {ss : List Statement} (l₁ l₂ l₃ : String)

theorem swaps_constant {name : String} (he : Derives .expr u e) :
    Swaps (fun fill (_ : Unit) => (Declaration.constant name e).OwnsLiteral fill)
      (Derives .constant)
      (fun _ l x w => constant.BreaksFrom [.identifier] l x ∧ Strands l x w)
      (⟨.identifier, name⟩ :: ⟨.equal, l₁⟩ :: u) := by
  refine .cons (by simp) (.cons (by simp) ((swaps_expr he).map (.constant name) id .constant
    .constant fun ⟨hbreaks, hword⟩ => ⟨⟨?_, by simp⟩, (hword.cons _).cons _⟩))
  exact breaks_cons (reads_identifier name .constant)
    (breaks_cons (reads_discard_expect .equal l₁ .constant) (hbreaks.breaks.bind _))

/-- A constant that breaks is left with its semicolon. -/
theorem entriesAt_broken {l : String} {x : List Symbol} {i : Nat}
    (hbreaks : constant.BreaksFrom [.identifier] l x) (hword : Strands l x u)
    (hmore : EntriesAt .constant constant ds (i + u.length + 1) v []) :
    EntriesAt .constant constant ds i (u ++ ⟨.semicolon, l₁⟩ :: v)
      [⟨i + x.length, .outOfRange l⟩] := by
  obtain ⟨y, rfl, hy⟩ := hword
  have hhead (rest : List Symbol) : headKind (x ++ ⟨.integer, l⟩ :: rest) = .identifier := by
    simpa [headKind_append_literal x rest] using hbreaks.opens
  refine ⟨fun rest hrest => ?_, .inr (by simp [hhead])⟩
  have hbroken := hbreaks.breaks (y ++ ⟨.semicolon, l₁⟩ :: (v ++ rest)) i
  have hleave := run_leaveDeclaration l₁
    (fun s hs hk => hy s hs ((by decide : declarationSync ⊆ exprStops) hk)) (v ++ rest)
    (i + x.length + 1)
  have hindex : i + (x ++ ⟨.integer, l⟩ :: y).length + 1 = i + x.length + 1 + y.length + 1 := by
    simp
    omega
  have hread := hmore.reads rest hrest
  rw [hindex] at hread
  rw [entries_eq .constant enters_constant, entriesStep, run_kind_bind]
  simp [hhead, hbroken, hleave, hread]
  omega

theorem swapsConstants_cons (hd : Derives .constant u d) (hds : Derives .constDecls v ds)
    (h : SwapsConstants v ds) :
    SwapsConstants (u ++ ⟨.semicolon, l₁⟩ :: v) (d :: ds) := by
  refine .append ?_ (.cons (by simp) ?_)
  · cases hd with
    | constant he =>
      refine (swaps_constant _ he).map (· :: ds) (fun _ => ds) (·.cons ds) (.constDecls · hds) ?_
      rintro _ _ _ _ ⟨hbreaks, hword⟩ i
      exact entriesAt_broken l₁ hbreaks hword (readsPhrase_of_derives hds _)
  · refine h.part (d :: ·) .behind .behind (.constDecls hd) ?_
    rintro _ _ _ _ hreads _ rfl i rfl
    exact entriesAt_cons enters_constant (readsPhrase_of_derives hd) (.present l₁) hreads

theorem swapsDeclaration_const (h : SwapsConstants u ds) :
    SwapsDeclaration (⟨.kwConst, l₁⟩ :: u) ds := by
  refine .cons (by simp) (h.part id id id .constSection ?_)
  rintro _ _ _ rs hreads i rfl v es hes
  exact List.append_nil rs ▸ declarationsAt_const l₁ hreads hes

theorem swapsDeclaration_procedure (h : SwapsProcedure u d) :
    SwapsDeclaration (u ++ [⟨.semicolon, l₁⟩]) [d] := by
  refine .append (h.part (fun d => [d]) .inside .inside .procedureSection ?_)
    (.of_free (by simp))
  rintro _ _ _ rs ⟨hread, hhead⟩ v es hes
  rw [List.length_append, ← Nat.add_assoc] at hes
  rw [List.append_assoc]
  exact List.append_nil rs ▸ declarationsAt_procedure hread hhead (.present l₁) hes

theorem swapsDeclarations_cons (hds : Derives .declaration u ds) (hes : Derives .declarations v es)
    (h : SwapsDeclaration u ds) (hmore : SwapsDeclarations v es) :
    SwapsDeclarations (u ++ v) (ds ++ es) := by
  refine .append ?_ ?_
  · exact h.part (· ++ es) (·.append_right es) (·.append_right es) (.declarations · hes)
      fun hreads => hreads v es (readsPhrase_of_derives hes _)
  · refine hmore.part (ds ++ ·) (·.append_left ds) (·.append_left ds) (.declarations hds) ?_
    rintro _ _ _ _ hreads i rfl
    exact readsPhrase_of_derives hds i _ _ _ hreads

theorem swapsProcedure {name endName : String} {ps : Option Parameters} (hu : LiteralFree u)
    (hps : parameters?.Reads u ps afterHeading)
    (hderives : ∀ {w b}, Derives .block w b → Derives .procedure
      (⟨.kwProcedure, l₁⟩ :: ⟨.identifier, name⟩ ::
        (u ++ ⟨.semicolon, l₂⟩ :: (w ++ [⟨.identifier, endName⟩])))
      (.procedure ⟨name, ps, b, endName⟩))
    (h : SwapsBlock v b) :
    SwapsProcedure
      (⟨.kwProcedure, l₁⟩ :: ⟨.identifier, name⟩ ::
        (u ++ ⟨.semicolon, l₂⟩ :: (v ++ [⟨.identifier, endName⟩])))
      (.procedure ⟨name, ps, b, endName⟩) := by
  refine .cons (by simp) (.cons (by simp) (.append (.of_free hu) (.cons (by simp) (.append
    (h.part (fun b => .procedure ⟨name, ps, b, endName⟩) .procedure .procedure hderives ?_)
    (.of_free (by simp))))))
  rintro _ _ _ _ hb _ rfl _ rfl _ rfl i rfl
  have hindex : i + 1 + 1 + u.length + 1 = i + u.length + 2 + 1 := by omega
  rw [hindex] at hb
  exact ⟨(readsAt_procedure name endName l₁ hps (.present l₂) hb :), rfl⟩

theorem swapsBlock (h : SwapsDeclarations u ds) : SwapsBlock (u ++ [⟨.kwEnd, l₁⟩]) ⟨ds, []⟩ := by
  refine .append (h.part (Block.mk · []) .declarations .declarations .block ?_)
    (.of_free (by simp))
  intro _ _ _ rs hreads
  exact List.append_nil rs ▸ blockAt l₁ hreads (reads_body_nil.readsAt _) (by simp)

theorem swapsBlock_body (hds : Derives .declarations u ds) (hss : Derives .sequence v ss)
    (h : SwapsDeclarations u ds) (h' : SwapsSequence v ss) :
    SwapsBlock (u ++ ⟨.kwBegin, l₁⟩ :: (v ++ [⟨.kwEnd, l₂⟩])) ⟨ds, ss⟩ := by
  refine .append ?_ (.cons (by simp) (.append ?_ (.of_free (by simp))))
  · refine h.part (Block.mk · ss) .declarations .declarations (.blockWithBody · hss) ?_
    intro _ i w rs hreads
    have hbody := readsAt_body l₁
      ((readsPhrase_of_derives hss _ closing_sequenceEnd).readsAt (i + w.length + 1))
    exact List.append_nil rs ▸ blockAt l₂ hreads hbody (by simp)
  · refine h'.part (Block.mk ds) .statements nofun (.blockWithBody hds) ?_
    rintro _ _ _ _ hreads _ rfl i rfl
    exact blockAt l₂ (readsPhrase_of_derives hds i)
      (readsAt_body l₁ (hreads _ closing_sequenceEnd)) (by simp)

theorem swapsModule {name endName : String} {is : List Import} (his : Derives .imports u is)
    (h : SwapsBlock v b) :
    SwapsModule (⟨.kwModule, l₁⟩ :: ⟨.identifier, name⟩ :: ⟨.semicolon, l₂⟩ ::
      (u ++ (v ++ [⟨.identifier, endName⟩, ⟨.period, l₃⟩]))) ⟨name, is, b, endName⟩ := by
  refine .cons (by simp) (.cons (by simp) (.cons (by simp) (.append
    (.of_free (his.literalFree rfl)) (.append
      (h.part (Module.mk name is · endName) .block .block (.compilationUnit his) ?_)
      (.of_free (by simp))))))
  rintro _ _ _ _ hb _ rfl _ rfl _ rfl i rfl
  have hindex : i + 1 + 1 + 1 + u.length = i + 1 + 2 + u.length := by omega
  rw [hindex] at hb
  exact (readsAt_compilationUnit name endName l₁ l₃ (.present l₂)
    (readsPhrase_of_derives his _) hb :)

end

/-! ## Phrases -/

/-- Another literal in a phrase. What is repeated behind the first statement is looked at together
with that statement. -/
abbrev SwapsPhrase : (p : Phrase) → List Symbol → p.Tree → Prop
  | .compilationUnit, w, m => SwapsModule w m
  | .block, w, b => SwapsBlock w b
  | .declarations, w, ds => SwapsDeclarations w ds
  | .declaration, w, ds => SwapsDeclaration w ds
  | .constDecls, w, ds => SwapsConstants w ds
  | .procedure, w, d => SwapsProcedure w d
  | .sequence, w, ss => SwapsSequence w ss
  | .moreStatements, w, ss => ∀ u s, Derives .statement u s → SwapsStatement u s →
      SwapsSequence (u ++ w) (s :: ss)
  | .statement, w, s => SwapsStatement w s
  | _, _, _ => True

theorem swapsPhrase_of_derives {p : Phrase} {w : List Symbol} {t : p.Tree} (h : Derives p w t) :
    SwapsPhrase p w t := by
  induction h with
  | compilationUnit his _ _ ihb => exact swapsModule _ _ _ his ihb
  | block _ ih => exact swapsBlock _ ih
  | blockWithBody hds hss ihds ihss => exact swapsBlock_body _ _ hds hss ihds ihss
  | noDeclarations | noConstDecls => exact .of_free (by simp)
  | declarations hds hes ihds ihes => exact swapsDeclarations_cons hds hes ihds ihes
  | constSection _ ih => exact swapsDeclaration_const _ ih
  | varSection hds => exact .of_free (by simpa using hds.literalFree rfl)
  | procedureSection _ ih => exact swapsDeclaration_procedure _ ih
  | constDecls hd hds _ ih => exact swapsConstants_cons _ hd hds ih
  | procedure _ ih =>
    exact swapsProcedure (u := []) _ _ (by simp) reads_parameters?_absent
      .procedure ih
  | procedureWith hps _ _ ih =>
    exact swapsProcedure _ _ (hps.literalFree rfl) (reads_parameters? (readsPhrase_of_derives hps))
      (.procedureWith hps) ih
  | sequence hs _ ihs ihss => exact ihss _ _ hs ihs
  | noMoreStatements =>
    intro u s _ h
    rw [List.append_nil]
    exact swapsSequence_single h
  | moreStatements hs' hss ihs ihss =>
    exact fun u s hs h => swapsSequence_cons _ hs (.sequence hs' hss) h (ihss _ _ hs' ihs)
  | assign hq he => exact swapsStatement_assign _ hq he
  | callStatement hq hes => exact swapsStatement_call hq hes
  | bare hq => exact .of_free (hq.literalFree rfl)
  | branch he hss _ ihss => exact swapsStatement_branch _ _ _ he hss ihss
  | branchElse he hss hts _ ihss ihts =>
    exact swapsStatement_branchElse _ _ _ _ he hss hts ihss ihts
  | loop he hss _ ihss => exact swapsStatement_loop _ _ _ he hss ihss
  | leave => exact .of_free (by simp)
  | leaveWith he => exact swapsStatement_leave _ he
  | _ => trivial

end Rule

end ModSyntax
