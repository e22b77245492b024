import ModSyntax.Proofs.Reading.Expr

/-!
# Reading statements

How statements and sequences of statements read their words. The reports on a statement are those on
its bodies, and those on a sequence are those on its statements. A body that is left empty is read
with one report, on the symbol that closes it.
-/

namespace ModSyntax.Rule

open ModSyntax.Parser

variable {α : Type} {u v w word : List Symbol} {a : α} {follow near : List Kind} {i d n m : Nat}
  {rs rs' : List Report}

/-- What may follow any statement: what parts or closes statements, and what begins another one and
cannot be taken for the value of a `RETURN`. -/
def afterReturn : List Kind := [.semicolon, .kwElse, .kwEnd, .kwIf, .kwWhile, .kwReturn]

/-- What a statement ends in front of. -/
def afterStatement : Statement → List Kind
  | .leave none => afterReturn
  | _ => .identifier :: afterReturn

theorem afterReturn_subset (s : Statement) : afterReturn ⊆ afterStatement s := by
  unfold afterStatement
  split
  · exact List.Subset.refl _
  · exact List.subset_cons_self _ _

/-! ## Statements without a body -/

theorem reads_designator {s : Statement} (h : designator.Reads word s follow)
    (hk : headKind word = .identifier) : statement.Reads word s follow := by
  rw [statement_eq]
  exact reads_kind_bind .identifier hk (by decide) h

theorem reads_assign {q : QualifiedName} {e : Expr} (l : String)
    (hq : (qualifiedName .statement).ReadsFrom [.identifier] u q afterName)
    (he : expr.Reads v e follow) :
    statement.Reads (u ++ ⟨.becomes, l⟩ :: v) (.assign q e) follow := by
  have hk : headKind u = .identifier := by simpa using hq.opens
  refine reads_designator ?_ (by simp [headKind_append_of_ne, hk])
  refine hq.reads.bind_cons (reads_kind_bind .becomes rfl (by decide) ?_) (by simp [afterName])
  exact Reads.cons (fun near => reads_lift (reads_skip _ near)) (he.bind_pure (Statement.assign q))

theorem reads_callStatement {q : QualifiedName} {es : List Expr}
    (hq : (qualifiedName .statement).ReadsFrom [.identifier] u q afterName)
    (hargs : (arguments .statement).ReadsFrom [.lparen] v es follow) :
    statement.Reads (u ++ v) (.call q es) follow := by
  have hk : headKind u = .identifier := by simpa using hq.opens
  have hv : headKind v = .lparen := by simpa using hargs.opens
  refine reads_designator ?_ (by simp [headKind_append_of_ne, hk])
  refine hq.reads.bind
    (reads_kind_bind .lparen hv (by decide) (hargs.reads.bind_pure (Statement.call q)))
    fun rest _ => ?_
  simp [headKind_append_of_ne, hv, afterName]

theorem reads_bare {q : QualifiedName} (hend : ∀ k ∈ follow, k ≠ .becomes ∧ k ≠ .lparen)
    (hq : (qualifiedName .statement).ReadsFrom [.identifier] u q follow) :
    statement.Reads u (.bare q) follow := by
  have hk : headKind u = .identifier := by simpa using hq.opens
  refine reads_designator
    (hq.reads.bind_nil (reads_kind_bind_nil fun k hk => ?_) (List.Subset.refl _)) hk
  split
  · exact absurd rfl (hend _ hk).1
  · exact absurd rfl (hend _ hk).2
  · exact reads_pure _ _

theorem reads_leave (l : String) (hend : ∀ k ∈ follow, k.startsExpression = false) :
    statement.Reads [⟨.kwReturn, l⟩] (.leave none) follow := by
  rw [statement_eq]
  refine reads_kind_bind .kwReturn rfl (by decide)
    (Reads.cons (fun near => reads_lift (reads_skip _ near)) (reads_kind_bind_nil fun k hk => ?_))
  rw [if_neg (by simp [hend k hk])]
  exact reads_pure _ _

theorem reads_leaveWith {e : Expr} (l : String)
    (he : expr.ReadsFrom Kind.expressionStart u e follow) :
    statement.Reads (⟨.kwReturn, l⟩ :: u) (.leave (some e)) follow := by
  rw [statement_eq]
  refine reads_kind_bind .kwReturn rfl (by decide)
    (Reads.cons (fun near => reads_lift (reads_skip _ near)) ?_)
  refine reads_kind_bind (headKind u) rfl (he.headKind_ne (by decide)) ?_
  rw [if_pos (show (headKind u).startsExpression = true from decide_eq_true he.opens)]
  exact he.reads.bind_pure fun e => Statement.leave (some e)

/-! ## Sequences -/

/-- The kinds that can close a sequence. -/
def Closing (closers : List Kind) : Prop := ∀ k ∈ closers, k = .kwElse ∨ k = .kwEnd

theorem closing_sequenceEnd : Closing sequenceEnd := by simp [Closing, sequenceEnd]

theorem closing_thenEnd : Closing thenEnd := by simp [Closing, thenEnd]

theorem Closing.not_start {closers : List Kind} (h : Closing closers) :
    ∀ k ∈ closers, k ∉ statementStart := by
  intro k hk
  rcases h k hk with rfl | rfl <;> decide

theorem Closing.after {closers : List Kind} (h : Closing closers) (s : Statement) :
    closers ⊆ afterStatement s := by
  refine fun k hk => afterReturn_subset s ?_
  rcases h k hk with rfl | rfl <;> decide

theorem reads_separator (l : String) (closers follow : List Kind) :
    (separator closers).Reads [⟨.semicolon, l⟩] true follow := by
  intro rest index _
  simp [separator]

/-- In front of what closes a sequence, no statement follows. -/
theorem reads_separator_nil {closers : List Kind} (h : Closing closers) :
    (separator closers).Reads [] false closers := by
  intro rest index hrest
  have hstart := h.not_start _ hrest
  have hsemi : headKind rest ≠ .semicolon := by
    rcases h _ hrest with h | h <;> simp [h]
  simp [separator, hstart, hsemi, hrest]

/-- In front of what begins a statement, a semicolon is missing. -/
theorem readsAt_separator_missing (closers : List Kind) (i : Nat) :
    (separator closers).ReadsAt i [] true
      [⟨i, .unexpected .statementSequence [.semicolon]⟩] statementStart := by
  intro rest hrest
  have hsemi : headKind rest ≠ .semicolon :=
    (by decide : ∀ k ∈ statementStart, k ≠ .semicolon) _ hrest
  simp [separator, hsemi, hrest]

theorem readsAt_orSkipUntil {r : Rule α} (h : r.ReadsAt i word a rs follow) (kinds : List Kind) :
    (r.orSkipUntil kinds).ReadsAt i word (some a) rs follow := by
  intro rest hrest
  simp [orSkipUntil, h rest hrest]

theorem reads_orSkipUntil {r : Rule α} (h : r.Reads word a follow) (kinds : List Kind) :
    (r.orSkipUntil kinds).Reads word (some a) follow :=
  fun rest index hrest => readsAt_orSkipUntil (h.readsAt index) kinds rest hrest

section

variable {closers : List Kind} (h : Closing closers) {s : Statement} {ss : List Statement}
include h

/-- A sequence of one statement. -/
theorem readsAt_sequence_single (hs : statement.ReadsAt i word s rs (afterStatement s)) :
    (sequence closers).ReadsAt i word [s] rs closers := by
  rw [sequence_eq h.not_start]
  exact (readsAt_orSkipUntil hs (.semicolon :: closers)).bind_nil
    ((reads_separator_nil h).bind_nil (Parser.reads_pure [s] closers) (List.Subset.refl _))
    (h.after s)

/-- A statement, a semicolon, and the rest of a sequence. -/
theorem readsAt_sequence_cons (l : String) (hs : statement.ReadsAt i u s rs (afterStatement s))
    (hmore : (sequence closers).ReadsAt (i + u.length + 1) v ss rs' closers) :
    (sequence closers).ReadsAt i (u ++ ⟨.semicolon, l⟩ :: v) (s :: ss) (rs ++ rs') closers := by
  rw [sequence_eq h.not_start]
  exact (readsAt_orSkipUntil hs (.semicolon :: closers)).bind
    (.cons (reads_separator l closers) (hmore.bind_pure fun ss => s :: ss))
    fun _ _ => afterReturn_subset s (by simp [afterReturn])

/-- Where a statement follows another without a semicolon, that is reported, and both are read. -/
theorem readsAt_sequence_missing (hs : statement.ReadsAt i u s rs (afterStatement s))
    (hmore : (sequence closers).ReadsAt (i + u.length) v ss rs' closers)
    (hstart : headKind v ∈ statementStart) (hafter : headKind v ∈ afterStatement s) :
    (sequence closers).ReadsAt i (u ++ v) (s :: ss)
      (rs ++ ⟨i + u.length, .unexpected .statementSequence [.semicolon]⟩ :: rs') closers := by
  have hne : headKind v ≠ .eof := fun he => by simp [he, statementStart] at hstart
  rw [sequence_eq h.not_start]
  refine (readsAt_orSkipUntil hs (.semicolon :: closers)).bind ((readsAt_separator_missing closers
    (i + u.length)).bind (hmore.bind_pure fun ss => s :: ss) fun rest _ => ?_) fun rest _ => ?_
  · rwa [headKind_append_of_ne hne]
  · rwa [headKind_append_of_ne hne]

theorem readsWith_sequence_single (hs : statement.ReadsWith 1 n word s (afterStatement s)) :
    (sequence closers).ReadsWith 1 n word [s] closers := by
  intro i
  obtain ⟨rs, hreads, hmarks⟩ := hs i
  exact ⟨rs, readsAt_sequence_single h hreads, hmarks⟩

theorem readsWith_sequence_cons (l : String)
    (hs : statement.ReadsWith 1 n u s (afterStatement s))
    (hmore : (sequence closers).ReadsWith 1 m v ss closers) :
    (sequence closers).ReadsWith 1 (n + m) (u ++ ⟨.semicolon, l⟩ :: v) (s :: ss) closers := by
  intro i
  obtain ⟨rs, hreads, hmarks⟩ := hs i
  obtain ⟨rs', hreads', hmarks'⟩ := hmore (i + u.length + 1)
  refine ⟨rs ++ rs', readsAt_sequence_cons h l hreads hreads', ?_⟩
  exact hmarks.append (hmarks'.mono (by omega) (Nat.le_refl _)) (by omega) (by simp; omega)

/-- A body without statements is read with a report on what closes it. -/
theorem readsWith_sequence_nil : (sequence closers).ReadsWith 0 1 [] [] closers := by
  refine fun index => ⟨_, fun rest hrest => ?_,
    Marks.single index (.unexpected .statement statementStart)⟩
  have hstmt : statement.attempt.run ⟨rest, index⟩ =
      ⟨none, ⟨rest, index⟩, [⟨index, .unexpected .statement statementStart⟩]⟩ := by
    rw [statement_eq, statementOf, attempt_kind_bind, Cursor.kind_mk]
    rcases h _ hrest with hk | hk <;> rw [hk] <;> rfl
  have hstay : Cursor.skipUntil ⟨rest, index⟩ (.semicolon :: closers) = ⟨rest, index⟩ :=
    Cursor.skipUntil_of_mem (by simpa using .inr hrest)
  have hsep := reads_separator_nil h rest index hrest
  simp only [List.nil_append, List.length_nil, Nat.add_zero] at hsep ⊢
  rw [sequence_eq h.not_start, sequenceStep]
  simp [orSkipUntil, hstmt, hstay, hsep]

end

/-! ## Statements with bodies -/

theorem reads_condition {e : Expr} {keyword : Kind} (hkey : keyword ∈ afterExpr) (l : String)
    (rule : Construct) (he : expr.ReadsFrom Kind.expressionStart u e afterExpr)
    (follow : List Kind) :
    (condition keyword rule).Reads (u ++ [⟨keyword, l⟩]) (some e) follow := by
  intro rest index _
  have hrun := he.reads (⟨keyword, l⟩ :: rest) index hkey
  simp [condition, orSkipUntil, require, hrun, Nat.add_assoc]

/-- A condition, its keyword, and what follows. -/
theorem readsAt_condition_bind {e : Expr} {keyword : Kind} {f : Option Expr → Rule α}
    (hkey : keyword ∈ afterExpr) (l : String) (rule : Construct)
    (he : expr.ReadsFrom Kind.expressionStart u e afterExpr)
    (hf : (f (some e)).ReadsAt (i + u.length + 1) v a rs follow) :
    ((liftM (condition keyword rule) : Rule (Option Expr)) >>= f).ReadsAt i
      (u ++ ⟨keyword, l⟩ :: v) a rs follow := by
  have hlength : i + u.length + 1 = i + (u ++ [(⟨keyword, l⟩ : Symbol)]).length := by
    simp [Nat.add_assoc]
  have h := (reads_lift (reads_condition hkey l rule he Kind.all)).bind_at (hlength ▸ hf)
    fun _ _ => Kind.mem_all _
  rwa [List.append_assoc] at h

theorem reads_after?_absent {r : Rule α} {k : Kind} (follow : List Kind) (h : k ∉ follow) :
    (after? k r).Reads [] none follow :=
  Reads.bind_nil (reads_lift (reads_accept_absent h)) (reads_pure none follow) (List.Subset.refl _)

theorem readsAt_after? {r : Rule α} (k : Kind) (l : String)
    (h : r.ReadsAt (i + 1) word a rs follow) :
    (after? k r).ReadsAt i (⟨k, l⟩ :: word) (some a) rs follow :=
  ReadsAt.cons (fun near => reads_lift (reads_accept k l near)) (h.bind_pure some)

theorem reads_after? {r : Rule α} (k : Kind) (l : String) (h : r.Reads word a follow) :
    (after? k r).Reads (⟨k, l⟩ :: word) (some a) follow :=
  fun rest _ hrest => readsAt_after? k l (h.readsAt _) rest hrest

section

variable {e : Expr} {ss ts : List Statement}
  (he : expr.ReadsFrom Kind.expressionStart u e afterExpr)
include he

theorem readsAt_branch (l₁ l₂ l₃ : String) (follow : List Kind)
    (hss : (sequence thenEnd).ReadsAt (i + 1 + u.length + 1) v ss rs thenEnd) :
    statement.ReadsAt i (⟨.kwIf, l₁⟩ :: (u ++ ⟨.kwThen, l₂⟩ :: (v ++ [⟨.kwEnd, l₃⟩])))
      (.branch e ss none) rs follow := by
  rw [statement_eq]
  refine readsAt_kind_bind .kwIf rfl (by decide) (.cons
    (fun near => reads_lift (reads_skip _ near))
    (readsAt_condition_bind (by decide) l₂ .ifStatement he ?_))
  refine (readsAt_lift hss).bind_reads ?_ fun _ _ => by simp [thenEnd]
  have hend := (reads_discard_expect .kwEnd l₃ .ifStatement follow).bind_pure
    fun _ => Statement.branch e ss none
  exact (reads_after?_absent [.kwEnd] (by decide)).look hend fun _ _ => by simp

theorem readsAt_branchElse (l₁ l₂ l₃ l₄ : String) (follow : List Kind)
    (hss : (sequence thenEnd).ReadsAt (i + 1 + u.length + 1) v ss rs thenEnd)
    (hts : (sequence sequenceEnd).ReadsAt (i + 1 + u.length + 1 + v.length + 1) w ts rs'
      sequenceEnd) :
    statement.ReadsAt i
      (⟨.kwIf, l₁⟩ :: (u ++ ⟨.kwThen, l₂⟩ :: (v ++ ⟨.kwElse, l₃⟩ :: (w ++ [⟨.kwEnd, l₄⟩]))))
      (.branch e ss (some ts)) (rs ++ rs') follow := by
  rw [statement_eq]
  refine readsAt_kind_bind .kwIf rfl (by decide) (.cons
    (fun near => reads_lift (reads_skip _ near))
    (readsAt_condition_bind (by decide) l₂ .ifStatement he ?_))
  refine (readsAt_lift hss).bind ?_ fun _ _ => by simp [thenEnd]
  exact (readsAt_after? .kwElse l₃ (readsAt_lift hts)).bind_reads
    ((reads_discard_expect .kwEnd l₄ .ifStatement follow).bind_pure
      fun _ => Statement.branch e ss (some ts)) fun _ _ => by simp [sequenceEnd]

theorem readsAt_loop (l₁ l₂ l₃ : String) (follow : List Kind)
    (hss : (sequence sequenceEnd).ReadsAt (i + 1 + u.length + 1) v ss rs sequenceEnd) :
    statement.ReadsAt i (⟨.kwWhile, l₁⟩ :: (u ++ ⟨.kwDo, l₂⟩ :: (v ++ [⟨.kwEnd, l₃⟩])))
      (.loop e ss) rs follow := by
  rw [statement_eq]
  refine readsAt_kind_bind .kwWhile rfl (by decide) (.cons
    (fun near => reads_lift (reads_skip _ near))
    (readsAt_condition_bind (by decide) l₂ .whileStatement he ?_))
  exact (readsAt_lift hss).bind_reads
    ((reads_discard_expect .kwEnd l₃ .whileStatement follow).bind_pure
      fun _ => Statement.loop e ss) fun _ _ => by simp [sequenceEnd]

theorem readsWith_branch (l₁ l₂ l₃ : String)
    (hss : (sequence thenEnd).ReadsWith 0 n v ss thenEnd) :
    statement.ReadsWith 1 n (⟨.kwIf, l₁⟩ :: (u ++ ⟨.kwThen, l₂⟩ :: (v ++ [⟨.kwEnd, l₃⟩])))
      (.branch e ss none) follow := by
  intro i
  obtain ⟨rs, hreads, hmarks⟩ := hss (i + 1 + u.length + 1)
  exact ⟨rs, readsAt_branch he l₁ l₂ l₃ follow hreads, hmarks.mono (by omega) (by simp; omega)⟩

theorem readsWith_branchElse (l₁ l₂ l₃ l₄ : String)
    (hss : (sequence thenEnd).ReadsWith 0 n v ss thenEnd)
    (hts : (sequence sequenceEnd).ReadsWith 0 m w ts sequenceEnd) :
    statement.ReadsWith 1 (n + m)
      (⟨.kwIf, l₁⟩ :: (u ++ ⟨.kwThen, l₂⟩ :: (v ++ ⟨.kwElse, l₃⟩ :: (w ++ [⟨.kwEnd, l₄⟩]))))
      (.branch e ss (some ts)) follow := by
  intro i
  obtain ⟨rs, hreads, hmarks⟩ := hss (i + 1 + u.length + 1)
  obtain ⟨rs', hreads', hmarks'⟩ := hts (i + 1 + u.length + 1 + v.length + 1)
  refine ⟨rs ++ rs', readsAt_branchElse he l₁ l₂ l₃ l₄ follow hreads hreads', ?_⟩
  exact hmarks.append hmarks' (by omega) (by simp; omega)

theorem readsWith_loop (l₁ l₂ l₃ : String)
    (hss : (sequence sequenceEnd).ReadsWith 0 n v ss sequenceEnd) :
    statement.ReadsWith 1 n (⟨.kwWhile, l₁⟩ :: (u ++ ⟨.kwDo, l₂⟩ :: (v ++ [⟨.kwEnd, l₃⟩])))
      (.loop e ss) follow := by
  intro i
  obtain ⟨rs, hreads, hmarks⟩ := hss (i + 1 + u.length + 1)
  exact ⟨rs, readsAt_loop he l₁ l₂ l₃ follow hreads, hmarks.mono (by omega) (by simp; omega)⟩

end

end ModSyntax.Rule
