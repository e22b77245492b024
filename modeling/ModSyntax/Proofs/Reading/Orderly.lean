import ModSyntax.Proofs.Reading.Debris

/-!
# Nested statements among debris

Symbols that nest statements do no harm in the place of a statement if each `IF` and `WHILE` of them
begins a statement behind whole ones, and has a sound condition, or else debris alone in its body and
behind it (`Orderly`). Then its `END` is found by it, and not by what stands around it
(`fills_of_orderly`). One that is skipped leaves its `END` behind; what follows a statement with a
broken condition is skipped, so that only debris may follow it.
-/

namespace ModSyntax

open ModSyntax.Parser

namespace Rule

variable {closers : List Kind} {i : Nat} {u v w word : List Symbol}

/-! ## Statements with a body -/

section

variable {d : Cursor} {found : Option Expr} {ss ts : List Statement} {rs rs' rs'' : List Report}
  {l l' : String} {rest rest' : List Symbol} {j k : Nat}

theorem run_branch (l₁ : String)
    (hcond : (condition .kwThen .ifStatement).run ⟨word, i + 1⟩ = ⟨found, d, rs⟩)
    (hthen : (sequence thenEnd).run d = ⟨ss, ⟨⟨.kwEnd, l⟩ :: rest, j⟩, rs'⟩) :
    statement.attempt.run ⟨⟨.kwIf, l₁⟩ :: word, i⟩ =
      ⟨found.map (Statement.branch · ss none), ⟨rest, j + 1⟩, rs ++ rs'⟩ := by
  rw [sequence] at hthen
  rw [statement_eq, statementOf, attempt_kind_bind, Cursor.kind_mk, headKind_cons]
  cases found <;> simp [branchOf, hcond, hthen, after?, expect]

theorem run_branchElse (l₁ : String)
    (hcond : (condition .kwThen .ifStatement).run ⟨word, i + 1⟩ = ⟨found, d, rs⟩)
    (hthen : (sequence thenEnd).run d = ⟨ss, ⟨⟨.kwElse, l⟩ :: rest, j⟩, rs'⟩)
    (helse : (sequence sequenceEnd).run ⟨rest, j + 1⟩ =
      ⟨ts, ⟨⟨.kwEnd, l'⟩ :: rest', k⟩, rs''⟩) :
    statement.attempt.run ⟨⟨.kwIf, l₁⟩ :: word, i⟩ =
      ⟨found.map (Statement.branch · ss (some ts)), ⟨rest', k + 1⟩, rs ++ (rs' ++ rs'')⟩ := by
  rw [sequence] at hthen helse
  rw [statement_eq, statementOf, attempt_kind_bind, Cursor.kind_mk, headKind_cons]
  cases found <;> simp [branchOf, hcond, hthen, helse, after?, expect]

theorem run_loop (l₁ : String)
    (hcond : (condition .kwDo .whileStatement).run ⟨word, i + 1⟩ = ⟨found, d, rs⟩)
    (hbody : (sequence sequenceEnd).run d = ⟨ss, ⟨⟨.kwEnd, l⟩ :: rest, j⟩, rs'⟩) :
    statement.attempt.run ⟨⟨.kwWhile, l₁⟩ :: word, i⟩ =
      ⟨found.map (Statement.loop · ss), ⟨rest, j + 1⟩, rs ++ rs'⟩ := by
  rw [sequence] at hbody
  rw [statement_eq, statementOf, attempt_kind_bind, Cursor.kind_mk, headKind_cons]
  cases found <;> simp [loopOf, hcond, hbody, expect]

end

/-- A statement that begins with the word ends with it, whatever follows. -/
def Ends (i : Nat) (word : List Symbol) (found : Option Statement) : Prop :=
  ∃ rs, Within i (i + word.length) rs ∧
    ∀ rest, statement.attempt.run ⟨word ++ rest, i⟩ = ⟨found, ⟨rest, i + word.length⟩, rs⟩

theorem ends_of_run {found : Option Statement} {rs : List Report} {j : Nat}
    (hj : j = i + word.length) (hbounds : Within i j rs)
    (hrun : ∀ rest, statement.attempt.run ⟨word ++ rest, i⟩ = ⟨found, ⟨rest, j⟩, rs⟩) :
    Ends i word found := by
  subst hj
  exact ⟨rs, hbounds, hrun⟩

/-- A statement that ends with its word, found or broken, and debris behind it. -/
theorem Ends.fills_debris (h : Closing closers) {found : Option Statement} (hends : Ends i u found)
    (hv : Debris closers v) : Fills closers i (u ++ v) := by
  obtain ⟨rs, hbounds, hrun⟩ := hends
  cases found with
  | none => exact fills_of_broken h hbounds (fun rest _ => hrun (v ++ rest)) hv
  | some s =>
    exact fills_of_found h hbounds (fun rest _ => hrun (v ++ rest))
      (continues_of_fills h (fills_of_debris h _ v hv) (.inr hv))

/-- The condition is read from the word up to the body `v`, behind which the statement goes on with
`tail`. -/
def ConditionAt (keyword : Kind) (rule : Construct) (i : Nat) (word v tail : List Symbol)
    (found : Option Expr) : Prop :=
  ∃ j rs, i ≤ j ∧ j + v.length = i + word.length ∧ Within i j rs ∧ ∀ rest,
    (condition keyword rule).run ⟨word ++ (tail ++ rest), i⟩ = ⟨found, ⟨v ++ (tail ++ rest), j⟩, rs⟩

section

variable {found : Option Expr} (l : String) {l' l'' : String}

theorem ends_branch (hcond : ConditionAt .kwThen .ifStatement (i + 1) u v [⟨.kwEnd, l'⟩] found)
    (hv : ∀ j, Fills thenEnd j v) :
    ∃ ss, Ends i (⟨.kwIf, l⟩ :: (u ++ [⟨.kwEnd, l'⟩]))
      (found.map (Statement.branch · ss none)) := by
  obtain ⟨j, rs, hle, hlength, hbounds, hcond⟩ := hcond
  obtain ⟨ss, rs', hbounds', hthen⟩ := hv j
  have hwithin : Within i (j + v.length + 1) (rs ++ rs') :=
    (hbounds.mono (by omega) (by omega)).append (hbounds'.mono (by omega) (by omega))
  refine ⟨ss, ends_of_run (by simp; omega) hwithin fun rest => ?_⟩
  simpa using run_branch l (hcond rest)
    (hthen.readsAt_single closing_thenEnd _ (.tail _ (.head _)))

theorem ends_branchElse
    (hcond : ConditionAt .kwThen .ifStatement (i + 1) u v
      (⟨.kwElse, l'⟩ :: (w ++ [⟨.kwEnd, l''⟩])) found)
    (hv : ∀ j, Fills thenEnd j v) (hw : ∀ j, Fills sequenceEnd j w) :
    ∃ ss ts, Ends i (⟨.kwIf, l⟩ :: (u ++ ⟨.kwElse, l'⟩ :: (w ++ [⟨.kwEnd, l''⟩])))
      (found.map (Statement.branch · ss (some ts))) := by
  obtain ⟨j, rs, hle, hlength, hbounds, hcond⟩ := hcond
  obtain ⟨ss, rs', hbounds', hthen⟩ := hv j
  obtain ⟨ts, rs'', hbounds'', helse⟩ := hw (j + v.length + 1)
  have hwithin : Within i (j + v.length + 1 + w.length + 1) (rs ++ (rs' ++ rs'')) :=
    (hbounds.mono (by omega) (by omega)).append
      ((hbounds'.mono (by omega) (by omega)).append (hbounds''.mono (by omega) (by omega)))
  refine ⟨ss, ts, ends_of_run (by simp; omega) hwithin fun rest => ?_⟩
  have hcond := hcond rest
  simp only [List.cons_append, List.append_assoc, List.nil_append] at hcond
  simpa using run_branchElse l hcond (hthen.readsAt_single closing_thenEnd _ (.head _))
    (helse.readsAt_single closing_sequenceEnd _ (.head _))

theorem ends_loop (hcond : ConditionAt .kwDo .whileStatement (i + 1) u v [⟨.kwEnd, l'⟩] found)
    (hv : ∀ j, Fills sequenceEnd j v) :
    ∃ ss, Ends i (⟨.kwWhile, l⟩ :: (u ++ [⟨.kwEnd, l'⟩])) (found.map (Statement.loop · ss)) := by
  obtain ⟨j, rs, hle, hlength, hbounds, hcond⟩ := hcond
  obtain ⟨ss, rs', hbounds', hbody⟩ := hv j
  have hwithin : Within i (j + v.length + 1) (rs ++ rs') :=
    (hbounds.mono (by omega) (by omega)).append (hbounds'.mono (by omega) (by omega))
  refine ⟨ss, ends_of_run (by simp; omega) hwithin fun rest => ?_⟩
  simpa using run_loop l (hcond rest) (hbody.readsAt_single closing_sequenceEnd _ (.head _))

end

/-! ## Statements with debris inside -/

/-- Whatever stands in front of the `END` of a statement, its condition ends before that. -/
theorem conditionAt_garbled {keyword : Kind} (hkey : keyword ∉ statementStops) (rule : Construct)
    (i : Nat) (l : String) (hword : Debris sequenceEnd word) :
    ∃ taken left found, word = taken ++ left ∧ ∀ v tail, left ++ [⟨.kwEnd, l⟩] = v ++ tail →
      ConditionAt keyword rule i (taken ++ v) v tail found := by
  obtain ⟨taken, left, found, rs, rfl, hbounds, hcond⟩ :=
    confined_condition hkey rule (List.Subset.refl closing_sequenceEnd.stops.kinds) i word
      (closing_sequenceEnd.stopFree hword)
  refine ⟨taken, left, found, rfl, fun v tail htail => ?_⟩
  refine ⟨i + taken.length, rs, by omega, by simp [Nat.add_assoc], hbounds, fun rest => ?_⟩
  have hsplit : left ++ ⟨.kwEnd, l⟩ :: rest = v ++ (tail ++ rest) := by
    rw [← List.append_assoc, ← htail]
    simp
  have hrun := hcond (⟨.kwEnd, l⟩ :: rest) (.tail _ (.head _))
  rwa [List.append_assoc, hsplit, ← List.append_assoc] at hrun

section

variable (i : Nat) (l l' : String) (hv : Debris sequenceEnd v)
include hv

theorem ends_garbled_branch : ∃ found, Ends i (⟨.kwIf, l⟩ :: (v ++ [⟨.kwEnd, l'⟩])) found := by
  obtain ⟨taken, left, found, rfl, hcond⟩ :=
    conditionAt_garbled (by decide : .kwThen ∉ statementStops) .ifStatement (i + 1) l' hv
  rcases hv.right.split_else with hleft | ⟨w, l₂, x, rfl, hw, hx⟩
  · obtain ⟨ss, hends⟩ := ends_branch l (hcond left [⟨.kwEnd, l'⟩] rfl)
      fun j => fills_of_debris closing_thenEnd j left hleft
    exact ⟨_, hends⟩
  · have hcond := hcond w (⟨.kwElse, l₂⟩ :: (x ++ [⟨.kwEnd, l'⟩])) (by simp)
    obtain ⟨ss, ts, hends⟩ := ends_branchElse l hcond
      (fun j => fills_of_debris closing_thenEnd j w hw)
      fun j => fills_of_debris closing_sequenceEnd j x hx
    simp only [List.append_assoc, List.cons_append] at hends ⊢
    exact ⟨_, hends⟩

theorem ends_garbled_loop : ∃ found, Ends i (⟨.kwWhile, l⟩ :: (v ++ [⟨.kwEnd, l'⟩])) found := by
  obtain ⟨taken, left, found, rfl, hcond⟩ :=
    conditionAt_garbled (by decide : .kwDo ∉ statementStops) .whileStatement (i + 1) l' hv
  obtain ⟨ss, hends⟩ := ends_loop l (hcond left [⟨.kwEnd, l'⟩] rfl)
    fun j => fills_of_debris closing_sequenceEnd j left hv.right
  exact ⟨_, hends⟩

end

end Rule

/-! ## Statements with a sound condition -/

/-- The word is a sound condition, the keyword behind it, and the body `v`. The keyword may be
missing if the body does not begin like more of the condition. -/
inductive Headed (keyword : Kind) : List Symbol → List Symbol → Prop where
  | present {l : String} {u v : List Symbol} {e : Expr} :
      Derives .expr u e → Headed keyword (u ++ ⟨keyword, l⟩ :: v) v
  | missing {u v : List Symbol} {e : Expr} :
      Derives .expr u e → v = [] ∨ headKind v ∈ Rule.afterExpr ∧ headKind v ≠ keyword →
      Headed keyword (u ++ v) v

namespace Rule

variable {closers : List Kind} {i : Nat} {u v w word : List Symbol}

theorem conditionAt_headed {keyword : Kind} (hkey : keyword ∈ [.kwThen, .kwDo])
    (h : Headed keyword word v) (rule : Construct) (i : Nat) {tail : List Symbol}
    (htail : headKind tail ∈ statementStops) :
    ∃ e, ConditionAt keyword rule i word v tail (some e) := by
  have hne : headKind tail ≠ .eof := (by decide : ∀ k ∈ statementStops, k ≠ .eof) _ htail
  cases h with
  | @present l u v e he =>
    refine ⟨e, i + u.length + 1, [], by omega, by simp; omega, .nil _ _, fun rest => ?_⟩
    have hafter := (by decide : [.kwThen, .kwDo] ⊆ afterExpr) hkey
    have hread := reads_condition hafter l rule (readsPhrase_of_derives he) Kind.all
      (v ++ (tail ++ rest)) i (Kind.mem_all _)
    simpa [Nat.add_assoc] using hread
  | @missing u v e he hnext =>
    refine ⟨e, i + u.length, [⟨i + u.length, .unexpected rule [keyword]⟩], by omega, by simp; omega,
      .cons (Nat.le_add_right _ _) (Nat.le_refl _) (.nil _ _), fun rest => ?_⟩
    have hnext : headKind (v ++ (tail ++ rest)) ∈ afterExpr ∧
        headKind (v ++ (tail ++ rest)) ≠ keyword := by
      rcases hnext with rfl | hnext
      · rw [List.nil_append, headKind_append_of_ne hne]
        refine ⟨(by decide : statementStops ⊆ afterExpr) htail, fun hk => ?_⟩
        exact (by decide : ∀ k ∈ statementStops, k ∉ [.kwThen, .kwDo]) _ htail (hk ▸ hkey)
      · have hne : headKind v ≠ .eof := fun he => absurd (he ▸ hnext.1) (by decide)
        rwa [headKind_append_of_ne hne]
    have hread := (readsPhrase_of_derives he).reads (v ++ (tail ++ rest)) i hnext.1
    simp [condition, orSkipUntil, require, hread, hnext.2]

end Rule

/-! ## Orderly words -/

/-- Each `IF` and `WHILE` of the word begins a statement, behind whole statements in the word or in
the body of another one. Its condition is sound and its body orderly again, or debris alone stands
up to its `END` and behind it. The rest may be debris. -/
inductive Orderly : List Kind → List Symbol → Prop where
  | debris {closers : List Kind} {word : List Symbol} : Debris closers word → Orderly closers word
  /-- A whole statement. -/
  | statement {closers : List Kind} {u v : List Symbol} {s : Statement} :
      Derives .statement u s → v = [] ∨ headKind v ∈ Rule.afterStatement s → Orderly closers v →
      Orderly closers (u ++ v)
  | branch {closers : List Kind} {l l' : String} {u v w : List Symbol} :
      Headed .kwThen u v → Orderly thenEnd v → Orderly closers w →
      Orderly closers (⟨.kwIf, l⟩ :: (u ++ ⟨.kwEnd, l'⟩ :: w))
  | branchElse {closers : List Kind} {l l' l'' : String} {u v v' w : List Symbol} :
      Headed .kwThen u v → Orderly thenEnd v → Orderly sequenceEnd v' → Orderly closers w →
      Orderly closers (⟨.kwIf, l⟩ :: (u ++ ⟨.kwElse, l'⟩ :: (v' ++ ⟨.kwEnd, l''⟩ :: w)))
  | loop {closers : List Kind} {l l' : String} {u v w : List Symbol} :
      Headed .kwDo u v → Orderly sequenceEnd v → Orderly closers w →
      Orderly closers (⟨.kwWhile, l⟩ :: (u ++ ⟨.kwEnd, l'⟩ :: w))
  /-- Anything may be wrong with a statement that nests no other one, if debris follows it. -/
  | garbled {closers : List Kind} {k : Kind} {l l' : String} {v w : List Symbol} :
      k ∈ [.kwIf, .kwWhile] → Debris sequenceEnd v → Debris closers w →
      Orderly closers (⟨k, l⟩ :: (v ++ ⟨.kwEnd, l'⟩ :: w))

theorem Orderly.mono {closers closers' : List Kind} {word : List Symbol} (h : Orderly closers word)
    (hsub : closers' ⊆ closers) : Orderly closers' word := by
  induction h with
  | debris h => exact .debris (h.mono hsub)
  | statement hs hafter _ ih => exact .statement hs hafter (ih hsub)
  | branch hu hv _ _ ih => exact .branch hu hv (ih hsub)
  | branchElse hu hv hv' _ _ _ ih => exact .branchElse hu hv hv' (ih hsub)
  | loop hu hv _ _ ih => exact .loop hu hv (ih hsub)
  | garbled hk hv hw => exact .garbled hk hv (hw.mono hsub)

namespace Rule

variable {closers : List Kind} {i : Nat} {u v w word : List Symbol}

theorem headKind_of_orderly (h : Orderly closers word) :
    headKind word ∈ statementStart ∨ Debris closers word := by
  cases h with
  | debris h => exact .inr h
  | statement hs =>
    have hstart := headKind_of_derives_statement hs
    refine .inl ?_
    rwa [headKind_append_of_ne fun he => by simp [he, statementStart] at hstart]
  | branch | branchElse | loop => exact .inl (by simp [statementStart])
  | garbled hk => exact .inl ((by decide : [.kwIf, .kwWhile] ⊆ statementStart) hk)

theorem eof_not_mem_afterStatement (s : Statement) : .eof ∉ afterStatement s := by
  unfold afterStatement
  split <;> decide

/-- A statement is found, and an orderly word follows it. -/
theorem fills_orderly (h : Closing closers) {s : Statement} {rs : List Report}
    (hs : ∀ rest, headKind rest ∈ .semicolon :: closers →
      statement.attempt.run ⟨u ++ (v ++ rest), i⟩ = ⟨some s, ⟨v ++ rest, i + u.length⟩, rs⟩)
    (hbounds : Within i (i + u.length) rs) (hv : Orderly closers v)
    (hfills : ∀ j, Fills closers j v) : Fills closers i (u ++ v) :=
  fills_of_found h hbounds hs (continues_of_fills h (hfills _) (headKind_of_orderly hv))

/-- A statement that ends with its word, and an orderly word behind it. -/
theorem Ends.fills_orderly (h : Closing closers) {s : Statement} (hends : Ends i u (some s))
    (hv : Orderly closers v) (hfills : ∀ j, Fills closers j v) : Fills closers i (u ++ v) := by
  obtain ⟨rs, hbounds, hrun⟩ := hends
  exact Rule.fills_orderly h (fun rest _ => hrun (v ++ rest)) hbounds hv hfills

theorem fills_of_orderly {closers : List Kind} (h : Closing closers) (i : Nat)
    (hword : Orderly closers word) : Fills closers i word := by
  induction hword generalizing i with
  | debris hword => exact fills_of_debris h i _ hword
  | @statement closers u v s hs hafter hv ihv =>
    refine fills_orderly (s := s) h (fun rest hrest => ?_) (.nil _ _) hv (ihv h)
    refine (readsPhrase_of_derives hs).readsAt i (v ++ rest) ?_
    rcases hafter with rfl | hafter
    · exact h.semicolon_after s hrest
    · rwa [headKind_append_of_ne fun he => eof_not_mem_afterStatement s (he ▸ hafter)]
  | @branch closers l l' u v w hu _ hw ihv ihw =>
    obtain ⟨e, hcond⟩ := conditionAt_headed (by decide) hu .ifStatement (i + 1)
      (by simp [statementStops] : headKind [⟨.kwEnd, l'⟩] ∈ statementStops)
    obtain ⟨ss, hends⟩ := ends_branch l hcond (ihv closing_thenEnd)
    simpa using hends.fills_orderly h hw (ihw h)
  | @branchElse closers l l' l'' u v v' w hu _ _ hw ihv ihv' ihw =>
    obtain ⟨e, hcond⟩ := conditionAt_headed (by decide) hu .ifStatement (i + 1)
      (by simp [statementStops] :
        headKind (⟨.kwElse, l'⟩ :: (v' ++ [⟨.kwEnd, l''⟩])) ∈ statementStops)
    obtain ⟨ss, ts, hends⟩ :=
      ends_branchElse l hcond (ihv closing_thenEnd) (ihv' closing_sequenceEnd)
    simpa using hends.fills_orderly h hw (ihw h)
  | @loop closers l l' u v w hu _ hw ihv ihw =>
    obtain ⟨e, hcond⟩ := conditionAt_headed (by decide) hu .whileStatement (i + 1)
      (by simp [statementStops] : headKind [⟨.kwEnd, l'⟩] ∈ statementStops)
    obtain ⟨ss, hends⟩ := ends_loop l hcond (ihv closing_sequenceEnd)
    simpa using hends.fills_orderly h hw (ihw h)
  | @garbled closers k l l' v w hk hv hw =>
    obtain ⟨found, hends⟩ : ∃ found, Ends i (⟨k, l⟩ :: (v ++ [⟨.kwEnd, l'⟩])) found := by
      rcases (by simpa using hk : k = .kwIf ∨ k = .kwWhile) with rfl | rfl
      · exact ends_garbled_branch i l l' hv
      · exact ends_garbled_loop i l l' hv
    simpa using hends.fills_debris h hw

end Rule

end ModSyntax
