import ModSyntax.Proofs.Reading.Confined
import ModSyntax.Proofs.Reading.Slots

/-!
# Debris in the place of a statement

Where a statement belongs, any symbols that neither part, close nor nest statements are read as some
statements: what cannot be read is skipped, and what follows the symbols is read as what follows a
statement (`fills_of_debris`).
-/

namespace ModSyntax

open ModSyntax.Parser

/-- No symbol of the word parts the statements of a sequence, closes them, or nests statements. -/
def Debris (closers : List Kind) (word : List Symbol) : Prop :=
  ∀ s ∈ word, s.kind ∉ [.semicolon, .kwIf, .kwWhile, .eof] ++ closers

instance (closers : List Kind) (word : List Symbol) : Decidable (Debris closers word) :=
  inferInstanceAs (Decidable (∀ s ∈ word, _))

namespace Debris

variable {closers : List Kind} {u v word : List Symbol}

theorem right (h : Debris closers (u ++ v)) : Debris closers v :=
  fun s hs => h s (List.mem_append_right u hs)

/-- Fewer symbols close another sequence. -/
theorem mono {closers' : List Kind} (h : Debris closers word) (hsub : closers' ⊆ closers) :
    Debris closers' word := by
  intro s hs hk
  refine h s hs ?_
  rcases List.mem_append.1 hk with hk | hk
  · exact List.mem_append_left _ hk
  · exact List.mem_append_right _ (hsub hk)

/-- Up to its first `ELSE`, if there is one, debris is debris behind a `THEN`, too. -/
theorem split_else (h : Debris sequenceEnd word) :
    Debris thenEnd word ∨ ∃ v l w, word = v ++ ⟨.kwElse, l⟩ :: w ∧ Debris thenEnd v ∧
      Debris sequenceEnd w := by
  have hnil : Debris thenEnd [] := fun s hs => nomatch hs
  induction word with
  | nil => exact .inl hnil
  | cons s word ih =>
    obtain ⟨hs, hword⟩ := List.forall_mem_cons.1 h
    by_cases helse : s.kind = .kwElse
    · exact .inr ⟨[], s.lexeme, word, by simp [← helse], hnil, hword⟩
    · have hs : s.kind ∉ [Kind.semicolon, .kwIf, .kwWhile, .eof] ++ thenEnd := by
        simpa [thenEnd, sequenceEnd, helse] using hs
      rcases ih hword with hword | ⟨v, l, w, rfl, hv, hw⟩
      · exact .inl (List.forall_mem_cons.2 ⟨hs, hword⟩)
      · exact .inr ⟨s :: v, l, w, rfl, List.forall_mem_cons.2 ⟨hs, hv⟩, hw⟩

end Debris

namespace Rule

variable {closers : List Kind} {i : Nat} {u v w word : List Symbol}

/-- What parts and closes the statements of a sequence. -/
def Closing.stops (h : Closing closers) : Stops where
  kinds := .semicolon :: closers
  semicolon_mem := List.mem_cons_self
  subset := by
    refine List.cons_subset.2 ⟨by decide, fun k hk => ?_⟩
    rcases h k hk with rfl | rfl <;> decide

theorem Closing.stopFree (h : Closing closers) (hword : Debris closers word) :
    StopFree h.stops word := by
  intro s hs hk
  refine hword s hs ?_
  rcases List.mem_cons.1 hk with hk | hk
  · simp [hk]
  · exact List.mem_append_right _ hk

theorem Closing.subset_thenEnd (h : Closing closers) : closers ⊆ thenEnd := by
  intro k hk
  rcases h k hk with rfl | rfl <;> decide

/-- A statement that is read from debris is made of a part of it. -/
theorem confinedAt_statement (h : Closing closers) (hword : Debris closers word) :
    statement.ConfinedAt h.stops i word := by
  have hfree := h.stopFree hword
  rw [statement_eq]
  cases word with
  | nil =>
    refine confinedAt_kind_bind_nil (fun k hk => ?_)
      (confined_unexpected_fail .statement statementStart i [] hfree)
    rcases (by simpa [statementStops] using hk) with rfl | rfl | rfl <;> rfl
  | cons s word =>
    have hkind := hword s (by simp)
    refine confinedAt_kind_bind_cons ?_
    split
    · exact confined_designator i _ hfree
    · next hk => exact absurd hk fun hk => hkind (by simp [hk])
    · next hk => exact absurd hk fun hk => hkind (by simp [hk])
    · exact confinedAt_leave s hfree
    · exact confined_unexpected_fail _ _ i _ hfree

/-! ## What follows a statement -/

/-- Where a statement of the sequence belongs, the word is read as some statements. The reports on
it are about its symbols or the one behind it. -/
def Fills (closers : List Kind) (index : Nat) (word : List Symbol) : Prop :=
  ∃ ss reports, Within index (index + word.length) reports ∧ FillsAt closers index word ss reports

/-- Behind a statement of the sequence, the word is read as some more statements. -/
def Continues (closers : List Kind) (index : Nat) (word : List Symbol) : Prop :=
  ∃ ss reports, Within index (index + word.length) reports ∧
    ∀ rest, headKind rest ∈ .semicolon :: closers →
      (sequenceTail closers).run ⟨word ++ rest, index⟩ =
        ((sequenceTail closers).run ⟨rest, index + word.length⟩).behind ss reports

theorem continues_nil (closers : List Kind) (i : Nat) : Continues closers i [] :=
  ⟨[], [], .nil _ _, fun _ _ => rfl⟩

/-- In front of another statement, a semicolon is missing. -/
theorem Fills.continues (h : Fills closers i word) (hstart : headKind word ∈ statementStart) :
    Continues closers i word := by
  obtain ⟨ss, rs, hbounds, hfills⟩ := h
  refine ⟨ss, ⟨i, .unexpected .statementSequence [.semicolon]⟩ :: rs, ?_, fun rest hrest => ?_⟩
  · exact .cons (Nat.le_refl i) (Nat.le_add_right i _) hbounds
  · have hhead : headKind (word ++ rest) ∈ statementStart := by
      rwa [headKind_append_of_ne fun he => by simp [he, statementStart] at hstart]
    have hsep := readsAt_separator_missing closers i (word ++ rest) hhead
    rw [List.nil_append] at hsep
    simp [sequenceTail, hsep, hfills rest hrest, Outcome.behind]

/-- Where the place of a statement ends, only a semicolon is looked for. -/
theorem run_separator_end (h : Closing closers) {rest : List Symbol}
    (hrest : headKind rest ∈ .semicolon :: closers) (i : Nat) :
    (separator closers).run ⟨rest, i⟩ = (accept .semicolon).run ⟨rest, i⟩ := by
  rcases List.mem_cons.1 hrest with hk | hk
  · simp [separator, hk]
  · have hsep := reads_separator_nil h rest i hk
    have hsemi : headKind rest ≠ .semicolon := by
      rcases h _ hk with hk | hk <;> simp [hk]
    rw [List.nil_append] at hsep
    simp [hsep, hsemi]

/-- What neither parts, begins nor closes statements is skipped with the word behind it, up to the
next symbol that parts or closes them. -/
theorem run_sequenceTail_stray (h : Closing closers) {t : Symbol} {rest : List Symbol}
    (hstray : t.kind ∉ [Kind.semicolon, .eof] ++ statementStart ++ closers)
    (hword : StopFree h.stops word) (hrest : headKind rest ∈ .semicolon :: closers) (i : Nat) :
    (sequenceTail closers).run ⟨t :: (word ++ rest), i⟩ =
      ((sequenceTail closers).run ⟨rest, i + (t :: word).length⟩).behind []
        [⟨i, .unexpected .statementSequence (.semicolon :: closers)⟩] := by
  obtain ⟨hsemi, heof, hstart, hclosers⟩ : t.kind ≠ .semicolon ∧ t.kind ≠ .eof ∧
      t.kind ∉ statementStart ∧ t.kind ∉ closers := by
    simpa using hstray
  have hskip : Cursor.skipUntil ⟨word ++ rest, i + 1⟩ (.semicolon :: closers) =
      ⟨rest, i + 1 + word.length⟩ := Cursor.skipUntil_past hword hrest (i + 1)
  have hlength : i + 1 + word.length = i + (t :: word).length := by simp; omega
  have hsep : (separator closers).run ⟨t :: (word ++ rest), i⟩ =
      ⟨((accept .semicolon).run ⟨rest, i + (t :: word).length⟩).value,
        ((accept .semicolon).run ⟨rest, i + (t :: word).length⟩).next,
        [⟨i, .unexpected .statementSequence (.semicolon :: closers)⟩]⟩ := by
    rw [← hlength]
    simp [separator, hsemi, hstart, heof, hclosers, hskip]
  rw [sequenceTail, run_bind, run_bind, hsep, run_separator_end h hrest, run_accept]
  rfl

/-- What begins no statement is skipped with the debris behind it. -/
theorem continues_of_debris (h : Closing closers) (hword : Debris closers word)
    (hstart : headKind word ∉ statementStart) : Continues closers i word := by
  cases word with
  | nil => exact continues_nil closers i
  | cons t word =>
    refine ⟨[], [⟨i, .unexpected .statementSequence (.semicolon :: closers)⟩],
      .cons (Nat.le_refl i) (Nat.le_add_right i _) (.nil _ _), fun rest hrest => ?_⟩
    refine run_sequenceTail_stray h ?_ (h.stopFree (hword.right (u := [t]))) hrest i
    have hstart : t.kind ∉ statementStart := hstart
    simp_all [Debris]

theorem continues_of_fills (h : Closing closers) (hfills : Fills closers i word)
    (hword : headKind word ∈ statementStart ∨ Debris closers word) : Continues closers i word := by
  by_cases hstart : headKind word ∈ statementStart
  · exact hfills.continues hstart
  · exact continues_of_debris h (hword.resolve_left hstart) hstart

/-! ## A statement and what follows it -/

/-- A broken statement is read as nothing, with what is left of it. -/
theorem fillsAt_of_broken (h : Closing closers) {rs : List Report}
    (hs : ∀ rest, headKind rest ∈ .semicolon :: closers →
      statement.attempt.run ⟨u ++ (v ++ rest), i⟩ = ⟨none, ⟨v ++ rest, i + u.length⟩, rs⟩)
    (hv : ∀ s ∈ v, s.kind ∉ .semicolon :: closers) : FillsAt closers i (u ++ v) [] rs := by
  intro rest hrest
  have hbroken : (statement.orSkipUntil (.semicolon :: closers)).run ⟨u ++ (v ++ rest), i⟩ =
      ⟨none, ⟨rest, i + u.length + v.length⟩, rs⟩ := by
    have hskip : Cursor.skipUntil ⟨v ++ rest, i + u.length⟩ (.semicolon :: closers) =
        ⟨rest, i + u.length + v.length⟩ := Cursor.skipUntil_past hv hrest _
    simp [orSkipUntil, hs rest hrest, hskip]
  rw [List.append_assoc, run_sequence h hbroken, List.length_append, ← Nat.add_assoc]
  rfl

section

variable {rs : List Report} (h : Closing closers) (hbounds : Within i (i + u.length) rs)
include h hbounds

/-- A statement is found, and a word follows it. -/
theorem fills_of_found {s : Statement}
    (hs : ∀ rest, headKind rest ∈ .semicolon :: closers →
      statement.attempt.run ⟨u ++ (v ++ rest), i⟩ = ⟨some s, ⟨v ++ rest, i + u.length⟩, rs⟩)
    (hv : Continues closers (i + u.length) v) : Fills closers i (u ++ v) := by
  obtain ⟨ss, rs', hbounds', hrun⟩ := hv
  refine ⟨s :: ss, rs ++ rs', ?_, fun rest hrest => ?_⟩
  · rw [List.length_append, ← Nat.add_assoc]
    exact (hbounds.mono (Nat.le_refl _) (Nat.le_add_right _ _)).append
      (hbounds'.mono (Nat.le_add_right _ _) (Nat.le_refl _))
  · have hfound : (statement.orSkipUntil (.semicolon :: closers)).run ⟨u ++ (v ++ rest), i⟩ =
        ⟨some s, ⟨v ++ rest, i + u.length⟩, rs⟩ := by simp [orSkipUntil, hs rest hrest]
    rw [List.append_assoc, run_sequence h hfound, hrun rest hrest, List.length_append,
      ← Nat.add_assoc]
    simp [Outcome.behind]

/-- A statement is broken, and the debris behind it is skipped. -/
theorem fills_of_broken
    (hs : ∀ rest, headKind rest ∈ .semicolon :: closers →
      statement.attempt.run ⟨u ++ (v ++ rest), i⟩ = ⟨none, ⟨v ++ rest, i + u.length⟩, rs⟩)
    (hv : Debris closers v) : Fills closers i (u ++ v) := by
  refine ⟨[], rs, ?_, fillsAt_of_broken h hs (h.stopFree hv)⟩
  rw [List.length_append, ← Nat.add_assoc]
  exact hbounds.mono (Nat.le_refl _) (Nat.le_add_right _ _)

end

theorem fills_of_debris (h : Closing closers) (i : Nat) (word : List Symbol)
    (hword : Debris closers word) : Fills closers i word := by
  obtain ⟨taken, left, found, rs, hsplit, hbounds, hrun⟩ := confinedAt_statement (i := i) h hword
  subst hsplit
  simp only [List.append_assoc] at hrun
  cases found with
  | none => exact fills_of_broken h hbounds hrun hword.right
  | some s =>
    have hlt : left.length < (taken ++ left).length := by
      have htakes := takes_statement ⟨taken ++ (left ++ [⟨.semicolon, ""⟩]), i⟩
      rw [hrun _ List.mem_cons_self] at htakes
      simpa using htakes
    exact fills_of_found h hbounds hrun
      (continues_of_fills h (fills_of_debris h _ left hword.right) (.inr hword.right))
termination_by word.length

end Rule

end ModSyntax
