import ModSyntax.Proofs.Reading.Confined
import ModSyntax.Proofs.Reading.Resume

/-!
# Damaged entries

What stands where an entry of a section belongs is read as some entries of the section, if it begins
with an identifier and no other declaration begins in it (`takesEntries_of_damaged`). The semicolon
of the entry is found, whatever is wrong before it, and the entries behind it are read as before.
-/

namespace ModSyntax

namespace Rule

open ModSyntax.Parser

variable {stops : Stops} {sec : Section} {i : Nat} {u v word : List Symbol}

/-! ## Single entries -/

theorem confined_identifierList (rule : Construct) : (identifierList rule).Confined stops := by
  have hident : (identifier rule).Confined stops := confined_expect (by decide) rule
  exact hident.bind fun _ => (confined_chain takes_comma (confined_operator (by decide))
    hident).bind fun _ => confined_pure _

theorem confined_entry (sec : Section) : sec.entry.Confined stops := by
  cases sec with
  | constants =>
    exact (confined_expect (by decide) _).bind fun _ => (confined_discard_expect (by decide) _).bind
      fun _ => confined_expr.bind fun _ => confined_pure _
  | vars =>
    exact (confined_identifierList _).bind fun _ => (confined_discard_expect (by decide) _).bind
      fun _ => (confined_qualifiedName _).bind fun _ => confined_pure _

/-- Every value of the rule has the property. -/
def Gives {α : Type} (P : α → Prop) (r : Rule α) : Prop :=
  ∀ c, ∀ a ∈ (r.attempt.run c).value, P a

theorem Gives.bind {α β : Type} {P : β → Prop} (r : Rule α) {f : α → Rule β}
    (h : ∀ a, (f a).Gives P) : (r >>= f).Gives P := by
  intro c b hb
  simp only [attempt_bind, run_bind] at hb
  cases hv : (r.attempt.run c).value with
  | none => simp [hv] at hb
  | some a =>
    rw [hv] at hb
    exact h a _ b hb

theorem gives_pure {α : Type} {P : α → Prop} {a : α} (h : P a) : (pure a : Rule α).Gives P := by
  intro c b hb
  obtain rfl : a = b := by simpa using hb
  exact h

/-- What the rule of a section gives is an entry of that section. -/
theorem gives_entry (sec : Section) : sec.entry.Gives (·.section? = some sec) := by
  cases sec with
  | constants => exact .bind _ fun _ => .bind _ fun _ => .bind _ fun _ => gives_pure rfl
  | vars => exact .bind _ fun _ => .bind _ fun _ => .bind _ fun _ => gives_pure rfl

/-! ## The place of an entry -/

/-- The parser reads the word, with a semicolon behind it, as some entries of the section, and goes
on with the entries behind it. The reports are about the symbols of the word or the semicolon. -/
def TakesEntries (sec : Section) (p : Parser (List Declaration)) (index : Nat)
    (word : List Symbol) : Prop :=
  ∃ ds reports, (∀ d ∈ ds, d.section? = some sec) ∧ Within index (index + word.length) reports ∧
    ∀ l rest, p.run ⟨word ++ ⟨.semicolon, l⟩ :: rest, index⟩ =
      (sec.entries.run ⟨rest, index + word.length + 1⟩).behind ds reports

/-- What a section does behind one of its entries. -/
def entriesTail (sec : Section) : Parser (List Declaration) := do
  endEntry sec.rule
  sec.entries

theorem takesEntries_nil (sec : Section) (i : Nat) : TakesEntries sec (entriesTail sec) i [] :=
  ⟨[], [], by simp, .nil _ _, fun l rest => by simp [entriesTail, endEntry, Outcome.behind]⟩

/-- In front of another entry, a semicolon is missing. -/
theorem TakesEntries.missing (h : TakesEntries sec sec.entries i word)
    (hhead : headKind word = .identifier) : TakesEntries sec (entriesTail sec) i word := by
  obtain ⟨ds, rs, hds, hbounds, hrun⟩ := h
  refine ⟨ds, ⟨i, .unexpected sec.rule [.semicolon]⟩ :: rs, hds,
    .cons (Nat.le_refl i) (Nat.le_add_right i _) hbounds, fun l rest => ?_⟩
  have hkind : headKind (word ++ ⟨.semicolon, l⟩ :: rest) = .identifier := by
    rw [headKind_append_of_ne (by simp [hhead]), hhead]
  simp [entriesTail, endEntry, hkind, hrun, Outcome.behind]

/-- What begins no entry is left with the semicolon. -/
theorem takesEntries_skipped {s : Symbol} (hs : s.kind ≠ .identifier)
    (hword : ∀ t ∈ s :: word, t.kind ∉ declarationSync) :
    TakesEntries sec (entriesTail sec) i (s :: word) := by
  refine ⟨[], [⟨i, .unexpected sec.rule [.semicolon]⟩], by simp,
    .cons (Nat.le_refl i) (Nat.le_add_right i _) (.nil _ _), fun l rest => ?_⟩
  have hsync := hword s List.mem_cons_self
  have hsemi : s.kind ≠ .semicolon := fun hk => hsync (by simp [hk, declarationSync])
  have hleave := run_leaveDeclaration l hword rest i
  rw [List.cons_append] at hleave
  simp [entriesTail, endEntry, hs, hsemi, hsync, hleave, Outcome.behind]

section

variable {rs : List Report} (hbounds : Within i (i + u.length) rs)
  (hstart : ∀ l rest, headKind (u ++ (v ++ ⟨.semicolon, l⟩ :: rest)) = .identifier)
include hbounds hstart

/-- An entry is found, and a word follows it. -/
theorem takesEntries_found {d : Declaration} (hd : d.section? = some sec)
    (hu : ∀ l rest, sec.entry.attempt.run ⟨u ++ (v ++ ⟨.semicolon, l⟩ :: rest), i⟩ =
      ⟨some d, ⟨v ++ ⟨.semicolon, l⟩ :: rest, i + u.length⟩, rs⟩)
    (hv : TakesEntries sec (entriesTail sec) (i + u.length) v) :
    TakesEntries sec sec.entries i (u ++ v) := by
  obtain ⟨ds, rs', hds, hbounds', hrun⟩ := hv
  refine ⟨d :: ds, rs ++ rs', List.forall_mem_cons.2 ⟨hd, hds⟩, ?_, fun l rest => ?_⟩
  · rw [List.length_append, ← Nat.add_assoc]
    exact (hbounds.mono (Nat.le_refl _) (Nat.le_add_right _ _)).append
      (hbounds'.mono (Nat.le_add_right _ _) (Nat.le_refl _))
  · have hstep : sec.entries.run ⟨u ++ (v ++ ⟨.semicolon, l⟩ :: rest), i⟩ =
        ((entriesTail sec).run ⟨v ++ ⟨.semicolon, l⟩ :: rest, i + u.length⟩).behind [d] rs := by
      rw [sec.run_entries, entriesStep, run_kind_bind, Cursor.kind_mk, if_pos (hstart l rest),
        run_bind, hu]
      simp [entriesTail, Outcome.behind]
    rw [List.append_assoc, hstep, hrun, List.length_append, ← Nat.add_assoc]
    simp [Outcome.behind]

/-- An entry is broken, and what is left of it is skipped. -/
theorem takesEntries_broken
    (hu : ∀ l rest, sec.entry.attempt.run ⟨u ++ (v ++ ⟨.semicolon, l⟩ :: rest), i⟩ =
      ⟨none, ⟨v ++ ⟨.semicolon, l⟩ :: rest, i + u.length⟩, rs⟩)
    (hv : ∀ s ∈ v, s.kind ∉ declarationSync) : TakesEntries sec sec.entries i (u ++ v) := by
  refine ⟨[], rs, by simp, ?_, fun l rest => ?_⟩
  · rw [List.length_append, ← Nat.add_assoc]
    exact hbounds.mono (Nat.le_refl _) (Nat.le_add_right _ _)
  · rw [List.append_assoc, sec.run_entries, entriesStep, run_kind_bind, Cursor.kind_mk,
      if_pos (hstart l rest), run_bind, hu]
    simp [run_leaveDeclaration l hv, Outcome.behind, Nat.add_assoc]

end

/-- What stands where an entry belongs is read as some entries of the section. -/
theorem takesEntries_of_damaged (sec : Section) (i : Nat) (word : List Symbol)
    (hhead : headKind word = .identifier) (hword : ∀ s ∈ word, s.kind ∉ declarationSync) :
    TakesEntries sec sec.entries i word := by
  have hfree : StopFree .semicolon word := fun s hs hk =>
    hword s hs ((by decide : Stops.semicolon.kinds ⊆ declarationSync) hk)
  obtain ⟨taken, left, found, rs, rfl, hbounds, hrun⟩ := confined_entry sec i word hfree
  have hleft : ∀ s ∈ left, s.kind ∉ declarationSync := fun s hs =>
    hword s (List.mem_append_right _ hs)
  have hattempt (l : String) (rest : List Symbol) :
      sec.entry.attempt.run ⟨taken ++ (left ++ ⟨.semicolon, l⟩ :: rest), i⟩ =
        ⟨found, ⟨left ++ ⟨.semicolon, l⟩ :: rest, i + taken.length⟩, rs⟩ := by
    rw [← List.append_assoc]
    exact hrun _ Stops.semicolon.semicolon_mem
  have hstart (l : String) (rest : List Symbol) :
      headKind (taken ++ (left ++ ⟨.semicolon, l⟩ :: rest)) = .identifier := by
    rw [← List.append_assoc, headKind_append_of_ne (by simp [hhead]), hhead]
  cases found with
  | none => exact takesEntries_broken hbounds hstart hattempt hleft
  | some d =>
    have hd : d.section? = some sec :=
      gives_entry sec ⟨taken ++ (left ++ [⟨.semicolon, ""⟩]), i⟩ d (by simp [hattempt])
    -- An entry takes at least its first identifier, so what it leaves is shorter.
    have hlt : left.length < (taken ++ left).length := by
      have henters := sec.enters_entry ⟨taken ++ (left ++ [⟨.semicolon, ""⟩]), i⟩
        (by simpa using hstart "" [])
      rw [hattempt] at henters
      simpa using henters
    refine takesEntries_found hbounds hstart hd hattempt ?_
    cases left with
    | nil => exact takesEntries_nil sec _
    | cons s left =>
      by_cases hs : s.kind = .identifier
      · exact (takesEntries_of_damaged sec _ (s :: left) hs hleft).missing hs
      · exact takesEntries_skipped hs hleft
termination_by word.length

/-- The same, in the words of `Parser.ResumesAt`. -/
theorem TakesEntries.resumesAt (h : TakesEntries sec sec.entries i word) (l : String) :
    ∃ ds reports, (∀ d ∈ ds, d.section? = some sec) ∧ Within i (i + word.length) reports ∧
      sec.entries.ResumesAt i (word ++ [⟨.semicolon, l⟩]) ds reports Kind.all := by
  obtain ⟨ds, rs, hds, hbounds, hrun⟩ := h
  refine ⟨ds, rs, hds, hbounds, fun rest _ => ?_⟩
  rw [List.append_assoc, List.singleton_append, hrun, List.length_append, ← Nat.add_assoc]
  rfl

end Rule

end ModSyntax
