import ModSyntax.Proofs.Reading.Word
import ModSyntax.Proofs.Steps.Basic

/-!
# The first report depends on what has been read

Two runs that begin on the same symbols do the same until they come to where the symbols differ.
So a first report that is made before that place is made on both (`Parser.StepsAt.alike`). Only a
dot looks one symbol further: a name goes on behind it if an identifier follows.
-/

namespace ModSyntax

/-- The cursors stand at one index before `stop`, and the same symbols stand there up to `stop`.
What follows may differ; but where the last of the common symbols is a dot, an identifier follows it
for the second cursor only if one does for the first. -/
inductive Cursor.Alike (stop : Nat) : Cursor → Cursor → Prop where
  | mk {s : Symbol} {common rest rest' : List Symbol} {index : Nat}
      (hstop : index + common.length + 1 = stop)
      (hdot : ((s :: common).getLast (List.cons_ne_nil s common)).kind = .period →
        headKind rest' = .identifier → headKind rest = .identifier) :
      Alike stop ⟨s :: (common ++ rest), index⟩ ⟨s :: (common ++ rest'), index⟩

namespace Cursor.Alike

variable {stop : Nat} {c d : Cursor}

theorem kind_eq (h : Alike stop c d) : c.kind = d.kind := by
  cases h
  rfl

theorem lexeme_eq (h : Alike stop c d) : c.lexeme = d.lexeme := by
  cases h
  rfl

theorem index_eq (h : Alike stop c d) : c.index = d.index := by
  cases h
  rfl

theorem next (h : Alike stop c d) (hlt : c.next.index < stop) : Alike stop c.next d.next := by
  cases h with
  | @mk s common rest rest' index hstop hdot =>
    simp only [next_cons] at hlt ⊢
    cases common with
    | nil => simp at hstop; omega
    | cons t common => exact .mk (by simp at hstop; omega) hdot

/-- Words that are the same up to a symbol are so for every run on them. -/
theorem of_append (w : List Symbol) {t : Symbol} {rest rest' : List Symbol}
    (hdot : t.kind = .period → headKind rest' = .identifier → headKind rest = .identifier) :
    Alike (w.length + 1) (.start (w ++ t :: rest)) (.start (w ++ t :: rest')) := by
  cases w with
  | nil => exact @mk _ t [] rest rest' 0 rfl hdot
  | cons s w =>
    have hlast : ((s :: (w ++ [t])).getLast (List.cons_ne_nil s _)) = t := by
      rw [List.getLast_cons (by simp), List.getLast_concat]
    have halike : Alike ((s :: w).length + 1) ⟨s :: (w ++ [t] ++ rest), 0⟩
        ⟨s :: (w ++ [t] ++ rest'), 0⟩ := .mk (by simp) (by rwa [hlast])
    simpa [start] using halike

/-- The search for a symbol goes through the same symbols. -/
theorem skipUntil (h : Alike stop c d) (kinds : List Kind)
    (hlt : (c.skipUntil kinds).index < stop) :
    Alike stop (c.skipUntil kinds) (d.skipUntil kinds) := by
  cases h with
  | @mk s common rest rest' index hstop hdot =>
    induction common generalizing s index with
    | nil =>
      by_cases hs : s.kind ∈ kinds
      · rw [skipUntil_of_mem (by simpa using hs), skipUntil_of_mem (by simpa using hs)]
        exact .mk hstop hdot
      · simp [Cursor.skipUntil, drop, hs] at hlt hstop
        omega
    | cons t common ih =>
      by_cases hs : s.kind ∈ kinds
      · rw [skipUntil_of_mem (by simpa using hs), skipUntil_of_mem (by simpa using hs)]
        exact .mk hstop hdot
      · rw [skipUntil_cons hs] at hlt ⊢
        rw [skipUntil_cons hs]
        exact ih (by simp at hstop; omega) hdot hlt

end Cursor.Alike

/-- What happens before `stop` happens on both runs: a first report is made on both, and a run
without one ends on both with the same value at cursors that are alike. -/
structure Outcome.AlikeBefore {α : Type} (stop : Nat) (o o' : Outcome α) : Prop where
  first : ∀ r, o.reports.head? = some r → r.index < stop → o'.reports.head? = some r
  clean : o.reports = [] → o.next.index < stop →
    o'.value = o.value ∧ o'.reports = [] ∧ Cursor.Alike stop o.next o'.next

namespace Parser

variable {α : Type} {stop : Nat} {c d : Cursor}

theorem alikeBefore_dot (h : Cursor.Alike stop c d) :
    (Rule.dot.run c).AlikeBefore stop (Rule.dot.run d) := by
  refine ⟨fun r hr => by simp [reports_dot] at hr, fun _ hlt => ?_⟩
  have hkind := h.kind_eq
  have hnext := h.next
  by_cases hdot : c.kind = .period ∧ c.secondKind = .identifier
  · have hlt : c.next.index < stop := by simpa [Rule.dot, hdot] using hlt
    have hsecond : d.secondKind = .identifier := by
      cases h with
      | @mk s common rest rest' index hstop _ =>
        cases common with
        | nil => simp at hlt hstop; omega
        | cons t common => simpa using hdot.2
    simpa [Rule.dot, hdot, ← hkind, hsecond] using hnext hlt
  · have hsecond : c.kind = .period → d.secondKind ≠ .identifier := by
      intro hperiod hd
      refine hdot ⟨hperiod, ?_⟩
      cases h with
      | @mk s common rest rest' index hstop hlook =>
        cases common with
        | nil => simpa using hlook hperiod (by simpa using hd)
        | cons t common => simpa using hd
    have hdot' : ¬(d.kind = .period ∧ d.secondKind = .identifier) :=
      fun hd => hsecond (hkind.trans hd.1) hd.2
    simpa [Rule.dot, hdot, hdot'] using h

/-- A run goes on in the same way as long as the symbols are the same. -/
theorem StepsAt.alike {p : Parser α} (h : p.StepsAt c) (hd : Cursor.Alike stop c d) :
    (p.run c).AlikeBefore stop (p.run d) := by
  induction h generalizing d with
  | pure a c => exact ⟨by simp, fun _ _ => ⟨rfl, rfl, hd⟩⟩
  | @bind _ _ p f c hp hf ihp ihf =>
    have hfirst := ihp hd
    -- Without a report of the first parser before `stop`, the second begins at alike cursors.
    have hsecond : (p.run c).reports = [] → (p.run c).next.index < stop →
        (p.run d).reports = [] ∧ ((f (p.run c).value).run (p.run c).next).AlikeBefore stop
          ((f (p.run d).value).run (p.run d).next) := by
      intro hnil hlt
      obtain ⟨hvalue, hreports, halike⟩ := hfirst.clean hnil hlt
      exact ⟨hreports, hvalue ▸ ihf halike⟩
    constructor
    · intro r hr hlt
      simp only [run_bind, List.head?_append] at hr ⊢
      cases hhead : (p.run c).reports.head? with
      | some s =>
        obtain rfl : s = r := by simpa [hhead] using hr
        simp [hfirst.first s hhead hlt]
      | none =>
        have hnil := List.head?_eq_none_iff.1 hhead
        have hr : ((f (p.run c).value).run (p.run c).next).reports.head? = some r := by
          simpa [hhead] using hr
        have hle := (hf.index_mem r (List.mem_of_head? hr)).1
        obtain ⟨hreports, halike⟩ := hsecond hnil (by omega)
        simp [hreports, halike.first r hr hlt]
    · intro hnil hlt
      obtain ⟨hnil, hnil'⟩ := List.append_eq_nil_iff.1 hnil
      have hle := ((f (p.run c).value).forward (p.run c).next).index_le
      change ((f (p.run c).value).run (p.run c).next).next.index < stop at hlt
      obtain ⟨hreports, halike⟩ := hsecond hnil (by omega)
      obtain ⟨hvalue, hreports', hnext⟩ := halike.clean hnil' hlt
      exact ⟨hvalue, by simp [hreports, hreports'], hnext⟩
  | kind c => exact ⟨by simp, fun _ _ => ⟨hd.kind_eq.symm, rfl, hd⟩⟩
  | lexeme c => exact ⟨by simp, fun _ _ => ⟨hd.lexeme_eq.symm, rfl, hd⟩⟩
  | dot c => exact alikeBefore_dot hd
  | skip c => exact ⟨by simp, fun _ hlt => ⟨rfl, rfl, hd.next hlt⟩⟩
  | skipUntil kinds c => exact ⟨by simp, fun _ hlt => ⟨rfl, rfl, hd.skipUntil kinds hlt⟩⟩
  | report _ => exact ⟨by simp [hd.index_eq], by simp⟩
  | @limit _ p c q hq _ ih =>
    have hc := hq (c.rest.length + d.rest.length + 1) c (by omega)
    have hd' := hq (c.rest.length + d.rest.length + 1) d (by omega)
    rw [hc, hd']
    exact ih _ hd

end Parser

end ModSyntax
