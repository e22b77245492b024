import ModSyntax.Proofs.Acceptance
import ModSyntax.Proofs.Steps.Locality
import ModSyntax.Proofs.Truthfulness

/-!
# The first report is made as early as can be

What stands before the first report begins a sentence, and with the token of the report this is no
longer so (`first_report_earliest`). The one exception is a dot: it belongs to a name only if an
identifier follows, so a dot that no name goes on with is reported where it stands.

That the tokens before the report begin a sentence is `Rule.follows_compilationUnit`. That nothing
goes on behind them is seen by comparing two runs: on a sentence that went on in the same way, the
same report would be made (`Parser.StepsAt.alike`), but on a sentence there is none.
-/

namespace ModSyntax

/-- The symbols begin a sentence. -/
def Viable (word : List Symbol) : Prop := ∃ rest m, Sentence (word ++ rest) m

/-- The symbols of the first `n` tokens; the end of input is one of them. -/
def symbolsBefore (ts : List Token) (n : Nat) : List Symbol :=
  ((terminated ts).take n).map Token.toSymbol

theorem symbolsBefore_add {ts before behind : List Token} (h : terminated ts = before ++ behind)
    (n : Nat) : symbolsBefore ts (before.length + n) =
      before.map Token.toSymbol ++ (behind.take n).map Token.toSymbol := by
  rw [symbolsBefore, h, List.take_length_add_append, List.map_append]

theorem Report.head?_firstPerSymbol (rs : List Report) :
    (firstPerSymbol rs).head? = rs.head? := by
  cases rs <;> rfl

/-- The first report stands behind symbols that begin a sentence. -/
theorem viable_before_report {word : List Symbol} {r : Report}
    (h : (Rule.compilationUnit.run (.start word)).reports.head? = some r) :
    ∃ w rest, word = w ++ rest ∧ r.index = w.length ∧ Viable w := by
  obtain ⟨w, rest, v, m, hw, hindex, hm⟩ :=
    (Rule.follows_compilationUnit.below (.start word) (Nat.lt_succ_self _)).begins r h
  exact ⟨w, rest, hw, hindex.trans (Nat.zero_add _), v, m, hm⟩

/-- A word on which the first report of another word is made as well is no sentence. -/
theorem not_sentence_of_alike {word word' : List Symbol} {r : Report} {stop : Nat}
    (h : (Rule.compilationUnit.run (.start word)).reports.head? = some r) (hr : r.index < stop)
    (halike : Cursor.Alike stop (.start word) (.start word')) (m : Module) : ¬Sentence word' m := by
  intro hm
  have hfirst := ((Rule.stepwise_compilationUnit (.start word)).alike halike).first r h hr
  simp [hm.run_eq] at hfirst

/-- Nothing goes on behind the symbol of a first report, unless that is a dot in front of which
another symbol decides. -/
theorem not_sentence_behind_report {w rest rest' : List Symbol} {t : Symbol} {r : Report}
    (h : (Rule.compilationUnit.run (.start (w ++ t :: rest))).reports.head? = some r)
    (hr : r.index = w.length)
    (hdot : t.kind = .period → headKind rest' = .identifier → headKind rest = .identifier)
    (m : Module) : ¬Sentence (w ++ t :: rest') m :=
  not_sentence_of_alike h (Nat.lt_succ_of_le (Nat.le_of_eq hr)) (.of_append w hdot) m

/-- The first report is made at the earliest token possible. The tokens before it begin a sentence;
the end of input is reported only where they are none; any other token only if no sentence goes on
with it, or if it is a dot, is not the last symbol of a sentence, and no sentence goes on with it
and the token behind it. -/
theorem first_report_earliest (ts : List Token) (h : (parseTokens ts).2 ≠ []) :
    ∃ r t, (TokenStream.ofTokens ts).parse.2.head? = some r ∧
      (terminated ts)[r.index]? = some t ∧
      Viable (symbolsBefore ts r.index) ∧
      (t.kind = .eof → ∀ m, ¬Sentence (symbolsBefore ts r.index) m) ∧
      (t.kind ≠ .eof → ¬Viable (symbolsBefore ts (r.index + 1)) ∨
        t.kind = .period ∧ (∀ m, ¬Sentence (symbolsBefore ts (r.index + 1)) m) ∧
          ¬Viable (symbolsBefore ts (r.index + 2))) := by
  have hne : (Rule.compilationUnit.run (.start (TokenStream.ofTokens ts).symbols)).reports ≠ [] :=
    fun hnil => h (Diagnostic.inSourceOrder_eq_nil_iff.2 (parserDiagnostics_eq_nil_iff.2 hnil))
  obtain ⟨r, hr⟩ := Option.isSome_iff_exists.1 (List.isSome_head?.2 hne)
  obtain ⟨w, rest, hword, hindex, hviable⟩ := viable_before_report hr
  obtain ⟨before, behind, hbody, rfl, rfl⟩ := List.map_eq_append_iff.1 hword
  obtain ⟨e, more, he, -, hts⟩ := terminated_eq_body ts
  rw [hbody, List.append_assoc] at hts
  rw [hword] at hr
  rw [List.length_map] at hindex
  have hhead : (TokenStream.ofTokens ts).parse.2.head? = some r := by
    rw [TokenStream.parse, Report.head?_firstPerSymbol, hword, hr]
  have hread : symbolsBefore ts r.index = before.map Token.toSymbol := by
    simpa [hindex] using symbolsBefore_add hts 0
  cases behind with
  | nil =>
    -- Everything has been read, so the report is made at the end of input.
    refine ⟨r, e, hhead, by simp [hts, hindex], hread ▸ hviable, fun _ m hm => ?_, (absurd he ·)⟩
    rw [List.map_nil, List.append_nil] at hr
    rw [hread] at hm
    simp [hm.run_eq] at hr
  | cons t behind =>
    have ht : t.kind ≠ .eof := by
      refine TokenStream.kind_ne_eof ts t.toSymbol ?_
      rw [hword]
      simp
    have hread₁ : symbolsBefore ts (r.index + 1) = before.map Token.toSymbol ++ [t.toSymbol] := by
      simpa [hindex] using symbolsBefore_add hts 1
    obtain ⟨next, hread₂, hnext⟩ : ∃ next : Symbol,
        symbolsBefore ts (r.index + 2) = before.map Token.toSymbol ++ [t.toSymbol, next] ∧
          next.kind = headKind (behind.map Token.toSymbol) := by
      cases behind with
      | nil => exact ⟨e.toSymbol, by simpa [hindex] using symbolsBefore_add hts 2, he⟩
      | cons s behind =>
        exact ⟨s.toSymbol, by simpa [hindex] using symbolsBefore_add hts 2, rfl⟩
    refine ⟨r, t, hhead, by simp [hts, hindex], hread ▸ hviable, (absurd · ht), fun _ => ?_⟩
    rw [hread₁, hread₂]
    rw [List.map_cons] at hr
    have hlength : r.index = (before.map Token.toSymbol).length := by rw [hindex, List.length_map]
    -- A dot is decided by what follows it: where no identifier does, none may on the other run.
    by_cases hlook : t.kind = .period ∧ headKind (behind.map Token.toSymbol) ≠ .identifier
    · refine .inr ⟨hlook.1, not_sentence_behind_report hr hlength (by simp), ?_⟩
      rintro ⟨v, m, hm⟩
      rw [List.append_assoc] at hm
      refine not_sentence_behind_report hr hlength (fun _ hident => ?_) m hm
      exact absurd (hnext.symm.trans hident) hlook.2
    · refine .inl ?_
      rintro ⟨v, m, hm⟩
      rw [List.append_assoc] at hm
      refine not_sentence_behind_report hr hlength (fun hperiod _ => ?_) m hm
      exact Decidable.by_contra fun hne => hlook ⟨hperiod, hne⟩

/-- The dot in `BEGIN a . END` is reported, although a sentence may go on with a dot there. -/
theorem first_report_dangling_dot :
    let word : List Symbol :=
      [.ofKind .kwModule, .identifier "M", .ofKind .semicolon, .ofKind .kwBegin, .identifier "a",
        .ofKind .period, .ofKind .kwEnd, .identifier "M", .ofKind .period]
    let ts : List Token := word.map fun s => ⟨s, .start⟩
    (parseTokens ts).2 ≠ [] ∧
      (TokenStream.ofTokens ts).parse.2.head?.map Report.index = some 5 ∧
      Viable (symbolsBefore ts 5) ∧ ¬Viable (symbolsBefore ts 7) := by
  intro word ts
  have hindex : (TokenStream.ofTokens ts).parse.2.head?.map Report.index = some 5 := by
    decide +kernel
  have hne : (parseTokens ts).2 ≠ [] := by
    intro hnil
    have hreports := List.map_eq_nil_iff.1 (Diagnostic.inSourceOrder_eq_nil_iff.1 hnil)
    rw [hreports] at hindex
    cases hindex
  obtain ⟨r, t, hhead, htoken, hviable, -, hbehind⟩ := first_report_earliest ts hne
  have hr : r.index = 5 := by simpa [hhead] using hindex
  rw [hr] at htoken hviable hbehind
  obtain rfl : ⟨.ofKind .period, .start⟩ = t := Option.some.inj htoken
  refine ⟨hne, hindex, hviable, ?_⟩
  rcases hbehind (by decide) with hnone | ⟨-, -, hnone⟩
  · rintro ⟨rest, m, hm⟩
    exact hnone ⟨.ofKind .kwEnd :: rest, m, hm⟩
  · exact hnone

end ModSyntax
