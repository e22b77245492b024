import Mathlib.Data.List.Forall2
import ModSyntax.Proofs.Steps.Rules
import ModSyntax.Proofs.Termination

/-!
# What the parser reports is true

The reports that are kept are made at different tokens, in the order of the tokens, and each
diagnostic is true of the token it is made at (`parserDiagnostics_truthful`): it stands at the
token's position, it speaks of the end of the input exactly if the token is the end, and it never
asks for what stands there.
-/

namespace ModSyntax

/-! ## One report for a symbol -/

namespace Report

theorem afterIndex_sublist (last : Nat) (rs : List Report) :
    (firstPerSymbol.afterIndex last rs).Sublist rs := by
  fun_induction firstPerSymbol.afterIndex last rs with
  | case1 => exact .slnil
  | case2 r rs ih => exact ih.cons r
  | case3 last r rs hr ih => exact ih.cons_cons r

/-- Dropping repeated reports adds none. -/
theorem firstPerSymbol_sublist (rs : List Report) : (firstPerSymbol rs).Sublist rs := by
  cases rs with
  | nil => exact .slnil
  | cons r rs => exact (afterIndex_sublist r.index rs).cons_cons r

theorem increasing_afterIndex {last : Nat} {rs : List Report}
    (hlast : ∀ r ∈ rs, last ≤ r.index) (h : rs.Pairwise (·.index ≤ ·.index)) :
    (∀ r ∈ firstPerSymbol.afterIndex last rs, last < r.index) ∧
      (firstPerSymbol.afterIndex last rs).Pairwise (·.index < ·.index) := by
  fun_induction firstPerSymbol.afterIndex last rs with
  | case1 => simp
  | case2 r rs ih =>
    exact ih (fun s hs => hlast s (List.mem_cons_of_mem r hs)) (List.pairwise_cons.1 h).2
  | case3 last r rs hr ih =>
    obtain ⟨hhead, htail⟩ := List.pairwise_cons.1 h
    obtain ⟨hlt, hpair⟩ := ih hhead htail
    have hfirst : last < r.index := Nat.lt_of_le_of_ne (hlast r List.mem_cons_self) (Ne.symm hr)
    refine ⟨fun s hs => ?_, List.pairwise_cons.2 ⟨hlt, hpair⟩⟩
    rcases List.mem_cons.1 hs with rfl | hs
    · exact hfirst
    · exact Nat.lt_trans hfirst (hlt s hs)

/-- Of reports in the order of the symbols, one is kept for each symbol. -/
theorem increasing_firstPerSymbol {rs : List Report} (h : rs.Pairwise (·.index ≤ ·.index)) :
    (firstPerSymbol rs).Pairwise (·.index < ·.index) := by
  cases rs with
  | nil => exact .nil
  | cons r rs =>
    obtain ⟨hhead, htail⟩ := List.pairwise_cons.1 h
    exact List.pairwise_cons.2 (increasing_afterIndex hhead htail)

end Report

/-! ## Tokens and cursors -/

/-- A cursor on the symbols of a stream stands at a token of the body, or at the end of input. -/
theorem Cursor.Reaches.token {ts : List Token} {c : Cursor}
    (h : (Cursor.start (TokenStream.ofTokens ts).symbols).Reaches c) :
    ∃ t, (terminated ts)[c.index]? = some t ∧ t.kind = c.kind ∧
      ((TokenStream.ofTokens ts).body[c.index]? = some t ∧ t.kind ≠ .eof ∧ t.lexeme = c.lexeme ∨
        (TokenStream.ofTokens ts).body[c.index]? = none ∧ t.kind = .eof ∧
          t.position = (TokenStream.ofTokens ts).stop) := by
  obtain ⟨passed, hrest, hindex⟩ := h
  obtain ⟨t, rest, ht, hstop, hts⟩ := terminated_eq_body ts
  obtain ⟨before, behind, hbody, hbefore, hbehind⟩ := List.map_eq_append_iff.1 hrest
  have hlength : c.index = before.length := by
    rw [hindex, ← hbefore, List.length_map]
    exact Nat.zero_add _
  rw [hts, hbody, hlength, Cursor.kind, Cursor.lexeme, ← hbehind, List.append_assoc]
  cases behind with
  | nil => exact ⟨t, by simp, ht, .inr ⟨by simp, ht, hstop⟩⟩
  | cons s behind =>
    have hs : s.kind ≠ .eof := by
      refine TokenStream.kind_ne_eof ts s.toSymbol ?_
      rw [TokenStream.symbols, hbody]
      exact List.mem_map_of_mem (List.mem_append_right before List.mem_cons_self)
    exact ⟨s, by simp, rfl, .inl ⟨by simp, hs, rfl⟩⟩

/-! ## Diagnostics -/

theorem Kind.spelling_injective {j k : Kind} (h : j.spelling = k.spelling) : j = k := by
  have hall : ∀ j ∈ Kind.all, ∀ k ∈ Kind.all, j.spelling = k.spelling → j = k := by decide +kernel
  exact hall j (mem_all j) k (mem_all k) h

/-- What a diagnostic of the parser says is true of the token. -/
structure Diagnostic.TrueOf (d : Diagnostic) (t : Token) : Prop where
  position : d.position = t.position
  unterminated :
    (∃ construct expected, d.problem = .unterminated construct expected) ↔ t.kind = .eof
  outOfRange : ∀ lexeme, d.problem = .outOfRange lexeme →
    t.kind = .integer ∧ lexeme = t.lexeme ∧ literalValue? t.lexeme = none
  unexpected : ∀ found rule expected, d.problem = .unexpected found rule expected →
    t.kind ≠ .eof ∧ found = t.display ∧ t.kind.spelling ∉ expected
  recognized : ∀ char, d.problem ≠ .unrecognized char

/-- A true complaint makes a true diagnostic. -/
theorem Complaint.TrueAt.diagnostic {ts : List Token} {c : Cursor} {complaint : Complaint}
    (hc : (Cursor.start (TokenStream.ofTokens ts).symbols).Reaches c) (h : complaint.TrueAt c) :
    ∃ t, (terminated ts)[c.index]? = some t ∧
      (Report.diagnostic (.ofTokens ts) ⟨c.index, complaint⟩).TrueOf t := by
  obtain ⟨t, hindex, hkind, htoken⟩ := hc.token
  refine ⟨t, hindex, ?_⟩
  rcases htoken with ⟨hbody, hne, hlexeme⟩ | ⟨hbody, heof, hstop⟩
  · cases complaint with
    | unexpected rule expected =>
      constructor <;> simp [Report.diagnostic, Report.problem, TokenStream.positionAt, hbody, hne]
      refine fun k hk hspell => h ?_
      rwa [← hkind, ← Kind.spelling_injective hspell]
    | outOfRange lexeme =>
      obtain ⟨hint, rfl, hvalue⟩ := h
      constructor <;>
        simp [Report.diagnostic, Report.problem, TokenStream.positionAt, hbody, hlexeme, hkind,
          hint, hvalue]
  · cases complaint with
    | unexpected rule expected =>
      constructor <;>
        simp [Report.diagnostic, Report.problem, TokenStream.positionAt, hbody, heof, hstop]
    | outOfRange lexeme =>
      exact absurd (heof.symm.trans (hkind.trans h.1)) (by decide)

/-- The reports that are kept are true, and made at tokens one behind the other. -/
theorem TokenStream.parse_reports (ts : List Token) :
    (ofTokens ts).parse.2.Pairwise (·.index < ·.index) ∧
      ∀ r ∈ (ofTokens ts).parse.2, ∃ t, (terminated ts)[r.index]? = some t ∧
        (r.diagnostic (.ofTokens ts)).TrueOf t := by
  have hsteps := Rule.stepwise_compilationUnit (.start (ofTokens ts).symbols)
  refine ⟨Report.increasing_firstPerSymbol hsteps.sorted, fun r hr => ?_⟩
  have hmem := (Report.firstPerSymbol_sublist _).subset hr
  obtain ⟨c, hc, -, hindex, hplace⟩ := hsteps.justified r hmem
  obtain ⟨index, complaint⟩ := r
  obtain rfl : c.index = index := hindex
  exact hplace.trueAt.diagnostic hc

/-- The diagnostics of the parser, in the order they are reported, are made at different tokens one
behind the other, and each is true of its token; the parser returns these diagnostics and no
others. -/
theorem parserDiagnostics_truthful (ts : List Token) :
    (TokenStream.ofTokens ts).parse.2.Pairwise (·.index < ·.index) ∧
    List.Forall₂ (fun (r : Report) d => ∃ t, (terminated ts)[r.index]? = some t ∧ d.TrueOf t)
      (TokenStream.ofTokens ts).parse.2 (parserDiagnostics ts) ∧
    (parseTokens ts).2.Perm (parserDiagnostics ts) := by
  obtain ⟨hincreasing, htrue⟩ := TokenStream.parse_reports ts
  refine ⟨hincreasing, ?_, List.mergeSort_perm _ _⟩
  exact List.forall₂_map_right_iff.2 (List.forall₂_same.2 htrue)

end ModSyntax
