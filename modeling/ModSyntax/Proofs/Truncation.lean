import ModSyntax.Proofs.FirstReport
import ModSyntax.Proofs.MissingSemicolon

/-!
# A module that is cut off

Wherever a module is cut off, there is one diagnostic: the input ends too early. Only a cut right
behind a dot is left out, since it is what follows a dot that decides on it
(`parseTokens_truncated`).

Nothing is reported before the end, because the same report would then be made on the whole module
(`Sentence.index_of_cut`). At the end, every construct that is still open complains; the first of
these complaints is kept.
-/

namespace ModSyntax

theorem Cursor.Reaches.index_le_length {c d : Cursor} (h : c.Reaches d) :
    d.index ≤ c.index + c.rest.length := by
  obtain ⟨passed, hrest, hindex⟩ := h
  rw [hrest, hindex, List.length_append]
  omega

/-- Reports at different symbols, all of them at one symbol, are at most one. -/
theorem Report.eq_singleton {rs : List Report} {n : Nat} (hne : rs ≠ [])
    (hincreasing : rs.Pairwise (·.index < ·.index)) (hindex : ∀ r ∈ rs, r.index = n) :
    ∃ r, rs = [r] ∧ r.index = n := by
  cases rs with
  | nil => exact absurd rfl hne
  | cons r rs =>
    cases rs with
    | nil => exact ⟨r, rfl, hindex r (by simp)⟩
    | cons s rs =>
      have hlt := (List.pairwise_cons.1 hincreasing).1 s (by simp)
      have hr := hindex r (by simp)
      have hs := hindex s (by simp)
      omega

namespace Sentence

variable {w v : List Symbol} {m : Module}

/-- Without a full stop at its end, a word is no sentence. -/
theorem false_of_getLast? (h : Sentence w m) (hlast : ∀ s ∈ w.getLast?, s.kind ≠ .period) :
    False := by
  obtain ⟨init, l, rfl⟩ := h.ends
  exact hlast ⟨.period, l⟩ (by simp) rfl

/-- On a sentence that is cut off, the first report is made at the end. -/
theorem index_of_first (h : Sentence (w ++ v) m) (hlast : ∀ s ∈ w.getLast?, s.kind ≠ .period)
    {r : Report} (hr : (Rule.compilationUnit.run (.start w)).reports.head? = some r) :
    r.index = w.length := by
  obtain ⟨before, behind, rfl, hindex, -⟩ := viable_before_report hr
  cases behind with
  | nil => rw [hindex, List.append_nil]
  | cons t behind =>
    -- On the whole sentence the same symbols stand here, so it would be reported as well.
    refine absurd h ?_
    rw [List.append_assoc]
    refine not_sentence_behind_report hr hindex (fun hperiod hident => ?_) m
    cases behind with
    | nil => exact absurd hperiod (hlast t (by simp))
    | cons s behind => exact hident

/-- On a sentence that is cut off, every report is made at the end. -/
theorem index_of_cut (h : Sentence (w ++ v) m) (hlast : ∀ s ∈ w.getLast?, s.kind ≠ .period) :
    ∀ r ∈ (Rule.compilationUnit.run (.start w)).reports, r.index = w.length := by
  intro r hr
  have hsteps := Rule.stepwise_compilationUnit (.start w)
  have hle : r.index ≤ w.length := by
    have hnext := (Rule.compilationUnit.forward (.start w)).index_le_length
    have hmem := (hsteps.index_mem r hr).2
    simp only [Cursor.start, Nat.zero_add] at hnext hmem
    exact Nat.le_trans hmem hnext
  cases hreports : (Rule.compilationUnit.run (.start w)).reports with
  | nil => simp [hreports] at hr
  | cons first rs =>
    have hfirst : first.index = w.length := h.index_of_first hlast (by rw [hreports]; rfl)
    have hsorted := hsteps.sorted
    rw [hreports] at hr hsorted
    rcases List.mem_cons.1 hr with rfl | hr
    · exact hfirst
    · have hge := (List.pairwise_cons.1 hsorted).1 r hr
      omega

/-- On a sentence that is cut off, one report is kept: the first of those made at the end. -/
theorem firstPerSymbol_of_cut (h : Sentence (w ++ v) m)
    (hlast : ∀ s ∈ w.getLast?, s.kind ≠ .period) (hw : ∀ s ∈ w, s.kind ≠ .eof) :
    ∃ r, Report.firstPerSymbol (Rule.compilationUnit.run (.start w)).reports = [r] ∧
      r.index = w.length := by
  have hreports : (Rule.compilationUnit.run (.start w)).reports ≠ [] := fun hnil =>
    ((Rule.run_compilationUnit_iff_sentence hw _).1 ⟨rfl, hnil⟩).false_of_getLast? hlast
  have hsorted := (Rule.stepwise_compilationUnit (.start w)).sorted
  refine Report.eq_singleton (fun hnil => hreports (Report.firstPerSymbol_eq_nil_iff.1 hnil))
    (Report.increasing_firstPerSymbol hsorted) (fun r hr => ?_)
  exact h.index_of_cut hlast r ((Report.firstPerSymbol_sublist _).subset hr)

end Sentence

/-- Before an end of input, all tokens are parsed. -/
theorem TokenStream.body_cut {cut rest : List Token} (hcut : ∀ t ∈ cut, t.kind ≠ .eof)
    (hrest : ∀ t ∈ rest.head?, t.kind = .eof) : (ofTokens (cut ++ rest)).body = cut := by
  rw [body_append hcut]
  cases rest with
  | nil => exact List.append_nil cut
  | cons t rest => simp [ofTokens, hrest t (by simp)]

/-- The tokens that are left of a module when it is cut off, and not right behind a dot, have one
diagnostic: at the end of the input, which follows them or is put there, something is unterminated.
-/
theorem parseTokens_truncated (ts cut lost rest : List Token) (m : Module)
    (h : parseTokens ts = (m, [])) (hcut : ts.takeWhile (·.kind ≠ .eof) = cut ++ lost)
    (hlast : ∀ t ∈ cut.getLast?, t.kind ≠ .period) (hrest : ∀ t ∈ rest.head?, t.kind = .eof) :
    ∃ stop construct expected, (terminated (cut ++ rest))[cut.length]? = some stop ∧
      stop.kind = .eof ∧
      (parseTokens (cut ++ rest)).2 = [⟨stop.position, .unterminated construct expected⟩] := by
  have hne : ∀ t ∈ cut, t.kind ≠ .eof := by
    intro t ht
    have hmem : t ∈ ts.takeWhile (·.kind ≠ .eof) := hcut ▸ List.mem_append_left lost ht
    simpa using List.all_eq_true.1 List.all_takeWhile t hmem
  have hbody := TokenStream.body_cut hne hrest
  have hsymbols : (TokenStream.ofTokens (cut ++ rest)).symbols = cut.map Token.toSymbol := by
    rw [TokenStream.symbols, hbody]
  have hsentence : Sentence (cut.map Token.toSymbol ++ lost.map Token.toSymbol) m := by
    have hbody : (TokenStream.ofTokens ts).body = cut ++ lost := hcut
    have hm := Sentence.of_parseTokens h
    rwa [TokenStream.symbols, hbody, List.map_append] at hm
  have hlast : ∀ s ∈ (cut.map Token.toSymbol).getLast?, s.kind ≠ .period := by
    simpa [List.getLast?_map] using hlast
  obtain ⟨r, hr, hindex⟩ := hsentence.firstPerSymbol_of_cut hlast
    (hsymbols ▸ TokenStream.kind_ne_eof (cut ++ rest))
  have hkept : (TokenStream.ofTokens (cut ++ rest)).parse.2 = [r] := by
    rw [TokenStream.parse, hsymbols, hr]
  -- A kept report is true of its token, which is the end of the input here.
  obtain ⟨stop, more, hstop, -, hts⟩ := terminated_eq_body (cut ++ rest)
  have hget : (terminated (cut ++ rest))[cut.length]? = some stop := by
    rw [hts, hbody]
    simp
  obtain ⟨t, ht, htrue⟩ := (TokenStream.parse_reports (cut ++ rest)).2 r (by simp [hkept])
  rw [hindex, List.length_map, hget] at ht
  obtain rfl := Option.some.inj ht
  obtain ⟨construct, expected, hproblem⟩ := htrue.unterminated.2 hstop
  refine ⟨stop, construct, expected, hget, hstop, ?_⟩
  have hparse : (TokenStream.ofTokens (cut ++ rest)).parse =
      ((TokenStream.ofTokens (cut ++ rest)).parse.1, [r]) := Prod.ext rfl hkept
  rw [parseTokens_eq_of_parse hparse (Nat.le_refl 1), ← htrue.position, ← hproblem]
  rfl

/-- The input ends in the middle of an assignment, inside an `IF` of a procedure. -/
theorem parseTokens_truncated_assignment :
    let tokens (column : Nat) (word : List Symbol) : List Token :=
      (word.zipIdx column).map fun (s, column) => ⟨s, ⟨1, column⟩⟩
    let cut := tokens 1
      [.ofKind .kwModule, .identifier "M", .ofKind .semicolon, .ofKind .kwProcedure,
        .identifier "P", .ofKind .semicolon, .ofKind .kwBegin, .ofKind .kwIf, .identifier "a",
        .ofKind .kwThen, .identifier "b", .ofKind .becomes]
    let lost := tokens 13
      [.identifier "a", .ofKind .kwEnd, .ofKind .kwEnd, .identifier "P", .ofKind .semicolon,
        .ofKind .kwEnd, .identifier "M", .ofKind .period]
    let m : Module :=
      ⟨"M", [], ⟨[.procedure ⟨"P", none, ⟨[],
        [.branch (.simple ⟨none, ⟨.ref ⟨["a"]⟩, []⟩, []⟩)
          [.assign ⟨["b"]⟩ (.simple ⟨none, ⟨.ref ⟨["a"]⟩, []⟩, []⟩)] none]⟩, "P"⟩], []⟩, "M"⟩
    parseTokens (cut ++ lost) = (m, []) ∧
      (∀ t ∈ cut.getLast?, t.kind ≠ .period) ∧
      ∃ construct expected,
        (parseTokens cut).2 = [⟨⟨1, 12⟩, .unterminated construct expected⟩] := by
  intro tokens cut lost m
  have hparse : (TokenStream.ofTokens (cut ++ lost)).parse = (m, []) := by decide +kernel
  have h : parseTokens (cut ++ lost) = (m, []) := parseTokens_eq_of_parse hparse (Nat.zero_le 1)
  have hlast : ∀ t ∈ cut.getLast?, t.kind ≠ .period := by decide
  obtain ⟨stop, construct, expected, hstop, -, htruncated⟩ :=
    parseTokens_truncated (cut ++ lost) cut lost [] m h (by decide) hlast (by decide)
  obtain rfl : Token.eof ⟨1, 12⟩ = stop := Option.some.inj hstop
  rw [List.append_nil] at htruncated
  exact ⟨h, hlast, construct, expected, htruncated⟩

end ModSyntax
