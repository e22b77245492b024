import ModSyntax.Parse.Report

/-!
# Streams of tokens

What is parsed of a list of tokens are those before the first end of input, and of these the symbols.
An end of input always stands behind them: it is put there if the list does not close with one
(`terminated_eq_body`).
-/

namespace ModSyntax

namespace TokenStream

/-- The symbols that are parsed stand before every end of input. -/
theorem kind_ne_eof (ts : List Token) : ∀ s ∈ (ofTokens ts).symbols, s.kind ≠ .eof := by
  intro s hs
  obtain ⟨t, ht, rfl⟩ := List.mem_map.1 hs
  simpa using List.all_eq_true.1 List.all_takeWhile t ht

theorem symbols_ofTokens (ts : List Token) :
    (ofTokens ts).symbols = (ts.map Token.toSymbol).takeWhile (·.kind ≠ .eof) := by
  rw [List.takeWhile_map]
  rfl

/-- Only the symbols of the tokens are parsed. -/
theorem symbols_ofTokens_congr {ts us : List Token}
    (h : ts.map Token.toSymbol = us.map Token.toSymbol) :
    (ofTokens ts).symbols = (ofTokens us).symbols := by
  rw [symbols_ofTokens, symbols_ofTokens, h]

theorem body_append {before after : List Token} (h : ∀ t ∈ before, t.kind ≠ .eof) :
    (ofTokens (before ++ after)).body = before ++ (ofTokens after).body :=
  List.takeWhile_append_of_pos fun t ht => by simpa using h t ht

theorem symbols_append {before after : List Token} (h : ∀ t ∈ before, t.kind ≠ .eof) :
    (ofTokens (before ++ after)).symbols =
      before.map Token.toSymbol ++ (ofTokens after).symbols := by
  rw [symbols, body_append h, List.map_append, symbols]

theorem body_prefix (ts : List Token) : (ofTokens ts).body <+: ts := List.takeWhile_prefix _

end TokenStream

/-! ## The end of the input -/

theorem prefix_terminated (ts : List Token) : ts <+: terminated ts := by
  unfold terminated
  split
  · exact List.prefix_refl ts
  · exact List.prefix_append ts _

/-- The tokens that are parsed have an end of input behind them. -/
theorem terminated_eq (ts : List Token) :
    ∃ (t : Token) (rest : List Token), t.kind = .eof ∧
      terminated ts = ts.takeWhile (·.kind ≠ .eof) ++ t :: rest := by
  have hsplit : ts.takeWhile (·.kind ≠ .eof) ++ ts.dropWhile (·.kind ≠ .eof) = ts :=
    List.takeWhile_append_dropWhile
  unfold terminated
  cases hdrop : ts.dropWhile (·.kind ≠ .eof) with
  | nil =>
    rw [hdrop, List.append_nil] at hsplit
    have hlast : ¬ts.getLast?.any (·.kind = .eof) = true := by
      intro hlast
      cases ht : ts.getLast? with
      | none => simp [ht] at hlast
      | some t =>
        have hmem : t ∈ ts.takeWhile (·.kind ≠ .eof) := hsplit.symm ▸ List.mem_of_getLast? ht
        have hk := List.all_eq_true.1 List.all_takeWhile t hmem
        simp_all
    rw [if_neg hlast, hsplit]
    exact ⟨_, [], rfl, rfl⟩
  | cons t rest =>
    have hk : t.kind = .eof := by
      have hhead := List.head?_dropWhile_not (fun t : Token => decide (t.kind ≠ .eof)) ts
      rw [hdrop] at hhead
      simpa using hhead
    rw [hdrop] at hsplit
    split
    · exact ⟨t, rest, hk, hsplit.symm⟩
    · exact ⟨t, rest ++ [_], hk, by rw [← List.cons_append, ← List.append_assoc, hsplit]⟩

theorem TokenStream.stop_terminated (ts : List Token) :
    (ofTokens (terminated ts)).stop = (ofTokens ts).stop := by
  unfold terminated
  split
  · rfl
  · simp only [ofTokens, List.find?_append]
    cases ts.find? (·.kind = .eof) <;> simp [Token.eof]

/-- The tokens that are parsed, and the end of input at the position where they stop. -/
theorem terminated_eq_body (ts : List Token) :
    ∃ (t : Token) (rest : List Token), t.kind = .eof ∧ t.position = (TokenStream.ofTokens ts).stop ∧
      terminated ts = (TokenStream.ofTokens ts).body ++ t :: rest := by
  obtain ⟨t, rest, ht, hts⟩ := terminated_eq ts
  refine ⟨t, rest, ht, ?_, hts⟩
  have hbody : (ts.takeWhile (·.kind ≠ .eof)).find? (·.kind = .eof) = none :=
    List.find?_eq_none.2 fun s hs => by
      simpa using List.all_eq_true.1 List.all_takeWhile s hs
  rw [← TokenStream.stop_terminated, TokenStream.ofTokens, hts, List.find?_append, hbody]
  simp [ht]

end ModSyntax
