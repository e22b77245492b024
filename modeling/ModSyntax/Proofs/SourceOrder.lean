import Mathlib.Data.List.Nodup
import Mathlib.Order.Basic
import ModSyntax.Proofs.Truthfulness

/-!
# Diagnostics in the order of the text

The diagnostics of a text are those of its scan and those of the parser, all of them and each once,
in the order of the text; no two stand at the same position (`parseSource_diagnostics_increasing`).

Scanning never stands still, so its items are at different positions (`increasing_scanFrom`). A
fault is no token, and the parser reports at different tokens: nothing is said twice of a position.
-/

namespace ModSyntax

/-! ## Positions -/

namespace Position

instance : LinearOrder Position where
  le_refl p := by simp [le_def]
  le_trans p q r := by simp only [le_def]; omega
  le_antisymm p q hpq hqp := by
    obtain ⟨line, column⟩ := p
    obtain ⟨line', column'⟩ := q
    simp only [le_def, mk.injEq] at *
    omega
  le_total p q := by simp only [le_def]; omega
  lt_iff_le_not_ge p q := by simp only [le_def, lt_def]; omega
  toDecidableLE := inferInstance
  toDecidableEq := inferInstance
  toDecidableLT := inferInstance

theorem le_after (p : Position) (text : List Char) : p ≤ p.after text := by
  induction text generalizing p with
  | nil => exact le_refl p
  | cons c text ih => exact (p.lt_next c).le.trans (ih (p.next c))

theorem lt_after (p : Position) {text : List Char} (h : text ≠ []) : p < p.after text := by
  cases text with
  | nil => exact absurd rfl h
  | cons c text => exact (p.lt_next c).trans_le ((p.next c).le_after text)

/-- Members at different places are in strict order when they are sorted. -/
theorem increasing_sortOn {α : Type} {place : α → Position} {xs : List α}
    (h : xs.Pairwise (place · ≠ place ·)) : (sortOn place xs).Pairwise (place · < place ·) := by
  have hsorted : (sortOn place xs).Pairwise fun a b => decide (place a ≤ place b) = true :=
    List.pairwise_mergeSort (by simpa using fun a b c => le_trans)
      (by simpa using fun a b => le_total (place a) (place b)) xs
  have hdistinct : (sortOn place xs).Pairwise (place · ≠ place ·) :=
    ((List.mergeSort_perm xs _).pairwise_iff fun hab => hab.symm).2 h
  exact (hsorted.and hdistinct).imp fun hab => lt_of_le_of_ne (of_decide_eq_true hab.1) hab.2

end Position

/-! ## Items of a scan -/

theorem Piece.position_of_item? {place : Position} {piece : Piece} {item : Item}
    (h : piece.item? place = some item) : item.position = place := by
  cases piece with
  | blank | comment => cases h
  | unclosed | symbol | unknown =>
    obtain rfl := Option.some.inj h
    rfl

/-- Every item stands behind those before it. -/
theorem increasing_scanFrom (place : Position) (text : List Char) :
    (∀ item ∈ scanFrom [] place text, place ≤ item.position) ∧
      (scanFrom [] place text).Pairwise (·.position < ·.position) := by
  match text with
  | [] => simp [Item.position, Token.eof]
  | c :: rest =>
    have hlt := place.lt_after (Piece.text_first_ne_nil c rest)
    obtain ⟨hle, hpair⟩ :=
      increasing_scanFrom (place.after (Piece.first c rest).1.text) (Piece.first c rest).2
    rw [scanFrom_cons]
    cases hitem : (Piece.first c rest).1.item? place with
    | none => exact ⟨fun item hi => hlt.le.trans (hle item hi), hpair⟩
    | some item =>
      have hplace := Piece.position_of_item? hitem
      refine ⟨fun other ho => ?_, List.pairwise_cons.2 ⟨fun other ho => ?_, hpair⟩⟩
      · rcases List.mem_cons.1 ho with rfl | ho
        · exact hplace.ge
        · exact hlt.le.trans (hle other ho)
      · exact hplace ▸ hlt.trans_le (hle other ho)
termination_by text.length
decreasing_by exact Piece.length_first_lt c rest

/-- A scan closes with the end of the text. -/
theorem scanFrom_eq_append (place : Position) (text : List Char) :
    ∃ (items : List Item) (stop : Position),
      scanFrom [] place text = items ++ [Item.token (.eof stop)] := by
  match text with
  | [] => exact ⟨[], place, scanFrom_nil place⟩
  | c :: rest =>
    obtain ⟨items, stop, h⟩ :=
      scanFrom_eq_append (place.after (Piece.first c rest).1.text) (Piece.first c rest).2
    exact ⟨_ ++ items, stop, by rw [scanFrom_cons, h, List.append_assoc]⟩
termination_by text.length
decreasing_by exact Piece.length_first_lt c rest

/-! ## Tokens and faults of a text -/

theorem Item.token?_eq_some {item : Item} {t : Token} : item.token? = some t ↔ item = .token t := by
  cases item <;> simp [token?]

theorem Item.fault?_eq_some {item : Item} {d : Diagnostic} :
    item.fault? = some d ↔ item = .fault d := by
  cases item <;> simp [fault?]

theorem increasing_tokens (source : String) :
    (tokenize source).1.Pairwise (·.position < ·.position) := by
  refine List.pairwise_filterMap.2 ((increasing_scanFrom .start source.toList).2.imp ?_)
  intro item other hlt s hs t ht
  rw [Item.token?_eq_some.1 hs, Item.token?_eq_some.1 ht] at hlt
  exact hlt

theorem increasing_faults (source : String) :
    (tokenize source).2.Pairwise (·.position < ·.position) := by
  refine List.pairwise_filterMap.2 ((increasing_scanFrom .start source.toList).2.imp ?_)
  intro item other hlt d hd e he
  rw [Item.fault?_eq_some.1 hd, Item.fault?_eq_some.1 he] at hlt
  exact hlt

/-- No fault stands where a token does. -/
theorem position_fault_ne {source : String} {d : Diagnostic} {t : Token}
    (hd : d ∈ (tokenize source).2) (ht : t ∈ (tokenize source).1) : d.position ≠ t.position := by
  obtain ⟨fault, hfault, hd⟩ := List.mem_filterMap.1 hd
  obtain ⟨token, htoken, ht⟩ := List.mem_filterMap.1 ht
  obtain rfl := Item.fault?_eq_some.1 hd
  obtain rfl := Item.token?_eq_some.1 ht
  have hnodup : ((scan source).map Item.position).Nodup :=
    List.pairwise_map.2 ((increasing_scanFrom .start source.toList).2.imp fun h => h.ne)
  exact fun heq => nomatch List.inj_on_of_nodup_map hnodup hfault htoken heq

theorem terminated_tokenize (source : String) :
    terminated (tokenize source).1 = (tokenize source).1 := by
  obtain ⟨items, stop, h⟩ := scanFrom_eq_append .start source.toList
  have htokens : (tokenize source).1 = items.filterMap Item.token? ++ [.eof stop] := by
    simp [tokenize, scan, h, Item.token?]
  rw [htokens, terminated, if_pos]
  simp [Token.eof]

/-! ## Diagnostics of a text -/

/-- A diagnostic of the parser stands at a token of the text. -/
theorem exists_token_of_mem_parserDiagnostics {source : String} {d : Diagnostic}
    (h : d ∈ parserDiagnostics (tokenize source).1) :
    ∃ t ∈ (tokenize source).1, d.position = t.position := by
  obtain ⟨r, hr, rfl⟩ := List.mem_map.1 h
  obtain ⟨t, ht, htrue⟩ := (TokenStream.parse_reports (tokenize source).1).2 r hr
  rw [terminated_tokenize] at ht
  exact ⟨t, List.mem_of_getElem? ht, htrue.position⟩

theorem increasing_parserDiagnostics (source : String) :
    (parserDiagnostics (tokenize source).1).Pairwise (·.position < ·.position) := by
  obtain ⟨hincreasing, htrue⟩ := TokenStream.parse_reports (tokenize source).1
  rw [terminated_tokenize] at htrue
  refine List.pairwise_map.2 (hincreasing.imp_of_mem fun {r s} hr hs hlt => ?_)
  obtain ⟨t, ht, hposition⟩ := htrue r hr
  obtain ⟨t', ht', hposition'⟩ := htrue s hs
  obtain ⟨hbound, rfl⟩ := List.getElem?_eq_some_iff.1 ht
  obtain ⟨hbound', rfl⟩ := List.getElem?_eq_some_iff.1 ht'
  rw [hposition.position, hposition'.position]
  exact List.pairwise_iff_getElem.1 (increasing_tokens source) _ _ hbound hbound' hlt

/-- The diagnostics of a text are those of its scan together with those of the parser on its tokens.
They are in the order of the text, and no two of them stand at the same position. -/
theorem parseSource_diagnostics_increasing (source : String) :
    (parseSource source).2.Pairwise (·.position < ·.position) ∧
      (parseSource source).2.Perm
        ((tokenize source).2 ++ (parseTokens (tokenize source).1).2) := by
  rw [parseSource_eq]
  constructor
  · refine Position.increasing_sortOn (List.pairwise_append.2 ⟨?_, ?_, fun d hd e he => ?_⟩)
    · exact (increasing_faults source).imp fun h => h.ne
    · exact (increasing_parserDiagnostics source).imp fun h => h.ne
    · obtain ⟨t, ht, hposition⟩ := exists_token_of_mem_parserDiagnostics he
      exact hposition ▸ position_fault_ne hd ht
  · exact (List.mergeSort_perm _ _).trans (.append_left _ (List.mergeSort_perm _ _).symm)

end ModSyntax
