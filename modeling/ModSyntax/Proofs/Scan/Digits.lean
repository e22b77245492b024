import ModSyntax.Proofs.Scan.Cutting
import ModSyntax.Proofs.Scan.Tiling

/-!
# Other digits

Where a token is made of digits, other digits may stand in the text. They make a token in the same
place, the tokens before it are the same, and those behind it are the same symbols
(`tokenize_digits`).
-/

namespace ModSyntax

/-- One digit goes on with a symbol if any other does. -/
theorem Symbol.fuses_digit (s : Symbol) {c d : Char} (hc : c.isDigit = true)
    (hd : d.isDigit = true) : s.Fuses c = s.Fuses d := by
  have hmark {c : Char} (hc : c.isDigit = true) : c ≠ '=' ∧ c ≠ '*' := by
    constructor <;> rintro rfl <;> cases hc
  unfold Fuses
  split <;> simp [hc, hd, hmark, Piece.isWordPart_of_isDigit]

theorem Symbol.ends_other_digits {s : Symbol} {run digits next : List Char}
    (hrun : ∀ c ∈ run, c.isDigit = true) (hne : run ≠ [])
    (hdigits : ∀ c ∈ digits, c.isDigit = true) (hne' : digits ≠ []) (h : s.Ends (run ++ next)) :
    s.Ends (digits ++ next) := by
  intro d hd
  rw [List.head?_append_of_ne_nil _ hne'] at hd
  cases run with
  | nil => exact absurd rfl hne
  | cons c run =>
    rw [s.fuses_digit (hdigits d (List.mem_of_head? hd)) (hrun c List.mem_cons_self)]
    exact h c rfl

namespace Piece

theorem items_append (place : Position) (ps qs : List Piece) :
    items place (ps ++ qs) = items place ps ++ items (place.after (textOf ps)) qs := by
  induction ps generalizing place with
  | nil => rfl
  | cons p ps ih => simp [items, ih, Position.after_append]

/-- The symbols that a text is cut into are written. -/
theorem Cuts.written {ps : List Piece} {next : List Char} (h : Cuts ps next) :
    ∀ s ∈ ps.filterMap symbol?, s.Written := by
  induction ps with
  | nil => simp
  | cons p ps ih =>
    obtain ⟨⟨c, rest, -, hfirst⟩, hps⟩ := h
    cases p with
    | symbol k text =>
      have hwritten : Symbol.Written ⟨k, String.ofList text⟩ :=
        Symbol.written_of_first (by rw [hfirst])
      exact List.forall_mem_cons.2 ⟨hwritten, ih hps⟩
    | _ => exact ih hps

/-- A token of the text is one of its pieces. -/
theorem exists_symbol_of_items {place : Position} {ps : List Piece} {before after : List Token}
    {t : Token} (h : (items place ps).filterMap Item.token? = before ++ t :: after) :
    ∃ qs rs, ps = qs ++ .symbol t.kind t.lexeme.toList :: rs ∧
      t.position = place.after (textOf qs) ∧ (items place qs).filterMap Item.token? = before ∧
      rs.filterMap symbol? = after.map Token.toSymbol := by
  induction ps generalizing place before with
  | nil => simp [items] at h
  | cons p ps ih =>
    cases p with
    | symbol k text =>
      cases before with
      | nil =>
        obtain ⟨rfl, hafter⟩ : ⟨⟨k, String.ofList text⟩, place⟩ = t ∧
            (items (place.after text) ps).filterMap Item.token? = after := by
          simpa [items, item?, Item.token?] using h
        exact ⟨[], ps, by simp, rfl, rfl, by rw [← hafter, symbols_items]⟩
      | cons u before =>
        obtain ⟨rfl, hrest⟩ : ⟨⟨k, String.ofList text⟩, place⟩ = u ∧
            (items (place.after text) ps).filterMap Item.token? = before ++ t :: after := by
          simpa [items, item?, Item.token?] using h
        obtain ⟨qs, rs, rfl, hplace, rfl, hafter⟩ := ih hrest
        refine ⟨.symbol k text :: qs, rs, rfl, ?_, ?_, hafter⟩
        · rw [hplace, textOf_cons, Position.after_append]
          rfl
        · simp [items, item?, Item.token?]
    | _ =>
      obtain ⟨qs, rs, rfl, hplace, rfl, hafter⟩ := ih h
      refine ⟨_ :: qs, rs, rfl, ?_, rfl, hafter⟩
      rw [hplace, textOf_cons, Position.after_append]

theorem Cuts.faults_eq_nil_iff {ps : List Piece} (h : Cuts ps []) :
    (tokenize (String.ofList (textOf ps))).2 = [] ↔ ps.filterMap problem? = [] := by
  rw [h.tokenize_items, ← problems_items .start, List.map_eq_nil_iff]

/-- A token before the end of the text is one of the pieces. -/
theorem Cuts.exists_symbol {ps : List Piece} {before after : List Token} {t : Token}
    (h : Cuts ps []) (htokens : (tokenize (String.ofList (textOf ps))).1 = before ++ t :: after)
    (ht : t.kind ≠ .eof) :
    ∃ qs rs, ps = qs ++ .symbol t.kind t.lexeme.toList :: rs ∧
      t.position = .behind (textOf qs) ∧ (items .start qs).filterMap Item.token? = before ∧
      after.map Token.toSymbol = rs.filterMap symbol? ++ [⟨.eof, ""⟩] := by
  rw [h.tokenize_items] at htokens
  rcases List.eq_nil_or_concat after with rfl | ⟨after, stop, rfl⟩
  · obtain ⟨-, hlast⟩ := List.append_inj' htokens rfl
    obtain rfl := List.singleton_inj.1 hlast
    exact absurd rfl ht
  · rw [List.concat_eq_append, ← List.cons_append, ← List.append_assoc] at htokens
    obtain ⟨hfront, hlast⟩ := List.append_inj' htokens rfl
    obtain rfl := List.singleton_inj.1 hlast
    obtain ⟨qs, rs, hps, hplace, hbefore, hafter⟩ := exists_symbol_of_items hfront
    rw [Position.start_after] at hplace
    exact ⟨qs, rs, hps, hplace, hbefore, by simp [hafter, Token.eof]⟩

/-- A symbol among the pieces is a token of the text. -/
theorem Cuts.tokenize_symbol {qs rs : List Piece} {k : Kind} {text : List Char}
    (h : Cuts (qs ++ .symbol k text :: rs) []) :
    ∃ after, after.map Token.toSymbol = rs.filterMap symbol? ++ [⟨.eof, ""⟩] ∧
      (tokenize (String.ofList (textOf (qs ++ .symbol k text :: rs)))).1 =
        (items .start qs).filterMap Item.token? ++
          ⟨⟨k, String.ofList text⟩, .behind (textOf qs)⟩ :: after := by
  refine ⟨(items ((Position.start.after (textOf qs)).after text) rs).filterMap Item.token? ++
    [Token.eof (Position.start.after (textOf (qs ++ .symbol k text :: rs)))], ?_, ?_⟩
  · rw [List.map_append, symbols_items]
    rfl
  · rw [h.tokenize_items, items_append, ← Position.start_after]
    simp [items, item?, Item.token?]

/-- Other digits are cut off in the place of digits. -/
theorem Cuts.other_digits {ps qs : List Piece} {run digits : List Char}
    (h : Cuts (ps ++ .symbol .integer run :: qs) [])
    (hclosed : ∀ p ∈ ps, ∀ text, p ≠ .unclosed text)
    (hdigits : ∀ c ∈ digits, c.isDigit = true) (hne : digits ≠ []) :
    Cuts (ps ++ .symbol .integer digits :: qs) [] := by
  obtain ⟨hps, ⟨c, rest, htext, hfirst⟩, hqs⟩ := cuts_append.1 h
  have hrun : Symbol.Written ⟨.integer, String.ofList run⟩ :=
    Symbol.written_of_first (by rw [hfirst])
  refine cuts_append.2 ⟨hps.before hclosed fun s hs => ?_, ?_, hqs⟩
  · rw [textOf_cons, List.append_assoc] at hs ⊢
    exact Symbol.ends_other_digits (by simpa using hrun.isDigit) (by simpa using hrun.toList_ne_nil)
      hdigits hne hs
  · have hwritten : Symbol.Written ⟨.integer, String.ofList digits⟩ :=
      .digits (by simpa using hne) (by simpa using hdigits)
    have hends := Symbol.ends_of_first hfirst
    simpa [CutsOff] using hwritten.first_eq ((Symbol.ends_congr rfl).1 hends)

end Piece

/-- If scanning finds no fault, the digits of a token may be replaced by others: these make the
token there, before the same symbols. -/
theorem tokenize_digits {source : String} {before after : List Token} {t : Token}
    (hfaults : (tokenize source).2 = []) (htokens : (tokenize source).1 = before ++ t :: after)
    (ht : t.kind = .integer) :
    ∃ front back, source.toList = front ++ (t.lexeme.toList ++ back) ∧
      t.position = .behind front ∧ (∀ u ∈ before, u.kind ≠ .eof) ∧
      ∀ digits : String, digits.toList ≠ [] → (∀ c ∈ digits.toList, c.isDigit = true) →
        ∃ after', after'.map Token.toSymbol = after.map Token.toSymbol ∧
          tokenize (String.ofList (front ++ (digits.toList ++ back))) =
            (before ++ ⟨⟨.integer, digits⟩, t.position⟩ :: after', []) := by
  obtain ⟨ps, htext, hcuts⟩ := Piece.exists_cuts source.toList
  obtain rfl : String.ofList (Piece.textOf ps) = source := by rw [htext, String.ofList_toList]
  obtain ⟨qs, rs, rfl, hplace, rfl, hafter⟩ := hcuts.exists_symbol htokens (by simp [ht])
  have hproblems := hcuts.faults_eq_nil_iff.1 hfaults
  rw [ht] at hcuts hproblems
  refine ⟨Piece.textOf qs, Piece.textOf rs, by simp, hplace, ?_, fun digits hne hdigits => ?_⟩
  · intro u hu
    have hsymbol : u.toSymbol ∈ qs.filterMap Piece.symbol? := by
      rw [← Piece.symbols_items .start qs]
      exact List.mem_map_of_mem hu
    exact ((Piece.cuts_append.1 hcuts).1.written _ hsymbol).kind_ne_eof
  · have hclosed : ∀ p ∈ qs, ∀ text, p ≠ .unclosed text := by
      rintro _ hp text rfl
      cases List.filterMap_eq_nil_iff.1 hproblems _ (List.mem_append_left _ hp)
    have hnew := hcuts.other_digits hclosed hdigits hne
    have hnone : (qs ++ .symbol .integer digits.toList :: rs).filterMap Piece.problem? = [] := by
      rw [← hproblems, List.filterMap_append, List.filterMap_append]
      rfl
    obtain ⟨after', hsymbols, htokens'⟩ := hnew.tokenize_symbol
    rw [String.ofList_toList, ← hplace] at htokens'
    refine ⟨after', hsymbols.trans hafter.symm, ?_⟩
    rw [← htokens', ← hnew.faults_eq_nil_iff.2 hnone]
    simp

end ModSyntax
