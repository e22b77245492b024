import ModSyntax.Proofs.Reading.Statement

/-!
# Parsers that stay inside a statement

What parts or closes statements stops every rule that reads a part of a statement without a body:
whatever is wrong before it, the rule does not pass over it, and what stands behind it makes no
difference (`Parser.Confined`). Which kinds these are depends on the sequence: an `ELSE` closes only
the statements behind a `THEN`.
-/

namespace ModSyntax

/-- What can part or close statements. -/
def statementStops : List Kind := [.semicolon, .kwElse, .kwEnd]

/-- The kinds that part the statements of a certain sequence or close it. -/
structure Stops where
  kinds : List Kind
  semicolon_mem : .semicolon ∈ kinds
  subset : kinds ⊆ statementStops

/-- The semicolon alone, as it ends an entry or a heading. -/
def Stops.semicolon : Stops := ⟨[.semicolon], by simp, by decide⟩

/-- There is no stop in the word. -/
def StopFree (stops : Stops) (word : List Symbol) : Prop := ∀ s ∈ word, s.kind ∉ stops.kinds

theorem StopFree.right {stops : Stops} {u v : List Symbol} (h : StopFree stops (u ++ v)) :
    StopFree stops v := fun s hs => h s (List.mem_append_right u hs)

/-- The reports are about symbols from index `lo` to `hi`. -/
def Within (lo hi : Nat) (reports : List Report) : Prop :=
  ∀ r ∈ reports, lo ≤ r.index ∧ r.index ≤ hi

namespace Within

variable {lo hi : Nat} {rs rs' : List Report}

theorem nil (lo hi : Nat) : Within lo hi [] := fun _ hr => nomatch hr

theorem cons {r : Report} (hlo : lo ≤ r.index) (hhi : r.index ≤ hi) (h : Within lo hi rs) :
    Within lo hi (r :: rs) := List.forall_mem_cons.2 ⟨⟨hlo, hhi⟩, h⟩

theorem append (h : Within lo hi rs) (h' : Within lo hi rs') : Within lo hi (rs ++ rs') :=
  List.forall_mem_append.2 ⟨h, h'⟩

theorem mono (h : Within lo hi rs) {lo' hi' : Nat} (hlo : lo' ≤ lo) (hhi : hi ≤ hi') :
    Within lo' hi' rs :=
  fun r hr => ⟨Nat.le_trans hlo (h r hr).1, Nat.le_trans (h r hr).2 hhi⟩

end Within

/-- A search that comes to a stop behind the word ends there, or in the word. -/
theorem Cursor.skipUntil_append {rest : List Symbol} {kinds : List Kind} (word : List Symbol)
    (i : Nat) (hrest : headKind rest ∈ kinds) :
    Cursor.skipUntil ⟨word ++ rest, i⟩ kinds =
      ⟨word.dropWhile (·.kind ∉ kinds) ++ rest, i + (word.takeWhile (·.kind ∉ kinds)).length⟩ := by
  induction word generalizing i with
  | nil => exact skipUntil_of_mem (by simpa using hrest)
  | cons s word ih =>
    by_cases hs : s.kind ∈ kinds
    · rw [skipUntil_of_mem (by simpa using hs)]
      simp [hs]
    · rw [List.cons_append, skipUntil_cons hs, ih]
      simp [hs]
      omega

namespace Parser

variable {α β : Type} {stops : Stops} {i : Nat} {word : List Symbol}

/-- In front of a stop, whatever else follows, the parser takes a part of the word and leaves the
rest of it. Its value is the same, and so are its reports, which are about what it takes and the
symbol behind. -/
def ConfinedAt (stops : Stops) (i : Nat) (p : Parser α) (word : List Symbol) : Prop :=
  ∃ taken left a reports, word = taken ++ left ∧ Within i (i + taken.length) reports ∧
    ∀ rest, headKind rest ∈ stops.kinds →
      p.run ⟨word ++ rest, i⟩ = ⟨a, ⟨left ++ rest, i + taken.length⟩, reports⟩

/-- The parser is confined to any word without a stop. -/
def Confined (stops : Stops) (p : Parser α) : Prop :=
  ∀ i word, StopFree stops word → p.ConfinedAt stops i word

theorem confined_pure (a : α) : (pure a : Parser α).Confined stops := fun _ word _ =>
  ⟨[], word, a, [], rfl, .nil _ _, fun _ _ => rfl⟩

theorem ConfinedAt.bind {p : Parser α} {f : α → Parser β} (hfree : StopFree stops word)
    (hp : p.ConfinedAt stops i word) (hf : ∀ a, (f a).Confined stops) :
    (p >>= f).ConfinedAt stops i word := by
  obtain ⟨taken, left, a, rs, rfl, hbounds, hrun⟩ := hp
  obtain ⟨taken', left, b, rs', rfl, hbounds', hrun'⟩ := hf a (i + taken.length) left hfree.right
  refine ⟨taken ++ taken', left, b, rs ++ rs', by simp, ?_, fun rest hrest => ?_⟩
  · rw [List.length_append, ← Nat.add_assoc]
    exact (hbounds.mono (Nat.le_refl _) (Nat.le_add_right _ _)).append
      (hbounds'.mono (Nat.le_add_right _ _) (Nat.le_refl _))
  · rw [run_bind, hrun rest hrest, List.length_append, ← Nat.add_assoc]
    simp only [hrun' rest hrest]

/-- What the parser leaves of the word is read together with what stands behind the word. -/
theorem ConfinedAt.readsAt_bind {p : Parser α} {f : α → Parser β} {v : List Symbol}
    {follow : List Kind} {P : β → Prop} (hp : p.ConfinedAt stops i word)
    (hv : ∀ rest, headKind (v ++ rest) ∈ stops.kinds)
    (hf : ∀ a taken left, word = taken ++ left → ∃ b reports,
      (f a).ReadsAt (i + taken.length) (left ++ v) b reports follow ∧ P b) :
    ∃ b reports, (p >>= f).ReadsAt i (word ++ v) b reports follow ∧ P b := by
  obtain ⟨taken, left, a, rs, rfl, -, hrun⟩ := hp
  obtain ⟨b, ss, hread, hb⟩ := hf a taken left rfl
  refine ⟨b, rs ++ ss, fun rest hrest => ?_, hb⟩
  have hfirst := hrun (v ++ rest) (hv rest)
  have hsecond := hread rest hrest
  rw [List.append_assoc] at hsecond
  rw [List.append_assoc, run_bind, hfirst]
  simp only [hsecond, List.length_append, Nat.add_assoc]

theorem Confined.bind {p : Parser α} {f : α → Parser β} (hp : p.Confined stops)
    (hf : ∀ a, (f a).Confined stops) : (p >>= f).Confined stops :=
  fun i word hfree => (hp i word hfree).bind hfree hf

/-- At a stop, whichever it is, the parser does the same. -/
theorem confinedAt_kind_bind_nil {f : Kind → Parser β} {p : Parser β}
    (hstop : ∀ k ∈ statementStops, f k = p) (hp : p.ConfinedAt stops i []) :
    (kind >>= f).ConfinedAt stops i [] := by
  obtain ⟨taken, left, b, rs, hword, hbounds, hrun⟩ := hp
  refine ⟨taken, left, b, rs, hword, hbounds, fun rest hrest => ?_⟩
  rw [run_kind_bind, List.nil_append, Cursor.kind_mk, hstop _ (stops.subset hrest)]
  exact hrun rest hrest

theorem confinedAt_kind_bind_cons {f : Kind → Parser β} {s : Symbol}
    (h : (f s.kind).ConfinedAt stops i (s :: word)) :
    (kind >>= f).ConfinedAt stops i (s :: word) := h

/-- The next symbol decides; the stops are all the same. -/
theorem confined_kind_bind {f : Kind → Parser β} {p : Parser β}
    (hstop : ∀ k ∈ statementStops, f k = p) (hp : p.Confined stops)
    (hf : ∀ i s word, StopFree stops (s :: word) → (f s.kind).ConfinedAt stops i (s :: word)) :
    (kind >>= f).Confined stops := by
  intro i word hfree
  cases word with
  | nil => exact confinedAt_kind_bind_nil hstop (hp i [] hfree)
  | cons s word => exact confinedAt_kind_bind_cons (hf i s word hfree)

theorem confinedAt_skip (s : Symbol) (word : List Symbol) : skip.ConfinedAt stops i (s :: word) :=
  ⟨[s], word, (), [], rfl, .nil _ _, fun _ _ => rfl⟩

theorem confined_report (complaint : Complaint) : (report complaint).Confined stops :=
  fun i word _ => ⟨[], word, (), [⟨i, complaint⟩], rfl,
    .cons (Nat.le_refl i) (Nat.le_refl i) (.nil _ _), fun _ _ => rfl⟩

theorem confined_skipUntil {kinds : List Kind} (hsub : stops.kinds ⊆ kinds) :
    (skipUntil kinds).Confined stops := by
  intro i word _
  refine ⟨word.takeWhile (·.kind ∉ kinds), word.dropWhile (·.kind ∉ kinds), (), [],
    List.takeWhile_append_dropWhile.symm, .nil _ _, fun rest hrest => ?_⟩
  rw [run_skipUntil, Cursor.skipUntil_append word i (hsub hrest)]

theorem confined_accept {k : Kind} (hk : k ∉ statementStops) : (accept k).Confined stops := by
  refine confined_kind_bind (fun k' hk' => if_neg fun he : k' = k => hk (he ▸ hk'))
    (confined_pure false) fun i s word hfree => ?_
  split
  · exact (confinedAt_skip s word).bind hfree fun _ => confined_pure _
  · exact confined_pure _ i _ hfree

theorem confined_require {k : Kind} (hk : k ∉ statementStops) (rule : Construct) :
    (require k rule).Confined stops := by
  refine (confined_accept hk).bind fun present => ?_
  cases present with
  | false => exact confined_report _
  | true => exact confined_pure _

theorem confined_operator {ofKind? : Kind → Option α} (h : ∀ k ∈ statementStops, ofKind? k = none) :
    (operator ofKind?).Confined stops := by
  refine confined_kind_bind (p := pure none) (fun k hk => by rw [h k hk]) (confined_pure _)
    fun i s word hfree => ?_
  split
  · exact (confinedAt_skip s word).bind hfree fun _ => confined_pure _
  · exact confined_pure _ i _ hfree

/-- Confinement goes through recursion. -/
theorem Confined.fix {idle : α} {step : Parser α → Parser α} (hstep : Guarded step)
    (next : ∀ p : Parser α, p.Confined stops → (step p).Confined stops) :
    (fix idle step).Confined stops := by
  have hunroll (fuel : List Symbol) : (unroll idle step fuel).Confined stops := by
    induction fuel with
    | nil => exact next _ (confined_pure idle)
    | cons s fuel ih => exact next _ ih
  intro i word hfree
  -- How deep the calls may go depends on what follows, so what is found in front of a single stop
  -- is compared with what is found in front of any other text.
  obtain ⟨taken, left, a, rs, hword, hbounds, hrun⟩ :=
    hunroll (word ++ [⟨.semicolon, ""⟩]) i word hfree
  refine ⟨taken, left, a, rs, hword, hbounds, fun rest hrest => ?_⟩
  obtain ⟨taken', left', a', rs', hword', -, hrun'⟩ := hunroll (word ++ rest) i word hfree
  have hsemi : headKind [⟨.semicolon, ""⟩] ∈ stops.kinds := stops.semicolon_mem
  have hlength : 0 < rest.length := by
    cases rest with
    | nil => exact absurd (stops.subset hrest) (by decide)
    | cons => simp
  have hfuel := hstep.run_unroll idle (word ++ [⟨.semicolon, ""⟩]) (word ++ rest)
    ⟨word ++ [⟨.semicolon, ""⟩], i⟩ (Nat.le_refl _) (by simp; omega)
  rw [hrun _ hsemi, hrun' _ hsemi] at hfuel
  obtain ⟨rfl, hnext, rfl⟩ := Outcome.mk.inj hfuel
  obtain ⟨hleft, hindex⟩ := Cursor.mk.inj hnext
  obtain rfl := List.append_cancel_right hleft
  rw [hindex]
  exact hrun' rest hrest

end Parser

namespace Rule

open ModSyntax.Parser

variable {α β ω : Type} {stops : Stops} {i : Nat} {word : List Symbol}

/-- The rule is confined to the word. -/
def ConfinedAt (stops : Stops) (i : Nat) (r : Rule α) (word : List Symbol) : Prop :=
  r.attempt.ConfinedAt stops i word

/-- The rule is confined to any word without a stop. -/
def Confined (stops : Stops) (r : Rule α) : Prop := r.attempt.Confined stops

theorem confined_pure (a : α) : (pure a : Rule α).Confined stops := Parser.confined_pure _

theorem confined_fail : (fail : Rule α).Confined stops := Parser.confined_pure _

theorem confinedAt_lift {p : Parser α} (h : p.ConfinedAt stops i word) :
    (liftM p : Rule α).ConfinedAt stops i word := by
  obtain ⟨taken, left, a, rs, hword, hbounds, hrun⟩ := h
  refine ⟨taken, left, some a, rs, hword, hbounds, fun rest hrest => ?_⟩
  rw [attempt_lift, run_map, hrun rest hrest]

theorem confined_lift {p : Parser α} (h : p.Confined stops) : (liftM p : Rule α).Confined stops :=
  fun i word hfree => confinedAt_lift (h i word hfree)

theorem ConfinedAt.bind {r : Rule α} {f : α → Rule β} (hfree : StopFree stops word)
    (hr : r.ConfinedAt stops i word) (hf : ∀ a, (f a).Confined stops) :
    (r >>= f).ConfinedAt stops i word := by
  refine Parser.ConfinedAt.bind hfree hr fun a? => ?_
  cases a? with
  | none => exact Parser.confined_pure _
  | some a => exact hf a

theorem Confined.bind {r : Rule α} {f : α → Rule β} (hr : r.Confined stops)
    (hf : ∀ a, (f a).Confined stops) : (r >>= f).Confined stops :=
  fun i word hfree => ConfinedAt.bind hfree (hr i word hfree) hf

theorem confinedAt_kind_bind_nil {f : Kind → Rule β} {r : Rule β}
    (hstop : ∀ k ∈ statementStops, f k = r) (hr : r.ConfinedAt stops i []) :
    (liftM kind >>= f : Rule β).ConfinedAt stops i [] :=
  Parser.confinedAt_kind_bind_nil (fun k hk => congrArg attempt (hstop k hk)) hr

theorem confinedAt_kind_bind_cons {f : Kind → Rule β} {s : Symbol}
    (h : (f s.kind).ConfinedAt stops i (s :: word)) :
    (liftM kind >>= f : Rule β).ConfinedAt stops i (s :: word) := h

/-- The next symbol decides; the stops are all the same. -/
theorem confined_kind_bind {f : Kind → Rule β} {r : Rule β}
    (hstop : ∀ k ∈ statementStops, f k = r) (hr : r.Confined stops)
    (hf : ∀ i s word, StopFree stops (s :: word) → (f s.kind).ConfinedAt stops i (s :: word)) :
    (liftM kind >>= f : Rule β).Confined stops :=
  Parser.confined_kind_bind (fun k hk => congrArg attempt (hstop k hk)) hr hf

/-- The characters of the next symbol are the same whatever follows the word. -/
theorem confinedAt_lexeme_bind {f : String → Rule β} {s : Symbol}
    (h : (f s.lexeme).ConfinedAt stops i (s :: word)) :
    (liftM (look Cursor.lexeme) >>= f : Rule β).ConfinedAt stops i (s :: word) := h

/-- A symbol is passed over, and the rest of the word is read. -/
theorem confinedAt_skip_bind {f : Unit → Rule β} {s : Symbol}
    (h : (f ()).ConfinedAt stops (i + 1) word) :
    (liftM skip >>= f : Rule β).ConfinedAt stops i (s :: word) := by
  obtain ⟨taken, left, b, rs, rfl, hbounds, hrun⟩ := h
  have hindex : i + 1 + taken.length = i + (s :: taken).length := by simp; omega
  rw [hindex] at hbounds hrun
  refine ⟨s :: taken, left, b, rs, rfl, hbounds.mono (Nat.le_succ i) (Nat.le_refl _), ?_⟩
  exact fun rest hrest => hrun rest hrest

theorem confinedAt_report_bind {f : Unit → Rule β} {complaint : Complaint}
    (h : (f ()).ConfinedAt stops i word) :
    (liftM (report complaint) >>= f : Rule β).ConfinedAt stops i word := by
  obtain ⟨taken, left, b, rs, hword, hbounds, hrun⟩ := h
  refine ⟨taken, left, b, ⟨i, complaint⟩ :: rs, hword, ?_, fun rest hrest => ?_⟩
  · exact .cons (Nat.le_refl i) (Nat.le_add_right i _) hbounds
  · simp [hrun rest hrest]

theorem Confined.fix {step : Rule α → Rule α} (hstep : Guarded step)
    (next : ∀ r : Rule α, r.Confined stops → (step r).Confined stops) : (fix step).Confined stops :=
  Parser.Confined.fix (fun p q c hpq => hstep ⟨p⟩ ⟨q⟩ c hpq) fun p hp => next ⟨p⟩ hp

theorem confined_after? {k : Kind} (hk : k ∉ statementStops) {r : Rule α} (hr : r.Confined stops) :
    (after? k r).Confined stops := by
  refine (confined_lift (confined_accept hk)).bind fun present => ?_
  cases present with
  | false => exact confined_pure _
  | true => exact hr.bind fun _ => confined_pure _

theorem confined_chain {op : Parser (Option ω)} {item : Rule α} (ht : op.Takes)
    (hop : op.Confined stops) (hitem : item.Confined stops) : (chain op item).Confined stops := by
  refine .fix (guarded_chainStep ht item) fun more hmore => (confined_lift hop).bind fun o? => ?_
  cases o? with
  | none => exact confined_pure _
  | some o => exact hitem.bind fun a => hmore.bind fun as => confined_pure _

theorem confined_unexpected_fail (rule : Construct) (expected : List Kind) :
    (liftM (unexpected rule expected) >>= fun _ => fail : Rule α).Confined stops :=
  (confined_lift (confined_report _)).bind fun _ => confined_fail

theorem confined_expect {k : Kind} (hk : k ∉ statementStops) (rule : Construct) :
    (expect k rule).Confined stops := by
  refine confined_kind_bind (fun k' hk' => if_neg fun he : k' = k => hk (he ▸ hk'))
    (confined_unexpected_fail rule [k]) fun i s word hfree => ?_
  split
  · exact confinedAt_lexeme_bind
      ((confinedAt_lift (confinedAt_skip s word)).bind hfree fun _ => confined_pure _)
  · exact confined_unexpected_fail rule [k] i _ hfree

theorem confined_discard_expect {k : Kind} (hk : k ∉ statementStops) (rule : Construct) :
    (discard (expect k rule)).Confined stops :=
  (confined_expect hk rule).bind fun _ => confined_pure ()

/-! ## Names and literals -/

theorem confined_dot : dot.Confined stops := by
  intro i word _
  -- The symbol behind a dot may be the stop, which is no identifier.
  have hstop : ∀ k ∈ statementStops, k ≠ .period ∧ k ≠ .identifier := by decide
  cases word with
  | nil =>
    refine ⟨[], [], none, [], rfl, .nil _ _, fun rest hrest => ?_⟩
    simp [dot, (hstop _ (stops.subset hrest)).1]
  | cons s word =>
    have hsecond (rest : List Symbol) (hrest : headKind rest ∈ stops.kinds) :
        headKind (word ++ rest) = .identifier ↔ headKind word = .identifier := by
      cases word with
      | nil => simp [(hstop _ (stops.subset hrest)).2]
      | cons => rfl
    by_cases h : s.kind = .period ∧ headKind word = .identifier
    · refine ⟨[s], word, some (), [], rfl, .nil _ _, fun rest hrest => ?_⟩
      simp [dot, h, hsecond rest hrest]
    · refine ⟨[], s :: word, none, [], rfl, .nil _ _, fun rest hrest => ?_⟩
      simp [dot, h, hsecond rest hrest]

theorem confined_qualifiedName (rule : Construct) : (qualifiedName rule).Confined stops := by
  have hident : (identifier rule).Confined stops := confined_expect (by decide) rule
  exact hident.bind fun _ => (confined_chain takes_dot confined_dot hident).bind fun _ =>
    confined_pure _

theorem confinedAt_literal (s : Symbol) (hfree : StopFree stops (s :: word)) :
    literal.ConfinedAt stops i (s :: word) := by
  refine confinedAt_lexeme_bind ?_
  split
  · exact (confinedAt_lift (confinedAt_skip s word)).bind hfree fun _ => confined_pure _
  · exact confinedAt_report_bind
      ((confinedAt_lift (confinedAt_skip s word)).bind hfree fun _ => confined_fail)

/-! ## Expressions -/

section

variable {r : Rule Factor} (h : r.Confined stops)

include h

theorem confined_termOf : (termOf r).Confined stops :=
  h.bind fun _ => (confined_chain (takes_operator rfl) (confined_operator (by decide)) h).bind
    fun _ => confined_pure _

theorem confined_simpleExprOf : (simpleExprOf r).Confined stops := by
  have hterm := confined_termOf h
  have hmore : (chain (operator AddOp.ofKind?) (termOf r)).Confined stops :=
    confined_chain (takes_operator rfl) (confined_operator (by decide)) hterm
  exact (confined_lift (confined_operator (by decide))).bind fun _ => hterm.bind fun _ =>
    hmore.bind fun _ => confined_pure _

theorem confined_exprOf : (exprOf r).Confined stops := by
  have hsimple := confined_simpleExprOf h
  refine hsimple.bind fun left => (confined_lift (confined_operator (by decide))).bind fun op? => ?_
  cases op? with
  | none => exact confined_pure _
  | some op =>
    refine hsimple.bind fun right => confined_kind_bind (r := pure (.compare op left right)) ?_
      (confined_pure _) fun i s word hfree => ?_
    · exact fun k hk => if_neg ((by decide : ∀ k ∈ statementStops, ¬k.isRelation = true) k hk)
    · split
      · exact confined_unexpected_fail _ _ i _ hfree
      · exact confined_pure _ i _ hfree

theorem confined_exprListOf : (exprListOf r).Confined stops := by
  have hexpr := confined_exprOf h
  have hlist : (commaList (exprOf r)).Confined stops := hexpr.bind fun _ =>
    (confined_chain takes_comma (confined_operator (by decide)) hexpr).bind fun _ => confined_pure _
  refine confined_kind_bind (r := pure []) ?_ (confined_pure _) fun i s word hfree => ?_
  · exact fun k hk => if_neg ((by decide : ∀ k ∈ statementStops, ¬k.startsExpression = true) k hk)
  · split
    · exact hlist i _ hfree
    · exact confined_pure _ i _ hfree

theorem confinedAt_argumentsOf (rule : Construct) (s : Symbol)
    (hfree : StopFree stops (s :: word)) : (argumentsOf r rule).ConfinedAt stops i (s :: word) :=
  (confinedAt_lift (confinedAt_skip s word)).bind hfree fun _ =>
    (confined_exprListOf h).bind fun _ => (confined_discard_expect (by decide) rule).bind fun _ =>
      confined_pure _

theorem confined_factorOf : (factorOf r).Confined stops := by
  refine confined_kind_bind ?_ (confined_unexpected_fail .factor
    [.integer, .lparen, .kwNot, .identifier]) fun i s word hfree => ?_
  · intro k hk
    rcases (by simpa [statementStops] using hk) with rfl | rfl | rfl <;> rfl
  · split
    · exact confinedAt_literal s hfree
    · exact (confinedAt_lift (confinedAt_skip s word)).bind hfree fun _ =>
        (confined_exprOf h).bind fun _ => (confined_discard_expect (by decide) _).bind fun _ =>
          confined_pure _
    · exact (confinedAt_lift (confinedAt_skip s word)).bind hfree fun _ => h.bind fun _ =>
        confined_pure _
    · refine (confined_qualifiedName .factor).bind (fun q => ?_) i _ hfree
      refine confined_kind_bind (r := pure (.ref q)) ?_ (confined_pure _) fun i s word hfree => ?_
      · intro k hk
        exact if_neg ((by decide : ∀ k ∈ statementStops, k ≠ .lparen) k hk)
      · split
        · exact (confinedAt_argumentsOf h .factor s hfree).bind hfree fun _ => confined_pure _
        · exact confined_pure _ i _ hfree
    · exact confined_unexpected_fail _ _ i _ hfree

end

theorem confined_factor : factor.Confined stops :=
  .fix guarded_factorOf fun _ h => confined_factorOf h

theorem confined_expr : expr.Confined stops := confined_exprOf confined_factor

/-! ## Statements -/

theorem Confined.orSkipUntil {r : Rule α} {kinds : List Kind} (hr : r.Confined stops)
    (hsub : stops.kinds ⊆ kinds) : (r.orSkipUntil kinds).Confined stops := by
  refine Parser.Confined.bind hr fun a? => ?_
  cases a? with
  | none => exact (confined_skipUntil hsub).bind fun _ => Parser.confined_pure _
  | some a => exact Parser.confined_pure _

/-- A condition ends before the `END` of its statement, whatever is wrong with it. -/
theorem confined_condition {keyword : Kind} (hkey : keyword ∉ statementStops) (rule : Construct)
    (hsub : stops.kinds ⊆ [.semicolon, .kwEnd]) : (condition keyword rule).Confined stops :=
  (confined_expr.orSkipUntil (List.subset_cons_of_subset _ hsub)).bind fun _ =>
    (confined_require hkey rule).bind fun _ => Parser.confined_pure _

theorem confined_designator : designator.Confined stops := by
  refine (confined_qualifiedName .statement).bind fun q => ?_
  refine confined_kind_bind (r := pure (.bare q)) ?_ (confined_pure _) fun i s word hfree => ?_
  · intro k hk
    rcases (by simpa [statementStops] using hk) with rfl | rfl | rfl <;> rfl
  · split
    · exact (confinedAt_lift (confinedAt_skip s word)).bind hfree fun _ => confined_expr.bind
        fun _ => confined_pure _
    · exact (confinedAt_argumentsOf confined_factor .statement s hfree).bind hfree fun _ =>
        confined_pure _
    · exact confined_pure _ i _ hfree

theorem confinedAt_leave (s : Symbol) (hfree : StopFree stops (s :: word)) :
    leave.ConfinedAt stops i (s :: word) := by
  refine (confinedAt_lift (confinedAt_skip s word)).bind hfree fun _ => ?_
  refine confined_kind_bind (r := pure (.leave none)) ?_ (confined_pure _) fun i s word hfree => ?_
  · exact fun k hk => if_neg ((by decide : ∀ k ∈ statementStops, ¬k.startsExpression = true) k hk)
  · split
    · exact confined_expr.bind (fun _ => confined_pure _) i _ hfree
    · exact confined_pure _ i _ hfree

end Rule

end ModSyntax
