import ModSyntax.Parse.Equations

/-!
# Single steps

A run of the parser is made of single steps. A step looks at the next symbol, passes over symbols,
or complains of the next symbol, and what it complains of is true; that an `END` is missing is said
at the end of the input only. `Parser.StepsAt p c` says that the run of `p` at `c` is made in this
way, and `Parser.Stepwise p` that every run is.

What holds of the steps and of runs one behind the other holds of every run:

* reports are made in the order of the symbols (`StepsAt.sorted`), and
* each is in place at the symbol it is made at (`StepsAt.justified`).
-/

namespace ModSyntax

/-- What the complaint says is true of the symbol at the cursor. -/
def Complaint.TrueAt (c : Cursor) : Complaint → Prop
  | .unexpected _ expected => c.kind ∉ expected
  | .outOfRange lexeme => c.kind = .integer ∧ c.lexeme = lexeme ∧ literalValue? lexeme = none

/-- The complaint is in place at the cursor: it is true there, and if it asks for `END` alone, the
input has ended. -/
structure Complaint.InPlaceAt (c : Cursor) (complaint : Complaint) : Prop where
  trueAt : complaint.TrueAt c
  end_missing : ∀ rule, complaint = .unexpected rule [.kwEnd] → c.kind = .eof

theorem Cursor.Reaches.index_le {c d : Cursor} (h : c.Reaches d) : c.index ≤ d.index := by
  obtain ⟨passed, -, hindex⟩ := h
  omega

namespace Parser

variable {α β : Type} {c : Cursor}

/-- The run of the parser at the cursor is made of single steps. A parser that calls itself is as
good as parsers that call themselves a limited number of times, however far that is. -/
inductive StepsAt : {α : Type} → Parser α → Cursor → Prop where
  | pure {α : Type} (a : α) (c : Cursor) : StepsAt (pure a) c
  | bind {α β : Type} {p : Parser α} {f : α → Parser β} {c : Cursor} :
      StepsAt p c → StepsAt (f (p.run c).value) (p.run c).next → StepsAt (p >>= f) c
  | kind (c : Cursor) : StepsAt kind c
  | lexeme (c : Cursor) : StepsAt (look Cursor.lexeme) c
  | dot (c : Cursor) : StepsAt Rule.dot c
  | skip (c : Cursor) : StepsAt skip c
  | skipUntil (kinds : List Kind) (c : Cursor) : StepsAt (skipUntil kinds) c
  | report {complaint : Complaint} {c : Cursor} :
      complaint.InPlaceAt c → StepsAt (report complaint) c
  | limit {α : Type} {p : Parser α} {c : Cursor} (q : Nat → Parser α) :
      (∀ n, AgreeBelow n p (q n)) → (∀ n, StepsAt (q n) c) → StepsAt p c

/-- Every run of the parser is made of single steps. -/
def Stepwise (p : Parser α) : Prop := ∀ c, p.StepsAt c

/-! ## What every run keeps to -/

theorem reports_dot (c : Cursor) : (Rule.dot.run c).reports = [] := by
  by_cases h : c.kind = .period ∧ c.secondKind = .identifier <;> simp [Rule.dot, h]

/-- Every report is made at a cursor of the run, and is in place there. -/
theorem StepsAt.justified {p : Parser α} (h : p.StepsAt c) :
    ∀ r ∈ (p.run c).reports, ∃ d : Cursor,
      c.Reaches d ∧ d.Reaches (p.run c).next ∧ d.index = r.index ∧ r.complaint.InPlaceAt d := by
  induction h with
  | pure => simp
  | @bind _ _ p f c _ _ ihp ihf =>
    intro r hr
    rcases List.mem_append.1 hr with hr | hr
    · obtain ⟨d, hc, hd, hindex, hplace⟩ := ihp r hr
      exact ⟨d, hc, hd.trans ((f _).forward _), hindex, hplace⟩
    · obtain ⟨d, hc, hd, hindex, hplace⟩ := ihf r hr
      exact ⟨d, (p.forward c).trans hc, hd, hindex, hplace⟩
  | kind => simp
  | lexeme => simp
  | dot c => simp [reports_dot]
  | skip => simp
  | skipUntil => simp
  | @report complaint c hplace =>
    intro r hr
    obtain rfl := List.mem_singleton.1 hr
    exact ⟨c, .refl c, .refl c, rfl, hplace⟩
  | @limit _ p c q hq _ ih =>
    rw [hq _ c (Nat.lt_succ_self _)]
    exact ih _

/-- Reports are made at symbols between the first and the last cursor of the run. -/
theorem StepsAt.index_mem {p : Parser α} (h : p.StepsAt c) :
    ∀ r ∈ (p.run c).reports, c.index ≤ r.index ∧ r.index ≤ (p.run c).next.index := by
  intro r hr
  obtain ⟨d, hc, hd, hindex, -⟩ := h.justified r hr
  exact ⟨hindex ▸ hc.index_le, hindex ▸ hd.index_le⟩

/-- Reports are made in the order of the symbols. -/
theorem StepsAt.sorted {p : Parser α} (h : p.StepsAt c) :
    (p.run c).reports.Pairwise (·.index ≤ ·.index) := by
  induction h with
  | pure => simp
  | bind hp hf ihp ihf =>
    refine List.pairwise_append.2 ⟨ihp, ihf, fun r hr s hs => ?_⟩
    exact Nat.le_trans (hp.index_mem r hr).2 (hf.index_mem s hs).1
  | kind => simp
  | lexeme => simp
  | dot c => simp [reports_dot]
  | skip => simp
  | skipUntil => simp
  | report => simp
  | @limit _ p c q hq _ ih =>
    rw [hq _ c (Nat.lt_succ_self _)]
    exact ih _

/-! ## Parsers made of steps -/

theorem stepwise_pure (a : α) : (pure a : Parser α).Stepwise := .pure a

theorem StepsAt.bind_any {p : Parser α} {f : α → Parser β} (hp : p.StepsAt c)
    (hf : ∀ a, (f a).Stepwise) : (p >>= f).StepsAt c := .bind hp (hf _ _)

theorem Stepwise.bind {p : Parser α} {f : α → Parser β} (hp : p.Stepwise)
    (hf : ∀ a, (f a).Stepwise) : (p >>= f).Stepwise := fun c => (hp c).bind_any hf

theorem Stepwise.map {p : Parser α} (hp : p.Stepwise) (f : α → β) : (f <$> p).Stepwise := by
  rw [← bind_pure_comp]
  exact hp.bind fun a => stepwise_pure (f a)

theorem Stepwise.discard {p : Parser α} (hp : p.Stepwise) : (discard p).Stepwise := hp.map _

theorem stepsAt_kind_bind {f : Kind → Parser α} (h : (f c.kind).StepsAt c) :
    (Parser.kind >>= f).StepsAt c := .bind (.kind c) h

theorem stepwise_operator (ofKind? : Kind → Option α) : (operator ofKind?).Stepwise := by
  refine fun c => stepsAt_kind_bind ?_
  split
  · exact .bind (.skip c) (.pure _ _)
  · exact .pure _ c

/-- What is done about a symbol that may be next depends on whether it is. -/
theorem stepsAt_accept_bind {k : Kind} {f : Bool → Parser α}
    (htrue : c.kind = k → (f true).Stepwise) (hfalse : c.kind ≠ k → (f false).StepsAt c) :
    (accept k >>= f).StepsAt c := by
  have haccept : (accept k).StepsAt c := by
    refine stepsAt_kind_bind ?_
    split
    · exact .bind (.skip c) (.pure _ _)
    · exact .pure _ c
  refine .bind haccept ?_
  by_cases hc : c.kind = k
  · simpa [hc] using htrue hc _
  · simpa [hc] using hfalse hc

theorem stepwise_accept (k : Kind) : (accept k).Stepwise := by
  refine fun c => ?_
  rw [← bind_pure (accept k)]
  exact stepsAt_accept_bind (fun _ => stepwise_pure _) fun _ => .pure _ c

theorem stepsAt_unexpected {rule : Construct} {expected : List Kind} (h : c.kind ∉ expected)
    (hend : expected = [.kwEnd] → c.kind = .eof) : (unexpected rule expected).StepsAt c :=
  .report ⟨h, fun _ heq => hend (Complaint.unexpected.inj heq).2⟩

/-- A parser that calls itself is made of steps if its step keeps that, along with a property that
the step needs of its argument. -/
theorem stepwise_fix_of {idle : α} {step : Parser α → Parser α} (P : Parser α → Prop)
    (h : Guarded step) (base : P (pure idle))
    (next : ∀ p : Parser α, P p → p.Stepwise → P (step p) ∧ (step p).Stepwise) :
    (fix idle step).Stepwise := by
  have hunroll : ∀ fuel, P (unroll idle step fuel) ∧ (unroll idle step fuel).Stepwise := by
    intro fuel
    induction fuel with
    | nil => exact next _ base (stepwise_pure idle)
    | cons s fuel ih => exact next _ ih.1 ih.2
  refine fun c => .limit (fun n => unroll idle step (List.replicate n (.ofKind .eof))) ?_
    fun n => (hunroll _).2 c
  intro n d hd
  exact h.run_unroll idle d.rest _ d (Nat.le_refl _) (by simp; omega)

theorem stepwise_fix {idle : α} {step : Parser α → Parser α} (h : Guarded step)
    (next : ∀ p : Parser α, p.Stepwise → (step p).Stepwise) : (fix idle step).Stepwise :=
  stepwise_fix_of (fun _ => True) h trivial fun p _ hp => ⟨trivial, next p hp⟩

end Parser

namespace Rule

open ModSyntax.Parser

variable {α β ω : Type} {c : Cursor}

/-- The run of the rule at the cursor is made of single steps. -/
def StepsAt (r : Rule α) (c : Cursor) : Prop := r.attempt.StepsAt c

/-- Every run of the rule is made of single steps. -/
def Stepwise (r : Rule α) : Prop := ∀ c, r.StepsAt c

theorem stepwise_pure (a : α) : (pure a : Rule α).Stepwise := Parser.stepwise_pure _

theorem stepwise_fail : (fail : Rule α).Stepwise := Parser.stepwise_pure none

theorem stepwise_lift {p : Parser α} (h : p.Stepwise) : (liftM p : Rule α).Stepwise := h.map some

theorem stepwise_attempt_bind {r : Rule α} {f : Option α → Parser β} (hr : r.Stepwise)
    (hf : ∀ a?, (f a?).Stepwise) : (r.attempt >>= f).Stepwise := Parser.Stepwise.bind hr hf

/-- What follows a rule has to be looked at only where the rule ends. -/
theorem StepsAt.bind_next {r : Rule α} {f : α → Rule β} (hr : r.StepsAt c)
    (hf : ∀ a, (f a).StepsAt (r.attempt.run c).next) : (r >>= f).StepsAt c := by
  refine Parser.StepsAt.bind hr ?_
  cases (r.attempt.run c).value with
  | none => exact .pure none _
  | some a => exact hf a

theorem Stepwise.bind {r : Rule α} {f : α → Rule β} (hr : r.Stepwise)
    (hf : ∀ a, (f a).Stepwise) : (r >>= f).Stepwise := fun c => (hr c).bind_next fun a => hf a _

theorem Stepwise.bind_pure {r : Rule α} (hr : r.Stepwise) (f : α → β) :
    (r >>= fun a => pure (f a)).Stepwise := hr.bind fun a => stepwise_pure (f a)

theorem StepsAt.map {r : Rule α} (hr : r.StepsAt c) (f : α → β) : (f <$> r).StepsAt c := by
  rw [← bind_pure_comp]
  exact hr.bind_next fun a => stepwise_pure (f a) _

theorem Stepwise.map {r : Rule α} (hr : r.Stepwise) (f : α → β) : (f <$> r).Stepwise :=
  fun c => (hr c).map f

theorem StepsAt.discard {r : Rule α} (hr : r.StepsAt c) : (discard r).StepsAt c := hr.map _

theorem Stepwise.discard {r : Rule α} (hr : r.Stepwise) : (discard r).Stepwise := hr.map _

theorem stepsAt_kind_bind {f : Kind → Rule β} (h : (f c.kind).StepsAt c) :
    ((liftM Parser.kind : Rule Kind) >>= f).StepsAt c :=
  .bind (.bind (.kind c) (.pure _ _)) h

theorem stepwise_skip_bind {f : Unit → Rule β} (h : ∀ u, (f u).Stepwise) :
    ((liftM Parser.skip : Rule Unit) >>= f).Stepwise :=
  (stepwise_lift Parser.StepsAt.skip).bind h

/-- A true complaint, with which the construct ends. -/
theorem stepsAt_unexpected_bind {rule : Construct} {expected : List Kind} {f : Unit → Rule β}
    (h : c.kind ∉ expected) (hend : expected = [.kwEnd] → c.kind = .eof)
    (hf : ∀ u, (f u).Stepwise) :
    ((liftM (unexpected rule expected) : Rule Unit) >>= f).StepsAt c :=
  .bind (.bind (Parser.stepsAt_unexpected h hend) (.pure _ _)) (hf _ _)

theorem stepwise_fix_of {step : Rule α → Rule α} (P : Rule α → Prop) (h : Guarded step)
    (base : P fail) (next : ∀ r : Rule α, P r → r.Stepwise → P (step r) ∧ (step r).Stepwise) :
    (fix step).Stepwise :=
  Parser.stepwise_fix_of (fun p => P ⟨p⟩) (fun p q c hpq => h ⟨p⟩ ⟨q⟩ c hpq) base
    fun p hP hp => next ⟨p⟩ hP hp

theorem stepwise_fix {step : Rule α → Rule α} (h : Guarded step)
    (next : ∀ r : Rule α, r.Stepwise → (step r).Stepwise) : (fix step).Stepwise :=
  stepwise_fix_of (fun _ => True) h trivial fun r _ hr => ⟨trivial, next r hr⟩

/-- `END` may be expected where nothing else can stand before the end of the input. -/
theorem stepsAt_expect {k : Kind} (rule : Construct)
    (hend : k = .kwEnd → c.kind ∈ [.eof, .kwEnd]) : (expect k rule).StepsAt c := by
  refine stepsAt_kind_bind ?_
  split
  · exact (stepwise_lift Parser.StepsAt.lexeme).bind
      (fun _ => stepwise_skip_bind fun _ => stepwise_pure _) c
  · next hc =>
    refine stepsAt_unexpected_bind (by simpa using hc) (fun heq => ?_) fun _ => stepwise_fail
    obtain rfl : k = .kwEnd := by simpa using heq
    simpa [hc] using hend rfl

theorem stepwise_expect {k : Kind} (hk : k ≠ .kwEnd) (rule : Construct) :
    (expect k rule).Stepwise := fun _ => stepsAt_expect rule (absurd · hk)

theorem Stepwise.after? {r : Rule α} (hr : r.Stepwise) (k : Kind) : (after? k r).Stepwise := by
  refine (stepwise_lift (stepwise_accept k)).bind fun found => ?_
  split
  · exact hr.bind_pure _
  · exact stepwise_pure none

theorem Stepwise.orSkipUntil {r : Rule α} (hr : r.Stepwise) (kinds : List Kind) :
    (r.orSkipUntil kinds).Stepwise := by
  refine stepwise_attempt_bind hr fun a? => ?_
  cases a? with
  | some a => exact Parser.stepwise_pure _
  | none => exact Parser.Stepwise.bind (.skipUntil kinds) fun _ => Parser.stepwise_pure _

theorem stepwise_chain {op : Parser (Option ω)} (ht : op.Takes) (hop : op.Stepwise)
    {item : Rule α} (hitem : item.Stepwise) : (chain op item).Stepwise := by
  refine stepwise_fix (guarded_chainStep ht item) fun more hmore => ?_
  refine (stepwise_lift hop).bind fun op? => ?_
  cases op? with
  | none => exact stepwise_pure []
  | some op => exact hitem.bind fun _ => hmore.bind_pure _

theorem Stepwise.commaList {item : Rule α} (hitem : item.Stepwise) : (commaList item).Stepwise :=
  hitem.bind fun _ =>
    (stepwise_chain (takes_operator (by decide)) (stepwise_operator _) hitem).bind_pure _

end Rule

end ModSyntax
