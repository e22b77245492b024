import ModSyntax.Parse.Rule

/-!
# Progress

When a parser may call itself. Parsers that agree on shorter inputs agree wherever they are called
behind a symbol that has been passed over, so the equation of a recursive parser (`Parser.fix_eq`,
`Rule.fix_eq`) asks only that its calls to itself stand behind such a symbol.

* `AgreeBelow` goes through every way to put parsers together.
* `Parser.Takes` says that whatever is found takes a symbol, `Rule.Enters` that a rule passes over
  the symbol it begins with.
-/

namespace ModSyntax

namespace Parser

variable {α β : Type} {n : Nat}

theorem AgreeBelow.refl (p : Parser α) : AgreeBelow n p p := fun _ _ => rfl

theorem AgreeBelow.mono {m : Nat} {p q : Parser α} (h : AgreeBelow n p q) (hm : m ≤ n) :
    AgreeBelow m p q := fun c hc => h c (by omega)

theorem AgreeBelow.bind {p q : Parser α} {f g : α → Parser β} (h : AgreeBelow n p q)
    (k : ∀ a, AgreeBelow n (f a) (g a)) : AgreeBelow n (p >>= f) (q >>= g) := by
  intro c hc
  have := (q.forward c).length_le
  simp only [run_bind, h c hc]
  rw [k _ _ (by omega)]

theorem AgreeBelow.fix {step step' : Parser α → Parser α} (idle : α)
    (h : ∀ p q, AgreeBelow n p q → AgreeBelow n (step p) (step' q)) :
    AgreeBelow n (fix idle step) (fix idle step') := by
  intro c hc
  suffices ∀ fuel, AgreeBelow n (unroll idle step fuel) (unroll idle step' fuel) from
    this c.rest c hc
  intro fuel
  induction fuel with
  | nil => exact h _ _ (.refl _)
  | cons s fuel ih => exact h _ _ ih

theorem run_bind_congr {p : Parser α} {f g : α → Parser β} {c : Cursor}
    (h : (f (p.run c).value).run (p.run c).next = (g (p.run c).value).run (p.run c).next) :
    (p >>= f).run c = (p >>= g).run c := by
  simp only [run_bind, h]

theorem length_accept_lt {k : Kind} (hk : k ≠ .eof) {c : Cursor}
    (h : ((accept k).run c).value = true) :
    ((accept k).run c).next.rest.length < c.rest.length := by
  have hc : c.kind = k := by simpa using h
  simpa [hc] using Cursor.length_next_lt (hc ▸ hk)

/-- Whatever the parser finds takes a symbol. -/
def Takes (p : Parser (Option α)) : Prop :=
  ∀ c, (p.run c).value.isSome → (p.run c).next.rest.length < c.rest.length

theorem takes_operator {ofKind? : Kind → Option α} (h : ofKind? .eof = none) :
    (operator ofKind?).Takes := by
  intro c
  rw [operator, run_kind_bind]
  split
  · next op ho => exact fun _ => Cursor.length_next_lt fun he => by simp [he, h] at ho
  · simp

end Parser

namespace Rule

open ModSyntax.Parser

variable {α β ω : Type} {n : Nat}

/-- The rules agree wherever fewer than `n` symbols are left. -/
def AgreeBelow (n : Nat) (r s : Rule α) : Prop := Parser.AgreeBelow n r.attempt s.attempt

/-- The step calls its argument only after it has passed over a symbol. -/
def Guarded (step : Rule α → Rule β) : Prop :=
  ∀ (r s : Rule α) (c : Cursor), AgreeBelow c.rest.length r s →
    (step r).attempt.run c = (step s).attempt.run c

/-- The recursive rule is what its step makes of it. -/
theorem fix_eq {step : Rule α → Rule α} (h : Guarded step) : fix step = step (fix step) := by
  refine ext fun c => ?_
  exact congrArg (·.run c) (Parser.fix_eq (fun p q c hpq => h ⟨p⟩ ⟨q⟩ c hpq) none)

/-! ## Agreement -/

theorem AgreeBelow.refl (r : Rule α) : AgreeBelow n r r := fun _ _ => rfl

theorem AgreeBelow.bind {r s : Rule α} {f g : α → Rule β} (h : AgreeBelow n r s)
    (k : ∀ a, AgreeBelow n (f a) (g a)) : AgreeBelow n (r >>= f) (s >>= g) := by
  refine Parser.AgreeBelow.bind h fun a? => ?_
  cases a? with
  | none => exact .refl _
  | some a => exact k a

theorem AgreeBelow.lift {p q : Parser α} (h : Parser.AgreeBelow n p q) :
    AgreeBelow n (liftM p : Rule α) (liftM q) := h.bind fun _ => .refl _

theorem AgreeBelow.fix {step step' : Rule α → Rule α}
    (h : ∀ r s, AgreeBelow n r s → AgreeBelow n (step r) (step' s)) :
    AgreeBelow n (fix step) (fix step') :=
  Parser.AgreeBelow.fix none fun p q hpq => h ⟨p⟩ ⟨q⟩ hpq

theorem AgreeBelow.after? {r s : Rule α} (h : AgreeBelow n r s) (k : Kind) :
    AgreeBelow n (after? k r) (after? k s) := by
  refine .bind (.refl _) fun found => ?_
  split
  · exact .bind h fun _ => .refl _
  · exact .refl _

theorem AgreeBelow.orSkipUntil {r s : Rule α} (h : AgreeBelow n r s) (kinds : List Kind) :
    Parser.AgreeBelow n (r.orSkipUntil kinds) (s.orSkipUntil kinds) :=
  Parser.AgreeBelow.bind h fun _ => .refl _

theorem AgreeBelow.chain (op : Parser (Option ω)) {r s : Rule α} (h : AgreeBelow n r s) :
    AgreeBelow n (chain op r) (chain op s) := by
  refine .fix fun p q hpq => .bind (.refl _) fun op? => ?_
  cases op? with
  | none => exact .refl _
  | some op => exact .bind h fun a => .bind hpq fun _ => .refl _

theorem AgreeBelow.commaList {r s : Rule α} (h : AgreeBelow n r s) :
    AgreeBelow n (commaList r) (commaList s) :=
  .bind h fun _ => .bind (.chain _ h) fun _ => .refl _

/-! ## Runs -/

@[simp] theorem attempt_kind_bind (f : Kind → Rule β) (c : Cursor) :
    ((liftM Parser.kind : Rule Kind) >>= f).attempt.run c = (f c.kind).attempt.run c := by
  simp

/-- Behind a symbol that is passed over, agreement on shorter inputs is enough. -/
theorem attempt_skip_bind {f g : Unit → Rule β} {c : Cursor} (hc : c.kind ≠ .eof)
    (h : AgreeBelow c.rest.length (f ()) (g ())) :
    ((liftM skip : Rule Unit) >>= f).attempt.run c =
      ((liftM skip : Rule Unit) >>= g).attempt.run c := by
  have := h c.next (Cursor.length_next_lt hc)
  simp [this]

/-- Behind something found, agreement on shorter inputs is enough. -/
theorem attempt_found_bind {p : Parser (Option α)} (hp : p.Takes) {f g : Option α → Rule β}
    {c : Cursor} (hnone : f none = g none)
    (h : ∀ a, AgreeBelow c.rest.length (f (some a)) (g (some a))) :
    ((liftM p : Rule (Option α)) >>= f).attempt.run c =
      ((liftM p : Rule (Option α)) >>= g).attempt.run c := by
  simp only [attempt_bind, attempt_lift, Parser.run_bind, Parser.run_map]
  cases hv : (p.run c).value with
  | none => rw [hnone]
  | some a => rw [h a _ (hp c (by simp [hv]))]

theorem attempt_bind_congr {r : Rule α} {f g : α → Rule β} {c : Cursor}
    (h : ∀ a d, c.Reaches d → (f a).attempt.run d = (g a).attempt.run d) :
    (r >>= f).attempt.run c = (r >>= g).attempt.run c := by
  simp only [attempt_bind, Parser.run_bind]
  cases (r.attempt.run c).value with
  | none => rfl
  | some a => simp only [h a _ (r.attempt.forward c)]

theorem length_bind_le (r : Rule α) (f : α → Rule β) (c : Cursor) :
    ((r >>= f).attempt.run c).next.rest.length ≤ (r.attempt.run c).next.rest.length := by
  simp only [attempt_bind, Parser.run_bind]
  cases (r.attempt.run c).value with
  | none => exact Nat.le_refl _
  | some a => exact ((f a).attempt.forward _).length_le

theorem length_skip_bind_lt (f : Unit → Rule β) {c : Cursor} (hc : c.kind ≠ .eof) :
    (((liftM skip : Rule Unit) >>= f).attempt.run c).next.rest.length < c.rest.length :=
  Nat.lt_of_le_of_lt (length_bind_le (liftM skip) f c) (Cursor.length_next_lt hc)

/-! ## Symbols taken -/

theorem takes_bind {r : Rule α} (h : r.attempt.Takes) (f : α → Rule β) :
    (r >>= f).attempt.Takes := by
  intro c hv
  refine Nat.lt_of_le_of_lt (length_bind_le r f c) (h c ?_)
  simp only [attempt_bind, Parser.run_bind] at hv
  cases hr : (r.attempt.run c).value with
  | none => simp [hr] at hv
  | some a => rfl

theorem takes_expect {k : Kind} (hk : k ≠ .eof) (rule : Construct) :
    (expect k rule).attempt.Takes := by
  intro c
  by_cases hc : c.kind = k
  · simpa [expect, hc] using Cursor.length_next_lt (by simpa [hc] using hk)
  · simp [expect, hc]

/-- At a symbol of kind `k` the rule passes over it, whether it succeeds or not. -/
def Enters (k : Kind) (r : Rule α) : Prop :=
  ∀ c : Cursor, c.kind = k → (r.attempt.run c).next.rest.length < c.rest.length

theorem Enters.bind {k : Kind} {r : Rule α} (h : r.Enters k) (f : α → Rule β) :
    (r >>= f).Enters k :=
  fun c hc => Nat.lt_of_le_of_lt (length_bind_le r f c) (h c hc)

theorem Enters.discard {k : Kind} {r : Rule α} (h : r.Enters k) : (discard r).Enters k := by
  intro c hc
  simpa using h c hc

theorem enters_expect {k : Kind} (hk : k ≠ .eof) (rule : Construct) :
    (expect k rule).Enters k := by
  intro c hc
  simpa [expect, hc] using Cursor.length_next_lt (by simpa [hc] using hk)

theorem enters_after? {k : Kind} (hk : k ≠ .eof) (r : Rule α) : (after? k r).Enters k := by
  intro c hc
  have hle := length_bind_le (liftM (accept k) : Rule Bool)
    (fun found => if found then some <$> r else pure none) c
  have hlt := Cursor.length_next_lt (c := c) (by simpa [hc] using hk)
  simp only [attempt_lift, Parser.run_map, run_accept, hc, if_true] at hle
  exact Nat.lt_of_le_of_lt hle hlt

/-- Where a rule is not found, one of the kinds is next, or nothing. -/
theorem orSkipUntil_cases {r : Rule α} (h : r.attempt.Takes) (kinds : List Kind) (c : Cursor) :
    ((r.orSkipUntil kinds).run c).next.rest.length < c.rest.length ∨
      ((r.orSkipUntil kinds).run c).next.kind ∈ .eof :: kinds := by
  cases hv : (r.attempt.run c).value with
  | none =>
    right
    simpa [orSkipUntil, hv] using Cursor.kind_skipUntil (r.attempt.run c).next kinds
  | some a =>
    left
    simpa [orSkipUntil, hv] using h c (by simp [hv])

theorem guarded_chainStep {op : Parser (Option ω)} (h : op.Takes) (item : Rule α) :
    Guarded (chainStep op item) :=
  fun _ _ _ hrs =>
    attempt_found_bind h rfl fun _ => .bind (.refl _) fun _ => .bind hrs fun _ => .refl _

/-- One item, and the chain behind it. -/
theorem chain_eq {op : Parser (Option ω)} (h : op.Takes) (item : Rule α) :
    chain op item = chainStep op item (chain op item) := fix_eq (guarded_chainStep h item)

end Rule

end ModSyntax
