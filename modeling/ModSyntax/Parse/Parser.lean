import ModSyntax.Parse.Cursor

/-!
# Parsers

A `Parser` reads symbols from a cursor, gives a value, and reports what it finds wrong. It can only
move forward, and its type says so: every outcome comes with a cursor that is reached from the one
it began at by passing over symbols.

Recursion goes through `Parser.fix`: a parser may call itself once it has passed over a symbol. The
law is `Parser.fix_eq`.
-/

namespace ModSyntax

/-- What a parser gives: a value, the cursor behind what it read, and its reports in order. -/
structure Outcome (α : Type) where
  value : α
  next : Cursor
  reports : List Report

/-- A reader of symbols that moves forward only. -/
structure Parser (α : Type) where
  run : Cursor → Outcome α
  forward : ∀ c : Cursor, c.Reaches (run c).next

namespace Parser

variable {α β : Type}

theorem ext {p q : Parser α} (h : ∀ c, p.run c = q.run c) : p = q := by
  cases p
  cases q
  congr
  exact funext h

instance : Monad Parser where
  pure a := ⟨fun c => ⟨a, c, []⟩, .refl⟩
  bind p f :=
    { run := fun c =>
        let first := p.run c
        let second := (f first.value).run first.next
        ⟨second.value, second.next, first.reports ++ second.reports⟩
      forward := fun c => (p.forward c).trans ((f _).forward _) }

@[simp] theorem run_pure (a : α) (c : Cursor) : (pure a : Parser α).run c = ⟨a, c, []⟩ := rfl

@[simp] theorem run_bind (p : Parser α) (f : α → Parser β) (c : Cursor) :
    (p >>= f).run c =
      ⟨((f (p.run c).value).run (p.run c).next).value, ((f (p.run c).value).run (p.run c).next).next,
        (p.run c).reports ++ ((f (p.run c).value).run (p.run c).next).reports⟩ := rfl

instance : LawfulMonad Parser :=
  LawfulMonad.mk' Parser
    (fun p => ext fun c => by simp [Functor.map])
    (fun _ _ => ext fun c => by simp)
    (fun _ _ _ => ext fun c => by simp)

@[simp] theorem run_map (f : α → β) (p : Parser α) (c : Cursor) :
    (f <$> p).run c = ⟨f (p.run c).value, (p.run c).next, (p.run c).reports⟩ := by
  simp [← bind_pure_comp]

@[simp] theorem run_discard (p : Parser α) (c : Cursor) :
    (discard p).run c = ⟨(), (p.run c).next, (p.run c).reports⟩ := run_map _ p c

@[simp] theorem run_ite {P : Prop} [Decidable P] (p q : Parser α) (c : Cursor) :
    (if P then p else q).run c = if P then p.run c else q.run c := by
  split <;> rfl

/-! ## Reading single symbols -/

/-- A look at the cursor. -/
def look (f : Cursor → α) : Parser α := ⟨fun c => ⟨f c, c, []⟩, .refl⟩

/-- The kind of the next symbol. -/
def kind : Parser Kind := look Cursor.kind

/-- Passes over the next symbol. -/
def skip : Parser Unit := ⟨fun c => ⟨(), c.next, []⟩, Cursor.reaches_next⟩

/-- Passes over symbols until one of the kinds is next. -/
def skipUntil (kinds : List Kind) : Parser Unit :=
  ⟨fun c => ⟨(), c.skipUntil kinds, []⟩, (Cursor.reaches_skipUntil · kinds)⟩

/-- Complains about the next symbol. -/
def report (complaint : Complaint) : Parser Unit :=
  ⟨fun c => ⟨(), c, [⟨c.index, complaint⟩]⟩, .refl⟩

/-- Complains that the next symbol is none of the expected kinds. -/
def unexpected (rule : Construct) (expected : List Kind) : Parser Unit :=
  report (.unexpected rule expected)

@[simp] theorem run_look (f : Cursor → α) (c : Cursor) : (look f).run c = ⟨f c, c, []⟩ := rfl

@[simp] theorem run_kind (c : Cursor) : kind.run c = ⟨c.kind, c, []⟩ := rfl

@[simp] theorem run_skip (c : Cursor) : skip.run c = ⟨(), c.next, []⟩ := rfl

@[simp] theorem run_skipUntil (kinds : List Kind) (c : Cursor) :
    (skipUntil kinds).run c = ⟨(), c.skipUntil kinds, []⟩ := rfl

@[simp] theorem run_report (complaint : Complaint) (c : Cursor) :
    (report complaint).run c = ⟨(), c, [⟨c.index, complaint⟩]⟩ := rfl

@[simp] theorem run_unexpected (rule : Construct) (expected : List Kind) (c : Cursor) :
    (unexpected rule expected).run c = ⟨(), c, [⟨c.index, .unexpected rule expected⟩]⟩ := rfl

/-- Passes over the next symbol if its kind stands for an operator. -/
def operator (ofKind? : Kind → Option α) : Parser (Option α) := do
  match ofKind? (← kind) with
  | some op =>
    skip
    return some op
  | none => return none

/-- Passes over the next symbol if it is of kind `k`. -/
def accept (k : Kind) : Parser Bool := do
  if (← kind) = k then
    skip
    return true
  else
    return false

@[simp] theorem run_kind_bind (f : Kind → Parser β) (c : Cursor) :
    (kind >>= f).run c = (f c.kind).run c := rfl

@[simp] theorem run_accept (k : Kind) (c : Cursor) :
    (accept k).run c = ⟨decide (c.kind = k), if c.kind = k then c.next else c, []⟩ := by
  by_cases h : c.kind = k <;> simp [accept, h]

/-! ## Recursion -/

/-- Calls of a parser to itself, as many deep as `fuel` has symbols; `idle` is the value of the
call below them. -/
def unroll (idle : α) (step : Parser α → Parser α) (fuel : List Symbol) : Parser α :=
  match fuel with
  | [] => step (pure idle)
  | _ :: fuel =>
    { run := fun c => (step (unroll idle step fuel)).run c
      forward := fun c => (step (unroll idle step fuel)).forward c }

/-- The parser that calls itself in `step`. Each call has passed over a symbol, so there are no more
of them inside each other than there are symbols left, and `idle` is never seen (`fix_eq`). -/
def fix (idle : α) (step : Parser α → Parser α) : Parser α where
  run c := (unroll idle step c.rest).run c
  forward c := (unroll idle step c.rest).forward c

/-- The parsers agree wherever fewer than `n` symbols are left. -/
def AgreeBelow (n : Nat) (p q : Parser α) : Prop :=
  ∀ c : Cursor, c.rest.length < n → p.run c = q.run c

/-- The step calls its argument only after it has passed over a symbol. -/
def Guarded (step : Parser α → Parser β) : Prop :=
  ∀ (p q : Parser α) (c : Cursor), AgreeBelow c.rest.length p q → (step p).run c = (step q).run c

/-- Symbols enough are as good as any number of them. -/
theorem Guarded.run_unroll {step : Parser α → Parser α} (h : Guarded step) (idle : α)
    (fuel fuel' : List Symbol) (c : Cursor) (hf : c.rest.length ≤ fuel.length)
    (hf' : c.rest.length ≤ fuel'.length) :
    (unroll idle step fuel).run c = (unroll idle step fuel').run c := by
  induction fuel generalizing fuel' c with
  | nil =>
    have : c.rest.length = 0 := by simpa using hf
    cases fuel' <;> exact h _ _ _ fun d hd => by omega
  | cons s fuel ih =>
    cases fuel' with
    | nil =>
      have : c.rest.length = 0 := by simpa using hf'
      exact h _ _ _ fun d hd => by omega
    | cons s' fuel' =>
      simp only [List.length_cons] at hf hf'
      exact h _ _ _ fun d hd => ih fuel' d (by omega) (by omega)

/-- The recursive parser is what its step makes of it. -/
theorem fix_eq {step : Parser α → Parser α} (h : Guarded step) (idle : α) :
    fix idle step = step (fix idle step) := by
  refine ext fun c => ?_
  change (unroll idle step c.rest).run c = _
  cases hc : c.rest with
  | nil => exact h _ _ _ fun d hd => by simp [hc] at hd
  | cons s rest =>
    refine h _ _ _ fun d hd => ?_
    exact h.run_unroll idle rest d.rest d (by simp [hc] at hd; omega) (Nat.le_refl _)

/-- What holds of every outcome of `pure idle`, and of the step whenever it holds of its argument,
holds of every outcome of the recursive parser. -/
theorem fix_induction {idle : α} {step : Parser α → Parser α} {P : Cursor → Outcome α → Prop}
    (base : ∀ c, P c ⟨idle, c, []⟩)
    (next : ∀ p : Parser α, (∀ c, P c (p.run c)) → ∀ c, P c ((step p).run c)) (c : Cursor) :
    P c ((fix idle step).run c) := by
  suffices h : ∀ fuel c, P c ((unroll idle step fuel).run c) from h c.rest c
  intro fuel
  induction fuel with
  | nil => exact next _ base
  | cons s fuel ih => exact next _ ih

end Parser

end ModSyntax
