import ModSyntax.Proofs.Truthfulness
import ModSyntax.TokenParser.State

/-!
# The token parser follows the parser of symbols

A state of the token parser and a cursor belong together if they are at the same token
(`State.At`). From there, a token parser simulates a parser of symbols if it ends, with the same
value, in the state that the outcome of the parser describes: at the token where the cursor is left,
with the diagnostics of all reports that do not repeat the last one (`SimulatesAt`).

Simulation goes through every way to put parsers together. A token parser that calls itself simulates
on `n + 1` symbols what it simulates on `n`, since its calls stand behind a token that it has taken
(`Simulates.advance_bind`); then it simulates on all of them, and its rounds are enough
(`simulates_fix`).
-/

namespace ModSyntax

/-- Adds the diagnostic of a report. -/
def Log.record (ts : List Token) (log : Log) (r : Report) : Log :=
  log.add r.index (r.diagnostic (.ofTokens ts))

namespace TokenParser

variable {ts : List Token} {α β : Type} {n : Nat} {s : State} {c : Cursor}

/-! ## States and cursors -/

/-- The state is at the token where the cursor is. -/
structure State.At (ts : List Token) (s : State) (c : Cursor) : Prop where
  tokens : s.tokens = terminated ts
  pos : s.pos = c.index
  reaches : (Cursor.start (TokenStream.ofTokens ts).symbols).Reaches c

/-- The state that an outcome leads to. -/
def State.after (ts : List Token) (s : State) (o : Outcome α) : State :=
  { s with pos := o.next.index, log := o.reports.foldl (Log.record ts) s.log }

theorem State.At.after (h : s.At ts c) (p : Parser α) :
    (s.after ts (p.run c)).At ts (p.run c).next :=
  ⟨h.tokens, rfl, h.reaches.trans (p.forward c)⟩

theorem State.At.after_stay (h : s.At ts c) (a : α) : s.after ts ⟨a, c, []⟩ = s := by
  simp [State.after, ← h.pos]

theorem State.after_bind (p : Parser α) (g : α → Parser β) :
    (s.after ts (p.run c)).after ts ((g (p.run c).value).run (p.run c).next) =
      s.after ts ((p >>= g).run c) := by
  simp [State.after]

theorem State.At.kind_ne_eof {symbol : Symbol} {rest : List Symbol} {index : Nat}
    (h : s.At ts ⟨symbol :: rest, index⟩) : symbol.kind ≠ .eof := by
  obtain ⟨passed, hpassed, -⟩ := h.reaches
  change (TokenStream.ofTokens ts).symbols = passed ++ symbol :: rest at hpassed
  refine TokenStream.kind_ne_eof ts symbol ?_
  rw [hpassed]
  exact List.mem_append_right passed List.mem_cons_self

/-- There are more tokens left than symbols: the end of input is one of them. -/
theorem State.At.length_lt (h : s.At ts c) : c.rest.length < s.tokens.length - s.pos := by
  obtain ⟨passed, hpassed, hindex⟩ := h.reaches
  obtain ⟨t, rest, -, -, hts⟩ := terminated_eq_body ts
  have hsymbols := congrArg List.length hpassed
  have htokens := congrArg List.length hts
  simp only [Cursor.start, TokenStream.symbols, List.length_map, List.length_append,
    List.length_cons] at hsymbols htokens hindex
  rw [h.tokens, h.pos]
  omega

/-- The token is the one at the cursor: its symbol is what the cursor shows, and what is reported
there is said of this symbol, at the position of the token. -/
structure Shows (ts : List Token) (c : Cursor) (t : Token) : Prop where
  kind : t.kind = c.kind
  lexeme : t.kind ≠ .eof → t.lexeme = c.lexeme
  diagnostic : ∀ complaint : Complaint,
    Report.diagnostic (.ofTokens ts) ⟨c.index, complaint⟩ =
      ⟨t.position, Report.problem ⟨c.index, complaint⟩
        (if t.kind = .eof then none else some t.toSymbol)⟩

theorem State.At.run_current (h : s.At ts c) : ∃ t, current.run s = some (t, s) ∧ Shows ts c t := by
  obtain ⟨t, hget, hkind, htoken⟩ := h.reaches.token
  refine ⟨t, by simp [current, StateT.run, h.tokens, h.pos, hget], hkind, ?_, fun complaint => ?_⟩
  · rcases htoken with ⟨-, -, hlexeme⟩ | ⟨-, heof, -⟩
    · exact fun _ => hlexeme
    · exact fun hne => absurd heof hne
  · rcases htoken with ⟨hbody, hne, -⟩ | ⟨hbody, heof, hstop⟩
    · simp [Report.diagnostic, TokenStream.positionAt, hbody, hne]
    · simp [Report.diagnostic, TokenStream.positionAt, hbody, heof, hstop]

/-! ## Simulation -/

/-- At a state and a cursor, the token parser does what the parser of symbols does. -/
def SimulatesAt (ts : List Token) (m : TokenParser α) (p : Parser α) (s : State) (c : Cursor) :
    Prop :=
  m.run s = some ((p.run c).value, s.after ts (p.run c))

/-- The same wherever fewer than `n` symbols are left. -/
def Simulates (ts : List Token) (n : Nat) (m : TokenParser α) (p : Parser α) : Prop :=
  ∀ (s : State) (c : Cursor), s.At ts c → c.rest.length < n → SimulatesAt ts m p s c

theorem simulates_zero (m : TokenParser α) (p : Parser α) : Simulates ts 0 m p :=
  fun _ _ _ h => absurd h (Nat.not_lt_zero _)

theorem Simulates.mono {k : Nat} {m : TokenParser α} {p : Parser α} (h : Simulates ts n m p)
    (hk : k ≤ n) : Simulates ts k m p := fun s c hat hlt => h s c hat (by omega)

theorem simulates_pure (a : α) : Simulates ts n (pure a) (pure a) := by
  intro s c hat _
  simp [SimulatesAt, hat.after_stay]

theorem SimulatesAt.bind {m : TokenParser α} {p : Parser α} {f : α → TokenParser β}
    {g : α → Parser β} (h : SimulatesAt ts m p s c)
    (k : SimulatesAt ts (f (p.run c).value) (g (p.run c).value) (s.after ts (p.run c))
      (p.run c).next) : SimulatesAt ts (m >>= f) (p >>= g) s c := by
  unfold SimulatesAt at h k ⊢
  rw [StateT.run_bind, h, Option.bind_eq_bind, Option.bind_some, k, State.after_bind,
    Parser.run_bind]

theorem Simulates.bind {m : TokenParser α} {p : Parser α} {f : α → TokenParser β}
    {g : α → Parser β} (h : Simulates ts n m p) (k : ∀ a, Simulates ts n (f a) (g a)) :
    Simulates ts n (m >>= f) (p >>= g) := by
  intro s c hat hlt
  have hle := (p.forward c).length_le
  exact (h s c hat hlt).bind (k _ _ _ (hat.after p) (by omega))

theorem Simulates.map {m : TokenParser α} {p : Parser α} (h : Simulates ts n m p) (f : α → β) :
    Simulates ts n (f <$> m) (f <$> p) := by
  rw [← bind_pure_comp, ← bind_pure_comp]
  exact h.bind fun a => simulates_pure (f a)

theorem Simulates.discarded {m : TokenParser α} {p : Parser α} (h : Simulates ts n m p) :
    Simulates ts n (discard m) (discard p) := by
  rw [discard, discard, map_const, map_const]
  exact h.map _

theorem Simulates.ite {P : Prop} [Decidable P] {m m' : TokenParser α} {p p' : Parser α}
    (h : P → Simulates ts n m p) (h' : ¬P → Simulates ts n m' p') :
    Simulates ts n (if P then m else m') (if P then p else p') := by
  split
  · next hp => exact h hp
  · next hp => exact h' hp

/-- A round on `n + 1` symbols needs its calls on `n`; so all rounds are simulated if there is one
for each symbol. -/
theorem simulates_rounds {step : TokenParser α → TokenParser α} {p : Parser α} {k : Nat}
    (hstep : ∀ i < n, ∀ m, Simulates ts i m p → Simulates ts (i + 1) (step m) p) (hk : n ≤ k) :
    Simulates ts n (rounds step k) p := by
  induction n generalizing k with
  | zero => exact simulates_zero _ _
  | succ n ih =>
    cases k with
    | zero => exact absurd hk (Nat.not_succ_le_zero n)
    | succ k =>
      have hrounds := ih (fun i hi => hstep i (by omega)) (Nat.le_of_succ_le_succ hk)
      exact hstep n (Nat.lt_succ_self n) _ hrounds

theorem simulates_fix {step : TokenParser α → TokenParser α} {p : Parser α}
    (hstep : ∀ i < n, ∀ m, Simulates ts i m p → Simulates ts (i + 1) (step m) p) :
    Simulates ts n (fix step) p := by
  intro s c hat hlt
  -- The end of input is left, too: there is a round for the call behind the last symbol.
  have hleft := hat.length_lt
  have hrounds : Simulates ts (c.rest.length + 1) (rounds step (s.tokens.length - s.pos)) p :=
    simulates_rounds (fun i hi => hstep i (by omega)) hleft
  exact hrounds s c hat (Nat.lt_succ_self _)

/-! ## Single tokens -/

theorem State.At.run_kind (h : s.At ts c) : kind.run s = some (c.kind, s) := by
  obtain ⟨t, hcurrent, ht⟩ := h.run_current
  simp [kind, hcurrent, ht.kind]

theorem State.At.run_kind_bind (h : s.At ts c) (f : Kind → TokenParser β) :
    (kind >>= f).run s = (f c.kind).run s := by
  simp [h.run_kind]

theorem simulates_kind : Simulates ts n kind Parser.kind := by
  intro s c hat _
  simp [SimulatesAt, hat.run_kind, hat.after_stay]

/-- Taking a token takes its symbol. -/
theorem State.At.run_advance (h : s.At ts c) :
    ∃ t, advance.run s = some (t, s.after ts (Parser.skip.run c)) ∧ Shows ts c t := by
  obtain ⟨t, hcurrent, ht⟩ := h.run_current
  refine ⟨t, ?_, ht⟩
  obtain ⟨rest, index⟩ := c
  cases rest with
  | nil =>
    have heof : t.kind = .eof := ht.kind
    simp [advance, hcurrent, heof, Cursor.next, h.after_stay]
  | cons symbol rest =>
    have hne : t.kind ≠ .eof := ht.kind ▸ h.kind_ne_eof
    simp [advance, hcurrent, hne, Cursor.next, State.after, h.pos]

theorem simulates_advance : Simulates ts n (discard advance) Parser.skip := by
  intro s c hat _
  obtain ⟨t, hadvance, -⟩ := hat.run_advance
  simp [SimulatesAt, discard, map_const, hadvance]

theorem simulates_eat (k : Kind) : Simulates ts n (eat k) (Parser.accept k) :=
  simulates_kind.bind fun _ =>
    .ite (fun _ => simulates_advance.bind fun _ => simulates_pure true) fun _ => simulates_pure false

@[simp] theorem run_reportAt (index : Nat) (d : Diagnostic) (s : State) :
    (reportAt index d).run s = some ((), { s with log := s.log.add index d }) := rfl

theorem simulates_reportUnexpected (rule : Construct) (expected : List Kind) :
    Simulates ts n (reportUnexpected rule expected) (Parser.unexpected rule expected) := by
  intro s c hat _
  obtain ⟨t, hcurrent, ht⟩ := hat.run_current
  have hd := ht.diagnostic (.unexpected rule expected)
  by_cases heof : t.kind = .eof <;>
    simp_all [SimulatesAt, reportUnexpected, index, State.after, Log.record, Report.problem, hat.pos]

/-- Behind a token that is taken, simulation on fewer symbols is enough. -/
theorem Simulates.advance_bind {m : TokenParser β} {p : Parser β} (h : Simulates ts n m p)
    (hat : s.At ts c) (hlt : c.rest.length < n + 1) (hc : c.kind ≠ .eof) :
    SimulatesAt ts (discard advance >>= fun _ => m) (Parser.skip >>= fun _ => p) s c := by
  have hshort := Cursor.length_next_lt hc
  refine (simulates_advance s c hat hlt).bind (h _ _ (hat.after Parser.skip) ?_)
  change c.next.rest.length < n
  omega

/-- A look at the next token changes nothing. -/
theorem SimulatesAt.kind_bind {f : Kind → TokenParser β} {g : Kind → Parser β} (hat : s.At ts c)
    (h : SimulatesAt ts (f c.kind) (g c.kind) s c) :
    SimulatesAt ts (kind >>= f) (Parser.kind >>= g) s c := by
  refine (simulates_kind s c hat (Nat.lt_succ_self _)).bind ?_
  rwa [Parser.run_kind, hat.after_stay]

/-- A search for tokens ends where the search for their symbols does. -/
theorem simulates_skipUntil (sync : List Kind) :
    Simulates ts n (skipUntil sync) (Parser.skipUntil sync) := by
  refine simulates_fix fun i _ m hm s c hat hlt => ?_
  rw [SimulatesAt, hat.run_kind_bind]
  by_cases hfound : c.kind ∈ .eof :: sync
  · have hstay : c.skipUntil sync = c := by
      rcases List.mem_cons.1 hfound with heof | hsync
      · obtain ⟨_ | ⟨symbol, rest⟩, index⟩ := c
        · rfl
        · exact absurd heof hat.kind_ne_eof
      · exact Cursor.skipUntil_of_mem hsync
    rw [if_pos hfound, Parser.run_skipUntil, hstay, hat.after_stay]
    rfl
  · have hc : c.kind ≠ .eof := fun heof => hfound (by simp [heof])
    have hnext : (Parser.skipUntil sync).run c =
        (Parser.skip >>= fun _ => Parser.skipUntil sync).run c := by
      obtain ⟨_ | ⟨symbol, rest⟩, index⟩ := c
      · exact absurd rfl hc
      · have hsync : symbol.kind ∉ sync := fun hk => hfound (List.mem_cons_of_mem _ hk)
        simp [Cursor.skipUntil, Cursor.next, Cursor.drop, hsync]
        omega
    rw [if_neg hfound, hnext]
    exact hm.advance_bind hat hlt hc

/-! ## Rules -/

/-- A reader of a construct simulates a rule wherever fewer than `n` symbols are left. -/
def SimulatesRule (ts : List Token) (n : Nat) (r : TokenRule α) (q : Rule α) : Prop :=
  Simulates ts n r.run q.attempt

theorem SimulatesRule.mono {k : Nat} {r : TokenRule α} {q : Rule α} (h : SimulatesRule ts n r q)
    (hk : k ≤ n) : SimulatesRule ts k r q := Simulates.mono h hk

theorem simulatesRule_fix {step : TokenRule α → TokenRule α} {q : Rule α}
    (hstep : ∀ i < n, ∀ r, SimulatesRule ts i r q → SimulatesRule ts (i + 1) (step r) q) :
    SimulatesRule ts n (fixRule step) q :=
  simulates_fix fun i hi m hm => hstep i hi (.mk m) hm

theorem simulatesRule_pure (a : α) : SimulatesRule ts n (pure a) (pure a) := simulates_pure (some a)

theorem simulatesRule_failure : SimulatesRule ts n (failure : TokenRule α) Rule.fail :=
  simulates_pure none

theorem SimulatesRule.bind {r : TokenRule α} {q : Rule α} {f : α → TokenRule β} {g : α → Rule β}
    (h : SimulatesRule ts n r q) (k : ∀ a, SimulatesRule ts n (f a) (g a)) :
    SimulatesRule ts n (r >>= f) (q >>= g) := by
  rw [SimulatesRule, OptionT.run_bind]
  refine Simulates.bind h fun a? => ?_
  cases a? with
  | none => exact simulates_pure none
  | some a => exact k a

theorem SimulatesRule.lift {m : TokenParser α} {p : Parser α} (h : Simulates ts n m p) :
    SimulatesRule ts n (liftM m) (liftM p) := h.map some

theorem SimulatesRule.map {r : TokenRule α} {q : Rule α} (h : SimulatesRule ts n r q) (f : α → β) :
    SimulatesRule ts n (f <$> r) (f <$> q) := by
  rw [← bind_pure_comp, ← bind_pure_comp]
  exact h.bind fun a => simulatesRule_pure (f a)

theorem SimulatesRule.ite {P : Prop} [Decidable P] {r r' : TokenRule α} {q q' : Rule α}
    (h : P → SimulatesRule ts n r q) (h' : ¬P → SimulatesRule ts n r' q') :
    SimulatesRule ts n (if P then r else r') (if P then q else q') := by
  split
  · next hp => exact h hp
  · next hp => exact h' hp

theorem run_lift_bind (m : TokenParser α) (f : α → TokenRule β) :
    ((liftM m : TokenRule α) >>= f).run = m >>= fun a => (f a).run := by
  simp [Option.elimM]

@[simp] theorem run_discard_lift (m : TokenParser α) :
    (discard (liftM m) : TokenRule Unit).run = some <$> discard m := by
  simp [discard, map_const]

theorem attempt_lift_bind (p : Parser α) (f : α → Rule β) :
    ((liftM p : Rule α) >>= f).attempt = p >>= fun a => (f a).attempt := by
  simp

theorem Simulates.lift_bind {m : TokenParser α} {p : Parser α} {f : α → TokenParser (Option β)}
    {g : α → Rule β} (h : Simulates ts n m p) (k : ∀ a, Simulates ts n (f a) (g a).attempt) :
    Simulates ts n (m >>= f) ((liftM p : Rule α) >>= g).attempt := by
  rw [attempt_lift_bind]
  exact h.bind k

theorem SimulatesAt.rule_kind_bind {f : Kind → TokenRule β} {g : Kind → Rule β} (hat : s.At ts c)
    (h : SimulatesAt ts (f c.kind).run (g c.kind).attempt s c) :
    SimulatesAt ts ((liftM kind : TokenRule Kind) >>= f).run
      ((liftM Parser.kind : Rule Kind) >>= g).attempt s c := by
  rw [run_lift_bind, attempt_lift_bind]
  exact .kind_bind hat h

theorem SimulatesRule.advance_bind {r : TokenRule β} {q : Rule β} (h : SimulatesRule ts n r q)
    (hat : s.At ts c) (hlt : c.rest.length < n + 1) (hc : c.kind ≠ .eof) :
    SimulatesAt ts ((discard (liftM advance) : TokenRule Unit) >>= fun _ => r).run
      ((liftM Parser.skip : Rule Unit) >>= fun _ => q).attempt s c := by
  have hrun : ((discard (liftM advance) : TokenRule Unit) >>= fun _ => r).run =
      discard advance >>= fun _ => r.run := by
    simp [Option.elimM]
  rw [hrun, attempt_lift_bind]
  exact Simulates.advance_bind h hat hlt hc

/-- Behind a construct that takes a token, simulation on fewer symbols is enough. -/
theorem SimulatesAt.bind_takes {r : TokenRule α} {q : Rule α} {f : α → TokenRule β} {g : α → Rule β}
    (h : SimulatesAt ts r.run q.attempt s c) (hq : q.attempt.Takes) (hat : s.At ts c)
    (hlt : c.rest.length < n + 1) (k : ∀ a, SimulatesRule ts n (f a) (g a)) :
    SimulatesAt ts (r >>= f).run (q >>= g).attempt s c := by
  rw [OptionT.run_bind]
  refine h.bind ?_
  have hafter := hat.after q.attempt
  cases hv : (q.attempt.run c).value with
  | none =>
    exact simulates_pure none _ _ hafter (Nat.lt_succ_self _)
  | some a =>
    have hshort := hq c (by simp [hv])
    exact k a _ _ hafter (by omega)

theorem simulatesRule_advance :
    SimulatesRule ts n (discard (liftM advance)) (liftM Parser.skip) := by
  rw [SimulatesRule, run_discard_lift]
  exact simulates_advance.map some

theorem simulatesRule_unexpected (rule : Construct) (expected : List Kind) :
    SimulatesRule ts n
      ((liftM (reportUnexpected rule expected) : TokenRule Unit) >>= fun _ =>
        (failure : TokenRule α))
      (liftM (Parser.unexpected rule expected) >>= fun _ => Rule.fail) :=
  SimulatesRule.bind (.lift (simulates_reportUnexpected rule expected)) fun _ =>
    simulatesRule_failure

/-- Where a token is expected, its characters are read. -/
theorem simulatesRule_expect {k : Kind} (hk : k ≠ .eof) (rule : Construct) :
    SimulatesRule ts n ((·.lexeme) <$> expect k rule) (Rule.expect k rule) := by
  intro s c hat hlt
  by_cases hc : c.kind = k
  · obtain ⟨t, hadvance, ht⟩ := hat.run_advance
    have hlexeme : t.lexeme = c.lexeme := ht.lexeme (by rwa [ht.kind, hc])
    simp [SimulatesAt, expect, Rule.expect, hat.run_kind, hc, hadvance, hlexeme, State.after]
  · have hreport := simulates_reportUnexpected rule [k] s c hat hlt
    unfold SimulatesAt at hreport
    simp [SimulatesAt, expect, Rule.expect, hat.run_kind, hc, hreport]
    rfl

/-- Whoever expects a token may go on with the whole of it. -/
theorem Simulates.expect_bind {k : Kind} (hk : k ≠ .eof) (rule : Construct)
    {f : Option Token → TokenParser β} {g : Option String → Parser β}
    (h : ∀ t?, Simulates ts n (f t?) (g (t?.map (·.lexeme)))) :
    Simulates ts n ((expect k rule).run >>= f) ((Rule.expect k rule).attempt >>= g) := by
  intro s c hat hlt
  have hexpect := simulatesRule_expect hk rule s c hat hlt
  simp only [SimulatesAt, OptionT.run_map, StateT.run_map, Option.map_eq_map, Option.map_eq_some_iff,
    Prod.mk.injEq] at hexpect
  obtain ⟨⟨t?, _⟩, hrun, hvalue, rfl⟩ := hexpect
  have hle := ((Rule.expect k rule).attempt.forward c).length_le
  have hmore := h t? _ _ (hat.after (Rule.expect k rule).attempt) (by omega)
  unfold SimulatesAt at hmore ⊢
  rw [hvalue] at hmore
  rw [StateT.run_bind, hrun, Option.bind_eq_bind, Option.bind_some, hmore, State.after_bind,
    Parser.run_bind]

theorem simulatesRule_discard_expect {k : Kind} (hk : k ≠ .eof) (rule : Construct) :
    SimulatesRule ts n (discard (expect k rule)) (discard (Rule.expect k rule)) := by
  have hmap : discard (expect k rule) = (fun _ => ()) <$> (·.lexeme) <$> expect k rule := by
    simp [discard, map_const]
  rw [hmap]
  exact (simulatesRule_expect hk rule).map _

theorem simulatesRule_identifier (rule : Construct) :
    SimulatesRule ts n (identifier rule) (Rule.identifier rule) := by
  rw [identifier, bind_pure_comp]
  exact simulatesRule_expect (by decide) rule

/-! ## Recovery -/

/-- A construct that is not found is skipped. -/
theorem SimulatesAt.orSkipUntil_bind {m : TokenParser (Option α)} {r : Rule α}
    {f : Option α → TokenParser β} {g : Option α → Parser β} {kinds : List Kind}
    {o : Outcome (Option α)}
    (h : SimulatesAt ts m r.attempt s c) (hat : s.At ts c) (ho : (r.orSkipUntil kinds).run c = o)
    (k : SimulatesAt ts (f o.value) (g o.value) (s.after ts o) o.next) :
    SimulatesAt ts
      (m >>= fun a? => if a?.isNone then skipUntil kinds >>= fun _ => f a? else f a?)
      (r.orSkipUntil kinds >>= g) s c := by
  have hm : (m >>= fun a? => if a?.isNone then skipUntil kinds >>= fun _ => f a? else f a?) =
      (m >>= fun a? =>
        if a?.isNone then skipUntil kinds >>= fun _ => pure a? else pure a?) >>= f := by
    rw [bind_assoc]
    refine bind_congr fun a? => ?_
    split <;> simp
  rw [hm]
  refine SimulatesAt.bind (SimulatesAt.bind h ?_) (by rwa [ho])
  have hafter := hat.after r.attempt
  cases (r.attempt.run c).value with
  | none =>
    exact Simulates.bind (simulates_skipUntil kinds) (fun _ => simulates_pure none) _ _ hafter
      (Nat.lt_succ_self _)
  | some a => exact simulates_pure (some a) _ _ hafter (Nat.lt_succ_self _)

theorem Simulates.orSkipUntil_bind {m : TokenParser (Option α)} {r : Rule α}
    {f : Option α → TokenParser β} {g : Option α → Parser β} {kinds : List Kind}
    (h : Simulates ts n m r.attempt) (k : ∀ a?, Simulates ts n (f a?) (g a?)) :
    Simulates ts n
      (m >>= fun a? => if a?.isNone then skipUntil kinds >>= fun _ => f a? else f a?)
      (r.orSkipUntil kinds >>= g) := by
  intro s c hat hlt
  have hle := ((r.orSkipUntil kinds).forward c).length_le
  exact (h s c hat hlt).orSkipUntil_bind hat rfl
    (k _ _ _ (hat.after (r.orSkipUntil kinds)) (by omega))

theorem simulates_require (k : Kind) (rule : Construct) :
    Simulates ts n (require k rule) (Parser.require k rule) :=
  (simulates_eat k).bind fun _ =>
    .ite (fun _ => simulates_pure ()) fun _ => simulates_reportUnexpected rule [k]

theorem simulates_terminate (k : Kind) (rule : Construct) (sync : List Kind) :
    Simulates ts n (terminate k rule sync) (Parser.terminate k rule sync) :=
  (simulates_eat k).bind fun _ => .ite (fun _ => simulates_pure ()) fun _ =>
    (simulates_reportUnexpected rule [k]).bind fun _ =>
      (simulates_skipUntil sync).bind fun _ => (simulates_eat k).discarded

theorem simulates_recoverDeclaration :
    Simulates ts n recoverDeclaration Parser.leaveDeclaration :=
  (simulates_skipUntil _).bind fun _ => (simulates_eat _).discarded

theorem simulates_endEntry (rule : Construct) :
    Simulates ts n (endEntry rule) (Parser.endEntry rule) :=
  (simulates_eat _).bind fun _ => .ite (fun _ => simulates_pure ()) fun _ =>
    (simulates_reportUnexpected rule _).bind fun _ =>
      simulates_kind.bind fun _ =>
        .ite (fun _ => simulates_pure ()) fun _ => simulates_recoverDeclaration

end TokenParser

end ModSyntax
