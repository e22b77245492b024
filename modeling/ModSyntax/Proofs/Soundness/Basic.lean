import ModSyntax.Parse.Equations

/-!
# Parsing up to the first report

`Parser.FollowsAt p c P` says that what `p` takes at `c` without a report is a word, related by `P`
to its value, and that what stands before its first report begins such a word. A rule that follows
words in this sense also succeeds if it has nothing to report.

`Parser.Follows n p P` says this of all cursors at which fewer than `n` symbols are left, and that
there is such a word at all: a word that has been begun can then be completed, whatever is left to
read. Rules that call themselves follow their words by induction on `n`, since they do so only
behind a symbol.
-/

namespace ModSyntax

/-- Before the end of the input there is a symbol. -/
theorem Cursor.rest_eq {c : Cursor} {k : Kind} (hc : c.kind = k) (hk : k ≠ .eof) :
    c.rest = ⟨k, c.lexeme⟩ :: c.next.rest := by
  obtain ⟨rest, index⟩ := c
  cases rest with
  | nil => exact absurd hc.symm hk
  | cons s rest => rw [← hc]; rfl

namespace Parser

variable {α β : Type} {c : Cursor} {n m : Nat} {P : List Symbol → α → Prop}
  {Q : List Symbol → β → Prop}

/-- Where the parser reports nothing, it takes a word; the word and its value are as `P` says. -/
def SoundAt (p : Parser α) (c : Cursor) (P : List Symbol → α → Prop) : Prop :=
  (p.run c).reports = [] → ∃ w, c.rest = w ++ (p.run c).next.rest ∧ P w (p.run c).value

/-- The parser keeps to the words of `P`: it takes one of them, or has begun one before its first
report. -/
structure FollowsAt (p : Parser α) (c : Cursor) (P : List Symbol → α → Prop) : Prop where
  sound : p.SoundAt c P
  begins : ∀ r, (p.run c).reports.head? = some r →
    ∃ w rest v a, c.rest = w ++ rest ∧ r.index = c.index + w.length ∧ P (w ++ v) a

/-- There are words of `P`, and the parser keeps to them wherever fewer than `n` symbols are left.
-/
structure Follows (n : Nat) (p : Parser α) (P : List Symbol → α → Prop) : Prop where
  exists_word : ∃ w a, P w a
  below : ∀ c : Cursor, c.rest.length < n → p.FollowsAt c P

theorem Follows.mono {p : Parser α} (h : p.Follows n P) (hm : m ≤ n) : p.Follows m P :=
  ⟨h.exists_word, fun c hc => h.below c (Nat.lt_of_lt_of_le hc hm)⟩

theorem follows_zero {p : Parser α} (h : ∃ w a, P w a) : p.Follows 0 P :=
  ⟨h, fun _ hc => absurd hc (Nat.not_lt_zero _)⟩

/-- At the end of the input, too, a word is taken or has been begun. -/
theorem follows_succ {p : Parser α} (h : ∀ c : Cursor, c.rest.length < n + 1 → p.FollowsAt c P) :
    p.Follows (n + 1) P := by
  refine ⟨?_, h⟩
  have hend := h ⟨[], 0⟩ (Nat.succ_pos n)
  cases hr : (p.run ⟨[], 0⟩).reports with
  | nil =>
    obtain ⟨w, -, ha⟩ := hend.sound hr
    exact ⟨w, _, ha⟩
  | cons r rs =>
    obtain ⟨w, -, v, a, -, -, ha⟩ := hend.begins r (by simp [hr])
    exact ⟨w ++ v, a, ha⟩

theorem follows_of_at {p : Parser α} (h : ∀ c, p.FollowsAt c P) : p.Follows n P :=
  Follows.mono (follows_succ fun c _ => h c) (Nat.le_succ n)

/-- A parser that never reports has no first report. -/
theorem SoundAt.follows {p : Parser α} (h : p.SoundAt c P) (hr : (p.run c).reports = []) :
    p.FollowsAt c P := ⟨h, fun r hhead => by simp [hr] at hhead⟩

theorem FollowsAt.imp {p : Parser α} {P' : List Symbol → α → Prop} (h : p.FollowsAt c P)
    (himp : ∀ w a, P w a → P' w a) : p.FollowsAt c P' := by
  refine ⟨fun hr => ?_, fun r hr => ?_⟩
  · obtain ⟨w, hw, ha⟩ := h.sound hr
    exact ⟨w, hw, himp _ _ ha⟩
  · obtain ⟨w, rest, v, a, hw, hindex, ha⟩ := h.begins r hr
    exact ⟨w, rest, v, a, hw, hindex, himp _ _ ha⟩

theorem Follows.imp {p : Parser α} {P' : List Symbol → α → Prop} (h : p.Follows n P)
    (himp : ∀ w a, P w a → P' w a) : p.Follows n P' := by
  obtain ⟨w, a, ha⟩ := h.exists_word
  exact ⟨⟨w, a, himp w a ha⟩, fun c hc => (h.below c hc).imp himp⟩

/-- What follows a word keeps to what completes it, where the word ends. -/
theorem FollowsAt.bind {p : Parser α} {f : α → Parser β} (hp : p.FollowsAt c P)
    (hf : ∀ w a, P w a →
      (f a).Follows (c.rest.length + 1 - w.length) fun v b => Q (w ++ v) b) :
    (p >>= f).FollowsAt c Q := by
  -- Without a report of `p`, what `f` does begins where a word ends.
  have hsecond : (p.run c).reports = [] → ∃ w, c.rest = w ++ (p.run c).next.rest ∧
      (p.run c).next.index = c.index + w.length ∧
        (f (p.run c).value).FollowsAt (p.run c).next fun v b => Q (w ++ v) b := by
    intro hnil
    obtain ⟨w, hw, ha⟩ := hp.sound hnil
    obtain ⟨passed, hpassed, hindex⟩ := p.forward c
    have hlength : passed.length = w.length := by
      have := congrArg List.length (hpassed.symm.trans hw)
      simp only [List.length_append] at this
      omega
    refine ⟨w, hw, hlength ▸ hindex, (hf w _ ha).below _ ?_⟩
    rw [hw, List.length_append]
    omega
  constructor
  · intro hnil
    obtain ⟨hnil, hnil'⟩ := List.append_eq_nil_iff.1 hnil
    obtain ⟨w, hw, -, hfollows⟩ := hsecond hnil
    obtain ⟨v, hv, hb⟩ := hfollows.sound hnil'
    exact ⟨w ++ v, by rw [hw, hv, List.append_assoc]; rfl, hb⟩
  · intro r hr
    simp only [run_bind, List.head?_append] at hr
    cases hhead : (p.run c).reports.head? with
    | some s =>
      obtain rfl : s = r := by simpa [hhead] using hr
      obtain ⟨w, rest, v, a, hw, hindex, ha⟩ := hp.begins s hhead
      obtain ⟨v', b, hb⟩ := (hf _ a ha).exists_word
      exact ⟨w, rest, v ++ v', b, hw, hindex, by rwa [← List.append_assoc]⟩
    | none =>
      obtain ⟨w, hw, hnext, hfollows⟩ := hsecond (List.head?_eq_none_iff.1 hhead)
      obtain ⟨u, rest, v, b, hu, hindex, hb⟩ := hfollows.begins r (by simpa [hhead] using hr)
      refine ⟨w ++ u, rest, v, b, by rw [hw, hu, List.append_assoc], ?_, ?_⟩
      · rw [hindex, hnext, List.length_append, Nat.add_assoc]
      · rwa [List.append_assoc]

theorem Follows.bind {p : Parser α} {f : α → Parser β} (hp : p.Follows n P)
    (hf : ∀ w a, P w a → (f a).Follows n fun v b => Q (w ++ v) b) : (p >>= f).Follows n Q := by
  obtain ⟨w, a, ha⟩ := hp.exists_word
  obtain ⟨v, b, hb⟩ := (hf w a ha).exists_word
  exact ⟨⟨w ++ v, b, hb⟩, fun c hc =>
    (hp.below c hc).bind fun w a ha => (hf w a ha).mono (by omega)⟩

theorem followsAt_pure {a : α} (h : P [] a) : (pure a : Parser α).FollowsAt c P :=
  SoundAt.follows (fun _ => ⟨[], rfl, h⟩) rfl

theorem follows_pure {a : α} (h : P [] a) : (pure a : Parser α).Follows n P :=
  ⟨⟨[], a, h⟩, fun _ _ => followsAt_pure h⟩

theorem FollowsAt.bind_pure {p : Parser α} {f : α → β} (hp : p.FollowsAt c P)
    (hf : ∀ w a, P w a → Q w (f a)) : (p >>= fun a => pure (f a)).FollowsAt c Q :=
  hp.bind fun w a ha => follows_pure (by simpa using hf w a ha)

theorem Follows.bind_pure {p : Parser α} {f : α → β} (hp : p.Follows n P)
    (hf : ∀ w a, P w a → Q w (f a)) : (p >>= fun a => pure (f a)).Follows n Q :=
  hp.bind fun w a ha => follows_pure (by simpa using hf w a ha)

/-- A report is made where a word may begin. -/
theorem followsAt_unexpected_bind (rule : Construct) (expected : List Kind) (f : Unit → Parser α)
    (h : ∃ w a, P w a) : (unexpected rule expected >>= f).FollowsAt c P := by
  obtain ⟨w, a, ha⟩ := h
  refine ⟨fun hr => by simp at hr, fun r hr => ⟨[], c.rest, w, a, rfl, ?_, ha⟩⟩
  obtain rfl : _ = r := by simpa using hr
  rfl

theorem followsAt_unexpected (rule : Construct) (expected : List Kind)
    {P : List Symbol → Unit → Prop} (h : ∃ w, P w ()) :
    (unexpected rule expected).FollowsAt c P := by
  obtain ⟨w, hw⟩ := h
  have := followsAt_unexpected_bind (c := c) (P := P) rule expected pure ⟨w, (), hw⟩
  rwa [bind_pure] at this

theorem followsAt_kind_bind {f : Kind → Parser α} (h : (f c.kind).FollowsAt c P) :
    (kind >>= f).FollowsAt c P := ⟨h.sound, h.begins⟩

theorem followsAt_skip {k : Kind} (hc : c.kind = k) (hk : k ≠ .eof) :
    skip.FollowsAt c fun w _ => ∃ l, w = [⟨k, l⟩] :=
  SoundAt.follows (fun _ => ⟨[⟨k, c.lexeme⟩], Cursor.rest_eq hc hk, c.lexeme, rfl⟩) rfl

/-- A symbol that may stand at the cursor is taken, or is not there. -/
theorem follows_accept {k : Kind} (hk : k ≠ .eof) :
    (accept k).Follows n fun w found =>
      found = true ∧ (∃ l, w = [⟨k, l⟩]) ∨ found = false ∧ w = [] := by
  refine follows_of_at fun c => SoundAt.follows ?_ (by simp)
  by_cases hc : c.kind = k
  · exact fun _ => ⟨[⟨k, c.lexeme⟩], by simpa [hc] using Cursor.rest_eq hc hk, by simp [hc]⟩
  · exact fun _ => ⟨[], by simp [hc], by simp [hc]⟩

theorem follows_operator {ofKind? : Kind → Option α} (h : ofKind? .eof = none) :
    (operator ofKind?).Follows n fun w op? =>
      (∃ op s, op? = some op ∧ w = [s] ∧ ofKind? s.kind = some op) ∨ op? = none ∧ w = [] := by
  refine follows_of_at fun c => ?_
  rw [operator]
  cases hop : ofKind? c.kind with
  | none => exact SoundAt.follows (fun _ => ⟨[], by simp [hop], by simp [hop]⟩) (by simp [hop])
  | some op =>
    have hne : c.kind ≠ .eof := fun he => by simp [he, h] at hop
    refine SoundAt.follows (fun _ => ?_) (by simp [hop])
    exact ⟨[⟨c.kind, c.lexeme⟩], by simpa [hop] using Cursor.rest_eq rfl hne,
      .inl ⟨op, ⟨c.kind, c.lexeme⟩, by simp [hop], rfl, hop⟩⟩

section

variable {k : Kind} (hk : k ≠ .eof) (rule : Construct)
include hk

/-- A required symbol is taken. -/
theorem follows_require : (require k rule).Follows n fun w _ => ∃ l, w = [⟨k, l⟩] := by
  refine (follows_accept hk).bind fun w found h => ?_
  rcases h with ⟨rfl, l, rfl⟩ | ⟨rfl, rfl⟩
  · exact follows_pure ⟨l, rfl⟩
  · exact follows_of_at fun c => followsAt_unexpected rule [k] ⟨[⟨k, ""⟩], "", rfl⟩

theorem follows_terminate (sync : List Kind) :
    (terminate k rule sync).Follows n fun w _ => ∃ l, w = [⟨k, l⟩] := by
  refine (follows_accept hk).bind fun w found h => ?_
  rcases h with ⟨rfl, l, rfl⟩ | ⟨rfl, rfl⟩
  · exact follows_pure ⟨l, rfl⟩
  · exact follows_of_at fun c =>
      followsAt_unexpected_bind rule [k] _ ⟨[⟨k, ""⟩], (), "", rfl⟩

end

theorem follows_endEntry (rule : Construct) :
    (endEntry rule).Follows n fun w _ => ∃ l, w = [⟨.semicolon, l⟩] := by
  refine (follows_accept (by decide)).bind fun w found h => ?_
  rcases h with ⟨rfl, l, rfl⟩ | ⟨rfl, rfl⟩
  · exact follows_pure ⟨l, rfl⟩
  · exact follows_of_at fun c =>
      followsAt_unexpected_bind rule [.semicolon] _ ⟨[⟨.semicolon, ""⟩], (), "", rfl⟩

end Parser

namespace Rule

open ModSyntax.Parser

variable {α β ω : Type} {c : Cursor} {n m : Nat} {P : List Symbol → α → Prop}
  {Q : List Symbol → β → Prop}

/-- The rule keeps to the words of `P`: it succeeds with one of them, or has begun one before its
first report. -/
def FollowsAt (r : Rule α) (c : Cursor) (P : List Symbol → α → Prop) : Prop :=
  r.attempt.FollowsAt c fun w a? => ∃ a, a? = some a ∧ P w a

/-- There are words of `P`, and the rule keeps to them wherever fewer than `n` symbols are left. -/
def Follows (n : Nat) (r : Rule α) (P : List Symbol → α → Prop) : Prop :=
  r.attempt.Follows n fun w a? => ∃ a, a? = some a ∧ P w a

theorem Follows.below {r : Rule α} (h : r.Follows n P) (c : Cursor) (hc : c.rest.length < n) :
    r.FollowsAt c P := Parser.Follows.below h c hc

theorem Follows.mono {r : Rule α} (h : r.Follows n P) (hm : m ≤ n) : r.Follows m P :=
  Parser.Follows.mono h hm

theorem exists_some_word (h : ∃ w a, P w a) : ∃ w a?, ∃ a, a? = some a ∧ P w a := by
  obtain ⟨w, a, ha⟩ := h
  exact ⟨w, some a, a, rfl, ha⟩

theorem follows_zero {r : Rule α} (h : ∃ w a, P w a) : r.Follows 0 P :=
  Parser.follows_zero (exists_some_word h)

theorem follows_succ {r : Rule α} (h : ∀ c : Cursor, c.rest.length < n + 1 → r.FollowsAt c P) :
    r.Follows (n + 1) P := Parser.follows_succ h

theorem follows_of_at {r : Rule α} (h : ∀ c, r.FollowsAt c P) : r.Follows n P :=
  Parser.follows_of_at h

theorem Follows.imp {r : Rule α} {P' : List Symbol → α → Prop} (h : r.Follows n P)
    (himp : ∀ w a, P w a → P' w a) : r.Follows n P' := by
  refine Parser.Follows.imp h fun w a? ha => ?_
  obtain ⟨a, rfl, ha⟩ := ha
  exact ⟨a, rfl, himp w a ha⟩

/-- What follows a word keeps to what completes it, where the word ends. -/
theorem FollowsAt.bind {r : Rule α} {f : α → Rule β} (hr : r.FollowsAt c P)
    (hf : ∀ w a, P w a →
      (f a).Follows (c.rest.length + 1 - w.length) fun v b => Q (w ++ v) b) :
    (r >>= f).FollowsAt c Q := by
  refine Parser.FollowsAt.bind hr fun w a? ha => ?_
  obtain ⟨a, rfl, ha⟩ := ha
  exact hf w a ha

theorem Follows.bind {r : Rule α} {f : α → Rule β} (hr : r.Follows n P)
    (hf : ∀ w a, P w a → (f a).Follows n fun v b => Q (w ++ v) b) : (r >>= f).Follows n Q := by
  refine Parser.Follows.bind hr fun w a? ha => ?_
  obtain ⟨a, rfl, ha⟩ := ha
  exact hf w a ha

theorem followsAt_pure {a : α} (h : P [] a) : (pure a : Rule α).FollowsAt c P :=
  Parser.followsAt_pure ⟨a, rfl, h⟩

theorem follows_pure {a : α} (h : P [] a) : (pure a : Rule α).Follows n P :=
  Parser.follows_pure ⟨a, rfl, h⟩

theorem FollowsAt.bind_pure {r : Rule α} {f : α → β} (hr : r.FollowsAt c P)
    (hf : ∀ w a, P w a → Q w (f a)) : (r >>= fun a => pure (f a)).FollowsAt c Q :=
  hr.bind fun w a ha => follows_pure (by simpa using hf w a ha)

theorem Follows.bind_pure {r : Rule α} {f : α → β} (hr : r.Follows n P)
    (hf : ∀ w a, P w a → Q w (f a)) : (r >>= fun a => pure (f a)).Follows n Q :=
  hr.bind fun w a ha => follows_pure (by simpa using hf w a ha)

theorem Follows.map {r : Rule α} {f : α → β} (hr : r.Follows n P) (hf : ∀ w a, P w a → Q w (f a)) :
    (f <$> r).Follows n Q := by
  rw [← bind_pure_comp]
  exact hr.bind_pure hf

theorem followsAt_lift {p : Parser α} (h : p.FollowsAt c P) : (liftM p : Rule α).FollowsAt c P := by
  change (some <$> p).FollowsAt c _
  rw [← bind_pure_comp]
  exact Parser.FollowsAt.bind_pure h fun w a ha => ⟨a, rfl, ha⟩

theorem follows_lift {p : Parser α} (h : p.Follows n P) : (liftM p : Rule α).Follows n P :=
  ⟨exists_some_word h.exists_word, fun c hc => followsAt_lift (h.below c hc)⟩

/-- A report is made where a word may begin. -/
theorem followsAt_unexpected_bind (rule : Construct) (expected : List Kind) (f : Unit → Rule α)
    (h : ∃ w a, P w a) :
    ((liftM (unexpected rule expected) : Rule Unit) >>= f).FollowsAt c P := by
  obtain ⟨w, a, ha⟩ := h
  refine ⟨fun hr => by simp at hr, fun r hr => ⟨[], c.rest, w, some a, rfl, ?_, a, rfl, ha⟩⟩
  obtain rfl : _ = r := by simpa using hr
  rfl

theorem followsAt_kind_bind {f : Kind → Rule α} (h : (f c.kind).FollowsAt c P) :
    ((liftM Parser.kind : Rule Kind) >>= f).FollowsAt c P := by
  have hrun := attempt_kind_bind f c
  constructor
  · unfold Parser.SoundAt
    rw [hrun]
    exact h.sound
  · rw [hrun]
    exact h.begins

section

variable {k : Kind} (hk : k ≠ .eof) (rule : Construct)
include hk

theorem follows_expect : (expect k rule).Follows n fun w l => w = [⟨k, l⟩] := by
  refine follows_of_at fun c => followsAt_kind_bind ?_
  split
  · next hc =>
    exact Parser.SoundAt.follows (fun _ => ⟨[⟨k, c.lexeme⟩], by simpa using Cursor.rest_eq hc hk,
      c.lexeme, by simp, rfl⟩) (by simp)
  · exact followsAt_unexpected_bind rule [k] _ ⟨[⟨k, ""⟩], "", rfl⟩

theorem follows_discard_expect :
    (discard (expect k rule)).Follows n fun w _ => ∃ l, w = [⟨k, l⟩] :=
  (follows_expect hk rule).map fun _ l hw => ⟨l, hw⟩

end

theorem Follows.orSkipUntil {r : Rule α} (h : r.Follows n P) (kinds : List Kind) :
    (r.orSkipUntil kinds).Follows n fun w a? => ∃ a, a? = some a ∧ P w a := by
  refine Parser.Follows.bind h fun w a? ha => ?_
  obtain ⟨a, rfl, ha⟩ := ha
  exact Parser.follows_pure ⟨a, rfl, by rwa [List.append_nil]⟩

/-- A chain keeps to its words if its operators are single symbols and its items keep to theirs. -/
theorem follows_chain {op : Parser (Option ω)} (ht : op.Takes) {item : Rule α}
    {O : Symbol → ω → Prop} {Q : List Symbol → List (ω × α) → Prop}
    (hop : ∀ n, op.Follows n fun w o? =>
      (∃ o s, o? = some o ∧ w = [s] ∧ O s o) ∨ o? = none ∧ w = [])
    (hitem : item.Follows n P) (hnil : Q [] [])
    (hcons : ∀ s o u a v as, O s o → P u a → Q v as → Q (s :: (u ++ v)) ((o, a) :: as)) :
    (chain op item).Follows n Q := by
  induction n with
  | zero => exact follows_zero ⟨[], [], hnil⟩
  | succ n ih =>
    -- The chain goes on behind an operator, so fewer symbols are left there.
    have hitem' := hitem.mono (Nat.le_succ n)
    refine follows_succ fun c hc => ?_
    rw [chain_eq ht]
    refine (followsAt_lift ((hop _).below c (Nat.lt_succ_self _))).bind fun w o? ho => ?_
    rcases ho with ⟨o, s, rfl, rfl, ho⟩ | ⟨rfl, rfl⟩
    · have hle : c.rest.length + 1 - [s].length ≤ n := by simp; omega
      exact (hitem'.bind fun u a ha => (ih hitem').bind_pure fun v as has =>
        hcons s o u a v as ho ha has).mono hle
    · exact follows_pure hnil

/-- What may stand behind a symbol of kind `k` is there with the symbol, or not at all. -/
theorem Follows.after? {r : Rule α} (h : r.Follows n P) {k : Kind} (hk : k ≠ .eof) :
    (after? k r).Follows n fun w a? =>
      (∃ a l u, a? = some a ∧ w = ⟨k, l⟩ :: u ∧ P u a) ∨ a? = none ∧ w = [] := by
  refine (follows_lift (follows_accept hk)).bind fun w found hfound => ?_
  rcases hfound with ⟨rfl, l, rfl⟩ | ⟨rfl, rfl⟩
  · exact h.bind_pure fun u a ha => .inl ⟨a, l, u, rfl, rfl, ha⟩
  · exact follows_pure (.inr ⟨rfl, rfl⟩)

end Rule

end ModSyntax
