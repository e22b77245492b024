import ModSyntax.Parse.Equations

/-!
# Reading words

What a parser does with a word of the language in front of it. `Parser.Reads p word a follow` says
that `p` takes exactly `word`, wherever a symbol of one of the kinds `follow` stands behind it,
gives `a`, and has nothing to report. Rules are put together from rules that read, and so do the
words.

Some words are read with reports: where the body of an `IF` or a `WHILE` is left empty, the parser
reports the symbol that closes it and goes on. `Parser.ReadsAt` gives the reports on a word that
begins at a certain index, and `Parser.ReadsWith d n` says that there are `n` of them, no two on one
symbol.
-/

namespace ModSyntax

/-- The kind of the first symbol; if there is none, the end of the input. -/
def headKind : List Symbol → Kind
  | [] => .eof
  | s :: _ => s.kind

@[simp] theorem headKind_nil : headKind [] = .eof := rfl

@[simp] theorem headKind_cons (s : Symbol) (rest : List Symbol) :
    headKind (s :: rest) = s.kind := rfl

theorem headKind_append_of_ne {u : List Symbol} (h : headKind u ≠ .eof) (v : List Symbol) :
    headKind (u ++ v) = headKind u := by
  cases u with
  | nil => simp at h
  | cons s u => rfl

/-- What follows a word that may be empty begins like the word, or is what stands behind it. -/
theorem headKind_append_mem {word rest : List Symbol} {start near : List Kind}
    (hword : word = [] ∨ headKind word ∈ start) (heof : .eof ∉ start)
    (hrest : headKind rest ∈ near) : headKind (word ++ rest) ∈ start ++ near := by
  rcases hword with rfl | hword
  · exact List.mem_append_right _ hrest
  · rw [headKind_append_of_ne fun he => heof (he ▸ hword)]
    exact List.mem_append_left _ hword

@[simp] theorem Cursor.kind_mk (rest : List Symbol) (index : Nat) :
    Cursor.kind ⟨rest, index⟩ = headKind rest := by
  cases rest <;> rfl

@[simp] theorem Cursor.next_cons (s : Symbol) (rest : List Symbol) (index : Nat) :
    Cursor.next ⟨s :: rest, index⟩ = ⟨rest, index + 1⟩ := rfl

@[simp] theorem Cursor.lexeme_cons (s : Symbol) (rest : List Symbol) (index : Nat) :
    Cursor.lexeme ⟨s :: rest, index⟩ = s.lexeme := rfl

@[simp] theorem Cursor.secondKind_cons (s : Symbol) (rest : List Symbol) (index : Nat) :
    Cursor.secondKind ⟨s :: rest, index⟩ = headKind rest := by
  cases rest <;> rfl

theorem Cursor.skipUntil_cons {s : Symbol} {kinds : List Kind} (hs : s.kind ∉ kinds)
    (rest : List Symbol) (index : Nat) :
    Cursor.skipUntil ⟨s :: rest, index⟩ kinds = Cursor.skipUntil ⟨rest, index + 1⟩ kinds := by
  simp [Cursor.skipUntil, drop, hs]
  omega

/-- A search passes over a word without the symbols looked for. -/
theorem Cursor.skipUntil_past {word rest : List Symbol} {kinds : List Kind}
    (hword : ∀ s ∈ word, s.kind ∉ kinds) (hrest : headKind rest ∈ kinds) (index : Nat) :
    Cursor.skipUntil ⟨word ++ rest, index⟩ kinds = ⟨rest, index + word.length⟩ := by
  induction word generalizing index with
  | nil => exact skipUntil_of_mem (by simpa using hrest)
  | cons s word ih =>
    obtain ⟨hs, hword⟩ := List.forall_mem_cons.1 hword
    rw [List.cons_append, skipUntil_cons hs, ih hword, List.length_cons]
    simp only [Cursor.mk.injEq, true_and]
    omega

/-- The outcome of a parser behind others that gave `as` and made the reports. -/
def Outcome.behind {α : Type} (as : List α) (reports : List Report) (o : Outcome (List α)) :
    Outcome (List α) :=
  ⟨as ++ o.value, o.next, reports ++ o.reports⟩

/-! ## Reports on symbols of their own -/

/-- `n` reports in the order of the symbols, each on a symbol of its own from `lo` to `hi`. -/
structure Marks (lo hi n : Nat) (reports : List Report) : Prop where
  length : reports.length = n
  increasing : reports.Pairwise (·.index < ·.index)
  bounds : ∀ r ∈ reports, lo ≤ r.index ∧ r.index ≤ hi

namespace Marks

variable {lo mid hi n m : Nat} {rs ss : List Report}

theorem nil (lo hi : Nat) : Marks lo hi 0 [] := ⟨rfl, .nil, by simp⟩

theorem single (index : Nat) (complaint : Complaint) :
    Marks index index 1 [⟨index, complaint⟩] := ⟨rfl, by simp, by simp⟩

theorem mono (h : Marks lo hi n rs) {lo' hi' : Nat} (hlo : lo' ≤ lo) (hhi : hi ≤ hi') :
    Marks lo' hi' n rs :=
  ⟨h.length, h.increasing, fun r hr => by have := h.bounds r hr; omega⟩

theorem append (h : Marks lo mid n rs) (k : Marks (mid + 1) hi m ss) {lo' hi' : Nat}
    (hlo : lo' ≤ lo ∧ lo' ≤ mid + 1) (hhi : mid ≤ hi' ∧ hi ≤ hi') :
    Marks lo' hi' (n + m) (rs ++ ss) := by
  refine ⟨by simp [h.length, k.length], List.pairwise_append.2 ⟨h.increasing, k.increasing, ?_⟩, ?_⟩
  · intro r hr s hs
    have := h.bounds r hr
    have := k.bounds s hs
    omega
  · intro r hr
    rcases List.mem_append.1 hr with hr | hr
    · have := h.bounds r hr
      omega
    · have := k.bounds r hr
      omega

/-- Reports on symbols of their own are all kept. -/
theorem firstPerSymbol_eq (h : Marks lo hi n rs) : Report.firstPerSymbol rs = rs := by
  have hafter : ∀ (rs : List Report) (last : Nat), (∀ r ∈ rs, last < r.index) →
      rs.Pairwise (·.index < ·.index) → Report.firstPerSymbol.afterIndex last rs = rs := by
    intro rs
    induction rs with
    | nil => intros; rfl
    | cons r rs ih =>
      intro last hlast hpair
      obtain ⟨hhead, htail⟩ := List.pairwise_cons.1 hpair
      have hne : r.index ≠ last := Nat.ne_of_gt (hlast r (by simp))
      rw [Report.firstPerSymbol.afterIndex, if_neg hne, ih _ hhead htail]
  cases rs with
  | nil => rfl
  | cons r rs =>
    obtain ⟨hhead, htail⟩ := List.pairwise_cons.1 h.increasing
    rw [Report.firstPerSymbol, hafter rs _ hhead htail]

end Marks

namespace Parser

variable {α β : Type} {u v word : List Symbol} {a : α} {b : β} {follow near : List Kind}
  {i d n : Nat} {rs ss : List Report}

/-- In front of a symbol of one of the kinds `follow`, the parser takes exactly `word`, gives `a`,
and reports nothing. -/
def Reads (p : Parser α) (word : List Symbol) (a : α) (follow : List Kind) : Prop :=
  ∀ rest index, headKind rest ∈ follow →
    p.run ⟨word ++ rest, index⟩ = ⟨a, ⟨rest, index + word.length⟩, []⟩

theorem Reads.mono {p : Parser α} (h : p.Reads word a near) (hsub : follow ⊆ near) :
    p.Reads word a follow := fun rest index hrest => h rest index (hsub hrest)

/-- One word behind another; the second begins with what may follow the first. -/
theorem Reads.bind {p : Parser α} {f : α → Parser β} (hp : p.Reads u a near)
    (hf : (f a).Reads v b follow)
    (hnear : ∀ rest, headKind rest ∈ follow → headKind (v ++ rest) ∈ near) :
    (p >>= f).Reads (u ++ v) b follow := by
  intro rest index hrest
  have hfirst := hp (v ++ rest) index (hnear rest hrest)
  have hsecond := hf rest (index + u.length) hrest
  simp only [run_bind, List.append_assoc, hfirst, hsecond, List.length_append, List.nil_append,
    Nat.add_assoc]

/-- What follows a word and takes nothing. -/
theorem Reads.bind_nil {p : Parser α} {f : α → Parser β} (hp : p.Reads word a near)
    (hf : (f a).Reads [] b follow) (hsub : follow ⊆ near) : (p >>= f).Reads word b follow := by
  have h := hp.bind hf fun _ hrest => hsub hrest
  rwa [List.append_nil] at h

/-- A word of one symbol, whatever stands behind it. -/
theorem Reads.cons {p : Parser α} {f : α → Parser β} {s : Symbol} (hp : ∀ near, p.Reads [s] a near)
    (hf : (f a).Reads v b follow) : (p >>= f).Reads (s :: v) b follow :=
  (hp Kind.all).bind hf fun _ _ => Kind.mem_all _

/-- A value made of what a parser reads. -/
theorem Reads.bind_pure {p : Parser α} (h : p.Reads word a follow) (f : α → β) :
    (p >>= fun a => pure (f a)).Reads word (f a) follow := by
  intro rest index hrest
  simp [h rest index hrest]

/-- What follows decides that nothing is read. -/
theorem reads_kind_bind_nil {f : Kind → Parser β} (h : ∀ k ∈ follow, (f k).Reads [] b follow) :
    (kind >>= f).Reads [] b follow := by
  intro rest index hrest
  rw [run_kind_bind]
  exact h _ hrest rest index hrest

theorem reads_pure (a : α) (follow : List Kind) : (pure a : Parser α).Reads [] a follow :=
  fun _ _ _ => rfl

theorem reads_skip (s : Symbol) (follow : List Kind) : skip.Reads [s] () follow :=
  fun _ _ _ => rfl

theorem reads_accept (k : Kind) (l : String) (follow : List Kind) :
    (accept k).Reads [⟨k, l⟩] true follow := by
  intro rest index _
  simp

theorem reads_accept_absent {k : Kind} (h : k ∉ follow) : (accept k).Reads [] false follow := by
  intro rest index hrest
  have hne : headKind rest ≠ k := fun he => h (he ▸ hrest)
  simp [hne]

theorem reads_operator {ofKind? : Kind → Option α} {k : Kind} (h : ofKind? k = some a) (l : String)
    (follow : List Kind) : (operator ofKind?).Reads [⟨k, l⟩] (some a) follow := by
  intro rest index _
  simp [operator, h]

theorem reads_operator_absent {ofKind? : Kind → Option α} (h : ∀ k ∈ follow, ofKind? k = none) :
    (operator ofKind?).Reads [] none follow := by
  intro rest index hrest
  simp [operator, h _ hrest]

/-! ## Words with reports -/

/-- In front of a symbol of one of the kinds `follow`, the parser takes exactly `word`, which begins
at `index`, gives `a`, and makes the reports. -/
def ReadsAt (index : Nat) (p : Parser α) (word : List Symbol) (a : α) (reports : List Report)
    (follow : List Kind) : Prop :=
  ∀ rest, headKind rest ∈ follow →
    p.run ⟨word ++ rest, index⟩ = ⟨a, ⟨rest, index + word.length⟩, reports⟩

theorem Reads.readsAt {p : Parser α} (h : p.Reads word a follow) (i : Nat) :
    p.ReadsAt i word a [] follow := fun rest hrest => h rest i hrest

theorem ReadsAt.mono {p : Parser α} (h : p.ReadsAt i word a rs near) (hsub : follow ⊆ near) :
    p.ReadsAt i word a rs follow := fun rest hrest => h rest (hsub hrest)

theorem reads_of_readsAt {p : Parser α} (h : ∀ i, p.ReadsAt i word a [] follow) :
    p.Reads word a follow := fun rest i => h i rest

/-- One word behind another; the second begins with what may follow the first. -/
theorem ReadsAt.bind {p : Parser α} {f : α → Parser β} (hp : p.ReadsAt i u a rs near)
    (hf : (f a).ReadsAt (i + u.length) v b ss follow)
    (hnear : ∀ rest, headKind rest ∈ follow → headKind (v ++ rest) ∈ near) :
    (p >>= f).ReadsAt i (u ++ v) b (rs ++ ss) follow := by
  intro rest hrest
  have hfirst := hp (v ++ rest) (hnear rest hrest)
  have hsecond := hf rest hrest
  simp only [run_bind, List.append_assoc, hfirst, hsecond, List.length_append, Nat.add_assoc]

/-- A word without reports behind one that may have some. -/
theorem ReadsAt.bind_reads {p : Parser α} {f : α → Parser β} (hp : p.ReadsAt i u a rs near)
    (hf : (f a).Reads v b follow)
    (hnear : ∀ rest, headKind rest ∈ follow → headKind (v ++ rest) ∈ near) :
    (p >>= f).ReadsAt i (u ++ v) b rs follow := by
  have h := hp.bind (hf.readsAt _) hnear
  rwa [List.append_nil] at h

theorem ReadsAt.bind_nil {p : Parser α} {f : α → Parser β} (hp : p.ReadsAt i word a rs near)
    (hf : (f a).Reads [] b follow) (hsub : follow ⊆ near) :
    (p >>= f).ReadsAt i word b rs follow := by
  have h := hp.bind_reads hf fun _ hrest => hsub hrest
  rwa [List.append_nil] at h

/-- A word with reports behind one that has none. -/
theorem Reads.bind_at {p : Parser α} {f : α → Parser β} (hp : p.Reads u a near)
    (hf : (f a).ReadsAt (i + u.length) v b ss follow)
    (hnear : ∀ rest, headKind rest ∈ follow → headKind (v ++ rest) ∈ near) :
    (p >>= f).ReadsAt i (u ++ v) b ss follow := (hp.readsAt i).bind hf hnear

/-- A word with reports behind one symbol. -/
theorem ReadsAt.cons {p : Parser α} {f : α → Parser β} {s : Symbol}
    (hp : ∀ near, p.Reads [s] a near) (hf : (f a).ReadsAt (i + 1) v b ss follow) :
    (p >>= f).ReadsAt i (s :: v) b ss follow :=
  (hp Kind.all).bind_at hf fun _ _ => Kind.mem_all _

theorem ReadsAt.bind_pure {p : Parser α} (h : p.ReadsAt i word a rs follow) (f : α → β) :
    (p >>= fun a => pure (f a)).ReadsAt i word (f a) rs follow := by
  intro rest hrest
  simp [h rest hrest]

/-- The next symbol decides how a word is read. -/
theorem readsAt_kind_bind {f : Kind → Parser β} (k : Kind) (hk : headKind word = k)
    (hne : k ≠ .eof) (h : (f k).ReadsAt i word b rs follow) :
    (kind >>= f).ReadsAt i word b rs follow := by
  intro rest hrest
  rw [run_kind_bind, Cursor.kind_mk, headKind_append_of_ne (hk ▸ hne), hk]
  exact h rest hrest

/-- The parser reads the word at `index`, with the reports; the word is empty or begins with one of
the kinds `start`. -/
structure ReadsMoreAt (start : List Kind) (p : Parser α) (a : α) (follow : List Kind) (index : Nat)
    (word : List Symbol) (reports : List Report) : Prop where
  reads : p.ReadsAt index word a reports follow
  opens : word = [] ∨ headKind word ∈ start

theorem ReadsMoreAt.headKind_append {start : List Kind} {p : Parser α}
    (h : p.ReadsMoreAt start a follow i word rs) (heof : .eof ∉ start) {rest : List Symbol}
    (hrest : headKind rest ∈ near) : headKind (word ++ rest) ∈ start ++ near :=
  headKind_append_mem h.opens heof hrest

/-- In front of a symbol of one of the kinds `follow`, the parser takes exactly `word`, gives `a`,
and reports `n` symbols, from the one behind `d` others to the one behind the word. -/
def ReadsWith (d n : Nat) (p : Parser α) (word : List Symbol) (a : α) (follow : List Kind) : Prop :=
  ∀ index, ∃ reports, p.ReadsAt index word a reports follow ∧
    Marks (index + d) (index + word.length) n reports

theorem Reads.readsWith {p : Parser α} (h : p.Reads word a follow) (d : Nat) :
    p.ReadsWith d 0 word a follow := fun index => ⟨[], h.readsAt index, .nil _ _⟩

theorem ReadsWith.weaken {p : Parser α} (h : p.ReadsWith 1 n word a follow) :
    p.ReadsWith 0 n word a follow := by
  intro index
  obtain ⟨rs, hreads, hmarks⟩ := h index
  exact ⟨rs, hreads, hmarks.mono (by omega) (by omega)⟩

end Parser

namespace Rule

open ModSyntax.Parser

variable {α β ω : Type} {u v word : List Symbol} {a : α} {b : β} {follow near : List Kind}
  {i d n : Nat} {rs ss : List Report}

/-- The rule takes exactly `word`, in front of a symbol of one of the kinds `follow`, and gives
`a`. -/
def Reads (r : Rule α) (word : List Symbol) (a : α) (follow : List Kind) : Prop :=
  r.attempt.Reads word (some a) follow

theorem Reads.mono {r : Rule α} (h : r.Reads word a near) (hsub : follow ⊆ near) :
    r.Reads word a follow := Parser.Reads.mono h hsub

/-- One word behind another; the second begins with what may follow the first. -/
theorem Reads.bind {r : Rule α} {f : α → Rule β} (hr : r.Reads u a near)
    (hf : (f a).Reads v b follow)
    (hnear : ∀ rest, headKind rest ∈ follow → headKind (v ++ rest) ∈ near) :
    (r >>= f).Reads (u ++ v) b follow := Parser.Reads.bind hr hf hnear

/-- What follows a word from a fixed symbol on. -/
theorem Reads.bind_cons {r : Rule α} {f : α → Rule β} {s : Symbol} (hr : r.Reads u a near)
    (hf : (f a).Reads (s :: v) b follow) (hs : s.kind ∈ near) :
    (r >>= f).Reads (u ++ s :: v) b follow := hr.bind hf fun _ _ => hs

/-- What follows a word and takes nothing. -/
theorem Reads.bind_nil {r : Rule α} {f : α → Rule β} (hr : r.Reads word a near)
    (hf : (f a).Reads [] b follow) (hsub : follow ⊆ near) : (r >>= f).Reads word b follow :=
  Parser.Reads.bind_nil hr hf hsub

/-- A word of one symbol, whatever stands behind it. -/
theorem Reads.cons {r : Rule α} {f : α → Rule β} {s : Symbol} (hr : ∀ near, r.Reads [s] a near)
    (hf : (f a).Reads v b follow) : (r >>= f).Reads (s :: v) b follow := Parser.Reads.cons hr hf

/-- A look at the next symbol takes nothing. -/
theorem Reads.look {r : Rule α} {f : α → Rule β} (hr : r.Reads [] a near)
    (hf : (f a).Reads v b follow)
    (hnear : ∀ rest, headKind rest ∈ follow → headKind (v ++ rest) ∈ near) :
    (r >>= f).Reads v b follow := hr.bind hf hnear

theorem reads_pure (a : α) (follow : List Kind) : (pure a : Rule α).Reads [] a follow :=
  Parser.reads_pure (some a) follow

/-- What is lifted cannot fail. -/
theorem attempt_lift_bind (p : Parser α) (f : α → Rule β) :
    ((liftM p : Rule α) >>= f).attempt = p >>= fun a => (f a).attempt :=
  Parser.ext fun c => by simp

theorem reads_lift {p : Parser α} (h : p.Reads word a follow) :
    (liftM p : Rule α).Reads word a follow := by
  intro rest index hrest
  simp [h rest index hrest]

theorem Reads.map {r : Rule α} (h : r.Reads word a follow) (f : α → β) :
    (f <$> r).Reads word (f a) follow := by
  intro rest index hrest
  simp [h rest index hrest]

/-- A value made of what a rule reads. -/
theorem Reads.bind_pure {r : Rule α} (h : r.Reads word a follow) (f : α → β) :
    (r >>= fun a => pure (f a)).Reads word (f a) follow := by
  rw [bind_pure_comp]
  exact h.map f

theorem reads_expect (k : Kind) (l : String) (rule : Construct) (follow : List Kind) :
    (expect k rule).Reads [⟨k, l⟩] l follow := by
  intro rest index _
  simp [expect]

theorem reads_identifier (n : String) (rule : Construct) (follow : List Kind) :
    (identifier rule).Reads [⟨.identifier, n⟩] n follow := reads_expect .identifier n rule follow

theorem reads_discard_expect (k : Kind) (l : String) (rule : Construct) (follow : List Kind) :
    (discard (expect k rule)).Reads [⟨k, l⟩] () follow := (reads_expect k l rule follow).map _

/-- The next symbol decides how a word is read. -/
theorem reads_kind_bind {f : Kind → Rule β} (k : Kind) (hk : headKind word = k) (hne : k ≠ .eof)
    (h : (f k).Reads word b follow) :
    ((liftM Parser.kind : Rule Kind) >>= f).Reads word b follow := by
  intro rest index hrest
  rw [attempt_kind_bind, Cursor.kind_mk, headKind_append_of_ne (hk ▸ hne), hk]
  exact h rest index hrest

/-- What follows decides that nothing is read. -/
theorem reads_kind_bind_nil {f : Kind → Rule β} (h : ∀ k ∈ follow, (f k).Reads [] b follow) :
    ((liftM Parser.kind : Rule Kind) >>= f).Reads [] b follow := by
  intro rest index hrest
  rw [attempt_kind_bind]
  exact h _ hrest rest index hrest

/-- The rule takes exactly `word`, which begins at `index`, gives `a`, and makes the reports. -/
def ReadsAt (index : Nat) (r : Rule α) (word : List Symbol) (a : α) (reports : List Report)
    (follow : List Kind) : Prop := r.attempt.ReadsAt index word (some a) reports follow

theorem Reads.readsAt {r : Rule α} (h : r.Reads word a follow) (i : Nat) :
    r.ReadsAt i word a [] follow := Parser.Reads.readsAt h i

theorem reads_of_readsAt {r : Rule α} (h : ∀ i, r.ReadsAt i word a [] follow) :
    r.Reads word a follow := Parser.reads_of_readsAt h

theorem ReadsAt.bind {r : Rule α} {f : α → Rule β} (hr : r.ReadsAt i u a rs near)
    (hf : (f a).ReadsAt (i + u.length) v b ss follow)
    (hnear : ∀ rest, headKind rest ∈ follow → headKind (v ++ rest) ∈ near) :
    (r >>= f).ReadsAt i (u ++ v) b (rs ++ ss) follow := Parser.ReadsAt.bind hr hf hnear

theorem ReadsAt.bind_reads {r : Rule α} {f : α → Rule β} (hr : r.ReadsAt i u a rs near)
    (hf : (f a).Reads v b follow)
    (hnear : ∀ rest, headKind rest ∈ follow → headKind (v ++ rest) ∈ near) :
    (r >>= f).ReadsAt i (u ++ v) b rs follow := Parser.ReadsAt.bind_reads hr hf hnear

theorem Reads.bind_at {r : Rule α} {f : α → Rule β} (hr : r.Reads u a near)
    (hf : (f a).ReadsAt (i + u.length) v b ss follow)
    (hnear : ∀ rest, headKind rest ∈ follow → headKind (v ++ rest) ∈ near) :
    (r >>= f).ReadsAt i (u ++ v) b ss follow := Parser.Reads.bind_at hr hf hnear

theorem ReadsAt.cons {r : Rule α} {f : α → Rule β} {s : Symbol} (hr : ∀ near, r.Reads [s] a near)
    (hf : (f a).ReadsAt (i + 1) v b ss follow) : (r >>= f).ReadsAt i (s :: v) b ss follow :=
  Parser.ReadsAt.cons hr hf

theorem ReadsAt.bind_pure {r : Rule α} (h : r.ReadsAt i word a rs follow) (f : α → β) :
    (r >>= fun a => pure (f a)).ReadsAt i word (f a) rs follow := by
  intro rest hrest
  simp [h rest hrest]

/-- The next symbol decides how a word is read. -/
theorem readsAt_kind_bind {f : Kind → Rule β} (k : Kind) (hk : headKind word = k) (hne : k ≠ .eof)
    (h : (f k).ReadsAt i word b rs follow) :
    ((liftM Parser.kind : Rule Kind) >>= f).ReadsAt i word b rs follow := by
  intro rest hrest
  rw [attempt_kind_bind, Cursor.kind_mk, headKind_append_of_ne (hk ▸ hne), hk]
  exact h rest hrest

theorem readsAt_lift {p : Parser α} (h : p.ReadsAt i word a rs follow) :
    (liftM p : Rule α).ReadsAt i word a rs follow := by
  intro rest hrest
  simp [h rest hrest]

/-- The rule takes exactly `word` and gives `a`, with `n` reports. -/
def ReadsWith (d n : Nat) (r : Rule α) (word : List Symbol) (a : α) (follow : List Kind) : Prop :=
  r.attempt.ReadsWith d n word (some a) follow

theorem Reads.readsWith {r : Rule α} (h : r.Reads word a follow) (d : Nat) :
    r.ReadsWith d 0 word a follow := Parser.Reads.readsWith h d

/-! ## Lists -/

theorem reads_chain_nil {op : Parser (Option ω)} (ht : op.Takes)
    (h : op.Reads [] none follow) (item : Rule α) : (chain op item).Reads [] [] follow := by
  rw [chain_eq ht]
  exact Reads.look (reads_lift h) (reads_pure _ _) fun _ hrest => hrest

/-- One more item, behind its operator. -/
theorem reads_chain_cons {op : Parser (Option ω)} (ht : op.Takes) {o : ω} {s : Symbol}
    {item : Rule α} {as : List (ω × α)} (hop : op.Reads [s] (some o) [headKind u])
    (hu : headKind u ≠ .eof) (hitem : item.Reads u a near)
    (hmore : (chain op item).Reads v as follow)
    (hnear : ∀ rest, headKind rest ∈ follow → headKind (v ++ rest) ∈ near) :
    (chain op item).Reads (s :: (u ++ v)) ((o, a) :: as) follow := by
  rw [chain_eq ht]
  refine Reads.bind (u := [s]) (reads_lift hop)
    (hitem.bind (hmore.bind_pure fun l => (o, a) :: l) hnear) fun rest _ => ?_
  simp [headKind_append_of_ne hu]

theorem takes_comma :
    (operator fun k => if k = Kind.comma then some () else none).Takes :=
  takes_operator (by simp)

theorem reads_commaList {item : Rule α} {as : List (Unit × α)} (hitem : item.Reads u a near)
    (hmore : (chain (operator fun k => if k = .comma then some () else none) item).Reads v as
      follow)
    (hnear : ∀ rest, headKind rest ∈ follow → headKind (v ++ rest) ∈ near) :
    (commaList item).Reads (u ++ v) (a :: as.map Prod.snd) follow :=
  hitem.bind (hmore.bind_pure fun l => a :: l.map Prod.snd) hnear

/-! ## Words by their first symbol -/

/-- The rule reads the word, which begins with one of the kinds `start`. -/
structure ReadsFrom (start : List Kind) (r : Rule α) (word : List Symbol) (a : α)
    (follow : List Kind) : Prop where
  reads : r.Reads word a follow
  opens : headKind word ∈ start

/-- The rule reads the word, which is empty or begins with one of the kinds `start`. -/
structure ReadsMore (start : List Kind) (r : Rule α) (word : List Symbol) (a : α)
    (follow : List Kind) : Prop where
  reads : r.Reads word a follow
  opens : word = [] ∨ headKind word ∈ start

theorem ReadsMore.headKind_append {start : List Kind} {r : Rule α}
    (h : r.ReadsMore start word a follow) (heof : .eof ∉ start) {rest : List Symbol}
    (hrest : headKind rest ∈ near) : headKind (word ++ rest) ∈ start ++ near :=
  headKind_append_mem h.opens heof hrest

theorem ReadsFrom.mono {start : List Kind} {r : Rule α} (h : r.ReadsFrom start word a near)
    (hsub : follow ⊆ near) : r.ReadsFrom start word a follow := ⟨h.reads.mono hsub, h.opens⟩

theorem ReadsFrom.headKind_ne {start : List Kind} {r : Rule α}
    (h : r.ReadsFrom start word a follow) (heof : .eof ∉ start) : headKind word ≠ .eof :=
  fun he => heof (he ▸ h.opens)

theorem ReadsFrom.headKind_append {start : List Kind} {r : Rule α}
    (h : r.ReadsFrom start word a follow) (heof : .eof ∉ start) (rest : List Symbol) :
    headKind (word ++ rest) ∈ start := by
  rw [headKind_append_of_ne (h.headKind_ne heof)]
  exact h.opens

/-- What follows the first item of a list begins with an operator, or is what follows the list. -/
theorem ReadsFrom.bind_more {start ops : List Kind} {r : Rule α} {f : α → Rule β}
    (hr : r.ReadsFrom start u a (ops ++ follow)) (hf : (f a).ReadsMore ops v b follow)
    (heof : .eof ∉ start ++ ops) : (r >>= f).ReadsFrom start (u ++ v) b follow where
  reads := hr.reads.bind hf.reads fun _ hrest =>
    hf.headKind_append (fun h => heof (List.mem_append_right _ h)) hrest
  opens := hr.headKind_append (fun h => heof (List.mem_append_left _ h)) v

theorem ReadsMore.bind_pure {start : List Kind} {r : Rule α} (h : r.ReadsMore start word a follow)
    (f : α → β) : (r >>= fun a => pure (f a)).ReadsMore start word (f a) follow :=
  ⟨h.reads.bind_pure f, h.opens⟩

theorem readsMore_chain_nil {op : Parser (Option ω)} (ht : op.Takes) {ops : List Kind}
    (h : op.Reads [] none follow) (item : Rule α) : (chain op item).ReadsMore ops [] [] follow :=
  ⟨reads_chain_nil ht h item, .inl rfl⟩

theorem readsMore_chain_cons {op : Parser (Option ω)} (ht : op.Takes) {start ops : List Kind}
    {o : ω} {s : Symbol} {item : Rule α} {as : List (ω × α)}
    (hop : ∀ near, op.Reads [s] (some o) near) (hs : s.kind ∈ ops) (heof : .eof ∉ start ++ ops)
    (hitem : item.ReadsFrom start u a (ops ++ follow))
    (hmore : (chain op item).ReadsMore ops v as follow) :
    (chain op item).ReadsMore ops (s :: (u ++ v)) ((o, a) :: as) follow where
  reads := reads_chain_cons ht (hop _)
    (hitem.headKind_ne fun h => heof (List.mem_append_left _ h)) hitem.reads hmore.reads
    fun _ hrest => hmore.headKind_append (fun h => heof (List.mem_append_right _ h)) hrest
  opens := .inr hs

end Rule

end ModSyntax
