import Mathlib.Logic.Function.Iterate
import ModSyntax.Parse.Equations
import ModSyntax.Proofs.Stream

/-!
# Parsing ends, and stays inside its tokens

However a run of the parser is cut into pieces, the cursors between the pieces go forward, none
stands behind the first end of input, and there is a token at each of them. Every loop of the
parser, and every rule that calls itself, does so only behind a symbol that it has passed over since
it was called: calls do not nest deeper than symbols are left, so each of these parsers is the one
solution of its own equation (`compilationUnit_progress`).
-/

namespace ModSyntax

/-! ## Runs in pieces -/

namespace Parser

variable {α β : Type} {c : Cursor}

/-- The cursors at which the pieces of a run begin and end, in order, for any way to cut the run
into pieces. -/
inductive Passes : {α : Type} → Parser α → Cursor → List Cursor → Prop where
  | whole {α : Type} (p : Parser α) (c : Cursor) : Passes p c [c, (p.run c).next]
  | bind {α β : Type} {p : Parser α} {f : α → Parser β} {c : Cursor} {ds es : List Cursor} :
      Passes p c ds → Passes (f (p.run c).value) (p.run c).next es → Passes (p >>= f) c (ds ++ es)

/-- Every cursor of a run lies between its first and its last one. -/
theorem Passes.between {p : Parser α} {ds : List Cursor} (h : p.Passes c ds) :
    ∀ d ∈ ds, c.Reaches d ∧ d.Reaches (p.run c).next := by
  induction h with
  | whole p c =>
    intro d hd
    simp only [List.mem_cons, List.not_mem_nil, or_false] at hd
    rcases hd with rfl | rfl
    · exact ⟨.refl _, p.forward _⟩
    · exact ⟨p.forward c, .refl _⟩
  | @bind _ _ p f c ds es _ _ ihp ihf =>
    intro d hd
    rcases List.mem_append.1 hd with hd | hd
    · exact ⟨(ihp d hd).1, (ihp d hd).2.trans ((f _).forward _)⟩
    · exact ⟨(p.forward c).trans (ihf d hd).1, (ihf d hd).2⟩

/-- The cursors of a run only go forward. -/
theorem Passes.forward {p : Parser α} {ds : List Cursor} (h : p.Passes c ds) :
    ds.Pairwise Cursor.Reaches := by
  induction h with
  | whole p c => simpa using p.forward c
  | bind hp hf ihp ihf =>
    refine List.pairwise_append.2 ⟨ihp, ihf, fun d hd e he => ?_⟩
    exact (hp.between d hd).2.trans (hf.between e he).1

end Parser

/-! ## The tokens of a run -/

/-- A cursor on the tokens before the first end of input stands at one of the tokens, and has passed
no end of input. -/
theorem Cursor.Reaches.at_token {ts : List Token} {c : Cursor}
    (h : (Cursor.start (TokenStream.ofTokens ts).symbols).Reaches c) :
    (∀ t ∈ (terminated ts).take c.index, t.kind ≠ .eof) ∧ c.index < (terminated ts).length ∧
      (terminated ts)[c.index]?.map (·.kind) = some c.kind := by
  obtain ⟨passed, hrest, hindex⟩ := h
  obtain ⟨t, rest, ht, hts⟩ := terminated_eq ts
  obtain ⟨before, behind, hbody, hbefore, hbehind⟩ := List.map_eq_append_iff.1 hrest
  change ts.takeWhile (·.kind ≠ .eof) = before ++ behind at hbody
  have hlength : c.index = before.length := by
    rw [hindex, ← hbefore, List.length_map]
    exact Nat.zero_add _
  have hsplit : terminated ts = before ++ (behind ++ t :: rest) := by
    rw [hts, hbody, List.append_assoc]
  refine ⟨fun s hs => ?_, ?_, ?_⟩
  · have hs : s ∈ ts.takeWhile (·.kind ≠ .eof) := by
      rw [hsplit, hlength, List.take_left] at hs
      rw [hbody]
      exact List.mem_append_left behind hs
    simpa using List.all_eq_true.1 List.all_takeWhile s hs
  · simp only [hsplit, hlength, List.length_append, List.length_cons]
    omega
  · rw [hsplit, hlength, List.getElem?_append_right (Nat.le_refl _), Nat.sub_self, Cursor.kind,
      ← hbehind]
    cases behind with
    | nil => exact congrArg some ht
    | cons s behind => rfl

/-! ## Calls that pass over a symbol -/

namespace Parser

variable {α : Type} {step : Parser α → Parser α}

/-- Calls inside each other, one more than there are symbols left, leave no call open: what would be
called below them does not matter. -/
theorem Guarded.run_iterate (h : Guarded step) {p : Parser α} (hp : p = step p) (bottom : Parser α)
    {n : Nat} {c : Cursor} (hn : c.rest.length < n) : (step^[n] bottom).run c = p.run c := by
  induction n generalizing c with
  | zero => exact absurd hn (Nat.not_lt_zero _)
  | succ n ih =>
    rw [Function.iterate_succ_apply', hp]
    exact h _ _ c fun d hd => ih (by omega)

/-- One symbol that is passed over, unless it is of one of the kinds; `more` passes over those
behind it. -/
def skipUntilStep (kinds : List Kind) (more : Parser Unit) : Parser Unit := do
  if (← look fun c => c.rest.isEmpty) = true ∨ (← kind) ∈ kinds then
    return ()
  else
    skip
    more

theorem guarded_skipUntilStep (kinds : List Kind) : Guarded (skipUntilStep kinds) := by
  intro p q c hpq
  obtain ⟨rest, index⟩ := c
  cases rest with
  | nil => rfl
  | cons s rest =>
    have hnext := hpq ⟨rest, index + 1⟩ (Nat.lt_succ_self _)
    by_cases hk : s.kind ∈ kinds <;> simp [skipUntilStep, Cursor.kind, Cursor.next, hk, hnext]

theorem skipUntil_eq (kinds : List Kind) :
    skipUntil kinds = skipUntilStep kinds (skipUntil kinds) := by
  refine ext fun c => ?_
  obtain ⟨rest, index⟩ := c
  cases rest with
  | nil => rfl
  | cons s rest =>
    by_cases hk : s.kind ∈ kinds <;>
      simp [skipUntilStep, Cursor.kind, Cursor.next, Cursor.skipUntil, Cursor.drop, hk]
    omega

end Parser

namespace Rule

open ModSyntax.Parser

/-- The step of a rule that calls itself, on what the rule attempts. -/
def onAttempts {α β : Type} (step : Rule α → Rule β) (p : Parser (Option α)) : Parser (Option β) :=
  (step ⟨p⟩).attempt

/-- The parsers that repeat something or call themselves, each with the step that does. -/
inductive Recursion : {α : Type} → Parser α → (Parser α → Parser α) → Prop where
  | skipUntil (kinds : List Kind) : Recursion (skipUntil kinds) (skipUntilStep kinds)
  /-- The segments behind the first of a name. -/
  | segments (rule : Construct) :
      Recursion (chain dot (identifier rule)).attempt (onAttempts (chainStep dot (identifier rule)))
  /-- The items behind the first of a list with commas. -/
  | commas {α : Type} (item : Rule α) :
      Recursion (chain (operator fun k => if k = .comma then some () else none) item).attempt
        (onAttempts (chainStep (operator fun k => if k = .comma then some () else none) item))
  | factors :
      Recursion (chain (operator MulOp.ofKind?) factor).attempt
        (onAttempts (chainStep (operator MulOp.ofKind?) factor))
  | terms :
      Recursion (chain (operator AddOp.ofKind?) (termOf factor)).attempt
        (onAttempts (chainStep (operator AddOp.ofKind?) (termOf factor)))
  | factor : Recursion factor.attempt (onAttempts factorOf)
  | statement : Recursion statement.attempt (onAttempts statementOf)
  | sequence {closers : List Kind} : closers ∈ [sequenceEnd, thenEnd] →
      Recursion (sequence closers) (sequenceStep statement closers)
  | constDecls : Recursion (entries .constant constant) (entriesStep .constant constant)
  | varDecls : Recursion (entries .vars vars) (entriesStep .vars vars)
  | parameterList : Recursion parameterList parameterListStep
  | declarations (block : Parser Block) : Recursion (declarationsOf block) (declarationsStep block)
  | block : Recursion block blockOf
  | imports : Recursion imports importsStep

variable {α : Type} {p : Parser α} {step : Parser α → Parser α}

theorem Guarded.onAttempts {step : Rule α → Rule α} (h : Guarded step) :
    Parser.Guarded (onAttempts step) := fun p q c hpq => h ⟨p⟩ ⟨q⟩ c hpq

theorem not_statementStart {closers : List Kind} (h : closers ∈ [sequenceEnd, thenEnd]) :
    ∀ k ∈ closers, k ∉ statementStart :=
  (by decide : ∀ closers ∈ [sequenceEnd, thenEnd], ∀ k ∈ closers, k ∉ statementStart) closers h

/-- Each of the steps calls itself only behind a symbol that it has passed over. -/
theorem Recursion.guarded (h : Recursion p step) : Parser.Guarded step := by
  cases h with
  | skipUntil kinds => exact guarded_skipUntilStep kinds
  | segments rule => exact (guarded_chainStep takes_dot _).onAttempts
  | commas item => exact (guarded_chainStep (takes_operator (by simp)) item).onAttempts
  | factors => exact (guarded_chainStep (takes_operator rfl) _).onAttempts
  | terms => exact (guarded_chainStep (takes_operator rfl) _).onAttempts
  | factor => exact guarded_factorOf.onAttempts
  | statement => exact guarded_statementOf.onAttempts
  | sequence hclosers => exact guarded_sequenceStep takes_statement (not_statementStart hclosers)
  | constDecls => exact guarded_entriesStep .constant enters_constant
  | varDecls => exact guarded_entriesStep .vars enters_vars
  | parameterList => exact guarded_parameterListStep
  | declarations block => exact guarded_declarationsStep block
  | block => exact guarded_blockOf
  | imports => exact guarded_importsStep

/-- Each of the parsers is what its step makes of it. -/
theorem Recursion.eq_step (h : Recursion p step) : p = step p := by
  cases h with
  | skipUntil kinds => exact skipUntil_eq kinds
  | segments rule => exact congrArg attempt (chain_eq takes_dot _)
  | commas item => exact congrArg attempt (chain_eq (takes_operator (by simp)) item)
  | factors => exact congrArg attempt (chain_eq (takes_operator rfl) _)
  | terms => exact congrArg attempt (chain_eq (takes_operator rfl) _)
  | factor => exact congrArg attempt factor_eq
  | statement => exact congrArg attempt statement_eq
  | sequence hclosers => exact sequence_eq (not_statementStart hclosers)
  | constDecls => exact entries_eq .constant enters_constant
  | varDecls => exact entries_eq .vars enters_vars
  | parameterList => exact parameterList_eq
  | declarations block => exact declarationsOf_eq block
  | block => exact block_eq
  | imports => exact imports_eq

end Rule

/-- However a run over any tokens is cut into pieces, its cursors go forward, stand at a token, and
pass no end of input. Every step that repeats or calls itself has passed over a symbol before it
does, and calls inside each other number at most one more than the symbols that are left. -/
theorem compilationUnit_progress :
    (∀ (ts : List Token) (cs : List Cursor),
      Rule.compilationUnit.Passes (.start (TokenStream.ofTokens ts).symbols) cs →
      cs.Pairwise (·.index ≤ ·.index) ∧
      ∀ c ∈ cs, (∀ t ∈ (terminated ts).take c.index, t.kind ≠ .eof) ∧
        c.index < (terminated ts).length ∧
        (terminated ts)[c.index]?.map (·.kind) = some c.kind) ∧
    (∀ {α : Type} (p : Parser α) (step : Parser α → Parser α), Rule.Recursion p step →
      Parser.Guarded step ∧ p = step p ∧
      ∀ (bottom : Parser α) (c : Cursor), (step^[c.rest.length + 1] bottom).run c = p.run c) := by
  constructor
  · intro ts cs hcs
    refine ⟨hcs.forward.imp fun hreach => ?_, fun c hc => (hcs.between c hc).1.at_token⟩
    obtain ⟨passed, -, hindex⟩ := hreach
    omega
  · intro α p step h
    exact ⟨h.guarded, h.eq_step, fun bottom c =>
      h.guarded.run_iterate h.eq_step bottom (Nat.lt_succ_self _)⟩

/-- Behind the heading of a module that an end of input cuts off, the cursor stands at that end,
with a token behind it. -/
theorem compilationUnit_progress_cut_off :
    let ts : List Token :=
      [Symbol.ofKind .kwModule, .ofKind .eof, .ofKind .kwEnd].map fun s => ⟨s, .start⟩
    let c := Cursor.start (TokenStream.ofTokens ts).symbols
    let d := (Rule.heading.run c).next
    Rule.compilationUnit.Passes c [c, d, d, (Rule.compilationUnit.run c).next] ∧
    d.index = 1 ∧ d.index < (terminated ts).length ∧
    (terminated ts)[d.index]?.map (·.kind) = some .eof ∧ Parser.Guarded Rule.importsStep := by
  intro ts c d
  have hpasses (c : Cursor) : Rule.compilationUnit.Passes c
      [c, (Rule.heading.run c).next, (Rule.heading.run c).next,
        (Rule.compilationUnit.run c).next] :=
    .bind (.whole _ _) (.whole _ _)
  have hkind : d.kind = .eof := by decide +kernel
  have htoken := (compilationUnit_progress.1 ts _ (hpasses c)).2 d (.tail _ (.head _))
  rw [hkind] at htoken
  exact ⟨hpasses c, by decide +kernel, htoken.2.1, htoken.2.2,
    (compilationUnit_progress.2 _ _ .imports).1⟩

end ModSyntax
