import ModSyntax.Parse.Report

/-!
# Cursors

A place in a list of symbols. A cursor only ever moves forward: `Cursor.Reaches` says that one lies
at or behind another.
-/

namespace ModSyntax

/-- The symbols not yet read, and the number of those that are. -/
structure Cursor where
  rest : List Symbol
  index : Nat

namespace Cursor

def start (symbols : List Symbol) : Cursor := ⟨symbols, 0⟩

/-- The kind of the symbol at the cursor; at the end, the end of the input. -/
def kind (c : Cursor) : Kind :=
  match c.rest with
  | [] => .eof
  | s :: _ => s.kind

/-- The kind of the symbol behind the one at the cursor. -/
def secondKind (c : Cursor) : Kind :=
  match c.rest with
  | _ :: s :: _ => s.kind
  | _ => .eof

/-- The characters of the symbol at the cursor. -/
def lexeme (c : Cursor) : String :=
  match c.rest with
  | [] => ""
  | s :: _ => s.lexeme

/-- The cursor behind `n` symbols. -/
def drop (c : Cursor) (n : Nat) : Cursor := ⟨c.rest.drop n, c.index + n⟩

/-- The cursor behind the symbol at `c`; the end is never passed. -/
def next (c : Cursor) : Cursor :=
  match c.rest with
  | [] => c
  | _ :: rest => ⟨rest, c.index + 1⟩

/-- The cursor at the first symbol of one of the kinds, or at the end. -/
def skipUntil (c : Cursor) (kinds : List Kind) : Cursor :=
  c.drop (c.rest.takeWhile (·.kind ∉ kinds)).length

/-- Passing over symbols leads from `c` to `d`. -/
def Reaches (c d : Cursor) : Prop :=
  ∃ passed, c.rest = passed ++ d.rest ∧ d.index = c.index + passed.length

theorem Reaches.refl (c : Cursor) : c.Reaches c := ⟨[], rfl, rfl⟩

theorem Reaches.trans {a b c : Cursor} (h : a.Reaches b) (k : b.Reaches c) : a.Reaches c := by
  obtain ⟨p, hrest, hindex⟩ := h
  obtain ⟨q, krest, kindex⟩ := k
  exact ⟨p ++ q, by simp [hrest, krest], by simp [hindex, kindex, Nat.add_assoc]⟩

theorem Reaches.length_le {c d : Cursor} (h : c.Reaches d) : d.rest.length ≤ c.rest.length := by
  obtain ⟨p, hrest, -⟩ := h
  simp [hrest]

theorem reaches_next (c : Cursor) : c.Reaches c.next := by
  unfold next
  split
  · exact .refl c
  · next s rest h => exact ⟨[s], by simp [h], by simp⟩

theorem reaches_skipUntil (c : Cursor) (kinds : List Kind) : c.Reaches (c.skipUntil kinds) :=
  ⟨c.rest.takeWhile (·.kind ∉ kinds),
    (List.prefix_iff_eq_append.1 (List.takeWhile_prefix _)).symm, rfl⟩

/-- A search for symbols ends at one of them, or at the end. -/
theorem kind_skipUntil (c : Cursor) (kinds : List Kind) :
    (c.skipUntil kinds).kind ∈ .eof :: kinds := by
  obtain ⟨rest, index⟩ := c
  induction rest generalizing index with
  | nil => simp [skipUntil, drop, kind]
  | cons s rest ih =>
    by_cases h : s.kind ∈ kinds
    · simp [skipUntil, drop, kind, h]
    · simpa [skipUntil, drop, kind, h] using ih index

/-- A symbol that is looked for is found where it stands. -/
theorem skipUntil_of_mem {c : Cursor} {kinds : List Kind} (h : c.kind ∈ kinds) :
    c.skipUntil kinds = c := by
  obtain ⟨rest, index⟩ := c
  cases rest with
  | nil => rfl
  | cons s rest =>
    have hs : s.kind ∈ kinds := h
    simp [skipUntil, drop, hs]

/-- A search passes over a symbol that is not looked for. -/
theorem length_skipUntil_lt {c : Cursor} {kinds : List Kind} (h : c.kind ∉ .eof :: kinds) :
    (c.skipUntil kinds).rest.length < c.rest.length := by
  obtain ⟨rest, index⟩ := c
  cases rest with
  | nil => simp [kind] at h
  | cons s rest =>
    have hs : s.kind ∉ kinds := fun hk => h (List.mem_cons_of_mem _ hk)
    simp only [skipUntil, drop, List.takeWhile_cons, hs, not_false_eq_true, decide_true, if_true,
      List.length_cons, List.drop_succ_cons, List.length_drop]
    omega

/-- Before the end of the input, a step leaves fewer symbols. -/
theorem length_next_lt {c : Cursor} (h : c.kind ≠ .eof) :
    c.next.rest.length < c.rest.length := by
  unfold next
  unfold kind at h
  split <;> simp_all

end Cursor

end ModSyntax
