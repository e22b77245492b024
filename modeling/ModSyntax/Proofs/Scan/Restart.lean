import ModSyntax.Proofs.Scan.Tiling

/-!
# A lexer goes through one list of items

The items of a text are a fixed list, which scanning it to the end gives. Whatever is asked of a
lexer, and in whatever order, each of its answers is read off this list: its place in the list is
the number of items asked for since the last time it was set back (`Lexer.next?_after`).

The invariant is that the items left are those of the text from that place on. A call for an item
drops the first of them (`Lexer.items_next`), and setting the lexer back restores all of them, since
it keeps the whole text (`Lexer.source_call`).
-/

namespace ModSyntax.Lexer

/-! ## Calls -/

/-- What is asked of a lexer: its next item, or to go back to the beginning. -/
inductive Call where
  | next
  | reset
deriving DecidableEq

/-- The lexer behind a call. If there is no next item, it stays as it is. -/
def call (l : Lexer) : Call → Lexer
  | .next => (l.next?.map Prod.snd).getD l
  | .reset => l.reset

/-- The lexer behind calls, one after the other. -/
def after (l : Lexer) (calls : List Call) : Lexer := calls.foldl call l

/-- How many items were asked for since the last reset, or at all if there was none. -/
def sinceReset (calls : List Call) : Nat := (calls.reverse.takeWhile (· = .next)).length

@[simp] theorem after_nil (l : Lexer) : l.after [] = l := rfl

@[simp] theorem after_concat (l : Lexer) (calls : List Call) (c : Call) :
    l.after (calls ++ [c]) = (l.after calls).call c := List.foldl_concat ..

@[simp] theorem sinceReset_next (calls : List Call) :
    sinceReset (calls ++ [.next]) = sinceReset calls + 1 := by
  simp [sinceReset]

@[simp] theorem sinceReset_reset (calls : List Call) : sinceReset (calls ++ [.reset]) = 0 := by
  simp [sinceReset]

/-! ## What a call does -/

/-- The next item is the first of those that are left. -/
theorem head?_items (l : Lexer) : l.items.head? = l.next?.map Prod.fst := by
  rw [items]
  split <;> simp_all

/-- A call for an item takes it away from those that are left. -/
theorem items_next (l : Lexer) : (l.call .next).items = l.items.tail := by
  cases hnext : l.next? with
  | none =>
    have hitems : l.items = [] := List.head?_eq_none_iff.1 (by simp [head?_items, hnext])
    simp [call, hnext, hitems]
  | some found => simp [call, hnext, items_of_next? hnext]

theorem source_of_next? {l behind : Lexer} {item : Item} (h : l.next? = some (item, behind)) :
    behind.source = l.source := by
  fun_induction next? l with
  | case1 => cases h
  | case2 =>
    obtain ⟨-, rfl⟩ := Prod.mk.inj (Option.some.inj h)
    rfl
  | case3 =>
    obtain ⟨-, rfl⟩ := Prod.mk.inj (Option.some.inj h)
    rfl
  | case4 l _ _ _ _ _ _ _ ih => exact ih h

/-- A lexer keeps the text that it was made for. -/
theorem source_call (l : Lexer) (c : Call) : (l.call c).source = l.source := by
  cases c with
  | reset => rfl
  | next =>
    cases hnext : l.next? with
    | none => simp [call, hnext]
    | some found => simpa [call, hnext] using source_of_next? hnext

/-! ## What a lexer does -/

theorem source_after (l : Lexer) (calls : List Call) : (l.after calls).source = l.source := by
  induction calls using List.reverseRecOn with
  | nil => rfl
  | append_singleton calls c ih => rw [after_concat, source_call, ih]

/-- After any calls, the items left are those behind the ones asked for since the last reset. -/
theorem items_after (source : String) (calls : List Call) :
    ((ofString source).after calls).items = (ofString source).items.drop (sinceReset calls) := by
  induction calls using List.reverseRecOn with
  | nil => rfl
  | append_singleton calls c ih =>
    cases c with
    | next => rw [after_concat, items_next, ih, List.tail_drop, sinceReset_next]
    | reset =>
      have hreset : ((ofString source).after calls).reset = ofString source :=
        congrArg ofString (source_after _ calls)
      rw [after_concat, call, hreset, sinceReset_reset, List.drop_zero]

/-- There are no more items left than characters, and the end. -/
theorem length_items_le (l : Lexer) : l.items.length ≤ l.left := by
  fun_induction items l with
  | case1 => exact Nat.zero_le _
  | case2 l item behind hnext ih => exact Nat.lt_of_le_of_lt ih (left_lt_of_next? hnext)

/-- The items of a text are at most one for each character, and the end. After any calls, the answer
to a call for an item is the item at the place that the calls since the last reset have come to, if
the list is as long as that. Tokenizing parts the same list into its tokens and its faults. -/
theorem next?_after (source : String) :
    let items := (ofString source).items
    (∃ (front : List Item) (stop : Position), items = front ++ [.token (.eof stop)] ∧
      front.length ≤ source.toList.length) ∧
    (∀ calls : List Call,
      ((ofString source).after calls).next?.map Prod.fst = items[sinceReset calls]?) ∧
    tokenize source = (items.filterMap Item.token?, items.filterMap Item.fault?) := by
  intro items
  have hscan : items = scan source := items_mk source source.toList .start
  refine ⟨?_, fun calls => ?_, by rw [hscan, tokenize]⟩
  · obtain ⟨front, -, htile, -⟩ := scanFrom_tile [] source.toList
    have hfront : items = front ++ [.token (.eof (.behind source.toList))] := hscan.trans htile
    have hlength : items.length ≤ source.toList.length + 1 := length_items_le (ofString source)
    rw [hfront, List.length_append] at hlength
    exact ⟨front, _, hfront, Nat.le_of_succ_le_succ hlength⟩
  · rw [← head?_items, items_after, List.head?_drop]

end ModSyntax.Lexer
