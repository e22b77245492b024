import ModSyntax.Tree.Name

/-!
# Paths and names are inverse

A path is read as a name by splitting it at its dots, and a name is written down by joining its
segments with dots. Writing undoes reading on every path; reading undoes writing just on the names
that are read from some path, those with a segment at all and no dot inside a segment
(`ofPath_inverse_toString`).

What splitting does is said by two laws: a path without dots is one segment (`ofPath_of_notMem`),
and at a dot the path falls into two paths that are read on their own (`segments_ofPath_dot`).
-/

namespace ModSyntax.QualifiedName

/-! ## The characters of a name -/

theorem toList_toString (q : QualifiedName) :
    (toString q).toList = ['.'].intercalate (q.segments.map String.toList) :=
  String.toList_intercalate

theorem map_toList_segments_ofPath (path : String) :
    (ofPath path).segments.map String.toList = path.toList.splitOn '.' := by
  simp [ofPath, Function.comp_def]

/-- The text of the name that a path is read as is the path. -/
theorem toString_ofPath (path : String) : toString (ofPath path) = path := by
  apply String.toList_injective
  rw [toList_toString, map_toList_segments_ofPath, List.intercalate_splitOn]

/-- A name with a segment and no dot inside a segment is read back from its text. -/
theorem ofPath_toString {q : QualifiedName} (hne : q.segments ≠ [])
    (hdot : ∀ segment ∈ q.segments, '.' ∉ segment.toList) : ofPath (toString q) = q := by
  have hsplit : (toString q).toList.splitOn '.' = q.segments.map String.toList := by
    rw [toList_toString]
    exact List.splitOn_intercalate '.' (by simpa using hdot) (by simpa using hne)
  simp [ofPath, hsplit, Function.comp_def]

/-! ## What splitting does -/

theorem segments_ofPath_ne_nil (path : String) : (ofPath path).segments ≠ [] := by
  simp [ofPath, List.splitOn_ne_nil]

/-- A path without dots is one segment. -/
theorem ofPath_of_notMem {path : String} (h : '.' ∉ path.toList) : ofPath path = simple path := by
  simp [ofPath, simple, List.splitOn_eq_singleton h]

/-- At a dot, the path falls into two paths. -/
theorem segments_ofPath_dot (front rest : String) :
    (ofPath (front ++ "." ++ rest)).segments =
      (ofPath front).segments ++ (ofPath rest).segments := by
  simp [ofPath, List.splitOn_append_cons_self]

/-- A path with a dot has a first dot. -/
theorem exists_first_dot {path : String} (h : '.' ∈ path.toList) :
    ∃ front rest : String, '.' ∉ front.toList ∧ path = front ++ "." ++ rest := by
  obtain ⟨front, rest, hpath, hfront⟩ := List.eq_append_cons_of_mem h
  refine ⟨.ofList front, .ofList rest, by simpa using hfront, String.toList_injective ?_⟩
  simpa using hpath

/-- No dot is left inside a segment. -/
theorem notMem_of_mem_segments_ofPath (path : String) :
    ∀ segment ∈ (ofPath path).segments, '.' ∉ segment.toList := by
  -- The path behind the first dot is shorter, and the one before it is a segment.
  induction hn : path.length using Nat.strongRecOn generalizing path with
  | ind n ih =>
    by_cases hdot : '.' ∈ path.toList
    · obtain ⟨front, rest, hfront, rfl⟩ := exists_first_dot hdot
      have hrest : rest.length < n := by
        rw [← hn, String.length_append, String.length_append, show ".".length = 1 from rfl]
        omega
      rw [segments_ofPath_dot, ofPath_of_notMem hfront]
      intro segment hsegment
      rcases List.mem_append.1 hsegment with hsegment | hsegment
      · rwa [List.mem_singleton.1 hsegment]
      · exact ih _ hrest rest rfl segment hsegment
    · rw [ofPath_of_notMem hdot]
      intro segment hsegment
      rwa [List.mem_singleton.1 hsegment]

/-- A path is read as a qualified name exactly if it has a dot. -/
theorem isQualified_ofPath (path : String) :
    (ofPath path).isQualified = true ↔ '.' ∈ path.toList := by
  by_cases hdot : '.' ∈ path.toList
  · obtain ⟨front, rest, -, rfl⟩ := exists_first_dot hdot
    have hfront := List.length_pos_iff.2 (segments_ofPath_ne_nil front)
    have hrest := List.length_pos_iff.2 (segments_ofPath_ne_nil rest)
    have hlength : 1 < (ofPath (front ++ "." ++ rest)).segments.length := by
      rw [segments_ofPath_dot, List.length_append]
      omega
    exact iff_of_true (by simpa [isQualified] using hlength) hdot
  · exact iff_of_false (by simp [isQualified, ofPath_of_notMem hdot, simple]) hdot

/-! ## Reading and writing -/

/-- Every path is the text of the name that it is read as. A name is read back from its text exactly
if it has a segment and no dot inside a segment. So different paths are read as different names, and
the qualified ones are those of the paths with a dot. -/
theorem ofPath_inverse_toString :
    (∀ path : String, toString (ofPath path) = path) ∧
    (∀ q : QualifiedName, ofPath (toString q) = q ↔
      q.segments ≠ [] ∧ ∀ segment ∈ q.segments, '.' ∉ segment.toList) ∧
    Function.Injective ofPath ∧
    ∀ path : String, (ofPath path).isQualified = true ↔ '.' ∈ path.toList := by
  refine ⟨toString_ofPath, fun q => ⟨fun hback => ?_, fun h => ofPath_toString h.1 h.2⟩,
    fun path path' h => ?_, isQualified_ofPath⟩
  · rw [← hback]
    exact ⟨segments_ofPath_ne_nil _, notMem_of_mem_segments_ofPath _⟩
  · rw [← toString_ofPath path, h, toString_ofPath]

/-- Dots at either end, or next to each other, leave empty segments. -/
example : (ofPath ".a..b.").segments = ["", "a", "", "b", ""] := by decide

end ModSyntax.QualifiedName
