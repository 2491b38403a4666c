import SourceLists.Proofs.Insertion.Moved

/-! A plain item put in behind a list is in that list, and the rest of the script is as before. -/

namespace SourceLists
open Grammar

variable {s t : Text} {k : Nat} {st : Statement}

/-- The words that are no sources at the end of a list. -/
def reserved : List Text := ["PRIVATE", "PUBLIC", "INTERFACE", "PARENT_SCOPE"].map String.toList

/-- A payload without blanks, quotes and parentheses, that opens no comment and is no keyword. -/
structure Plain (t : Text) : Prop where
  nonempty : t ≠ []
  ordinary : ∀ c ∈ t, c ∉ [' ', '\t', '\r', '\n', '"', '(', ')', '\x7d']
  uncommented : t.head? ≠ some '#'
  unreserved : t ∉ reserved

theorem scope_of_unreserved (h : t ∉ reserved) :
    t ∉ ["PRIVATE", "PUBLIC", "INTERFACE"].map String.toList := by
  intro hmem
  apply h
  simp only [reserved, List.map_cons, List.map_nil, List.mem_cons, List.not_mem_nil,
    or_false] at hmem ⊢
  rcases hmem with hmem | hmem | hmem
  · exact Or.inl hmem
  · exact Or.inr (Or.inl hmem)
  · exact Or.inr (Or.inr (Or.inl hmem))

theorem ne_of_unreserved (h : t ∉ reserved) : t ≠ "PARENT_SCOPE".toList := by
  intro heq
  exact h (by simp [reserved, heq])

theorem Plain.isBare (h : Plain t) : ∀ c ∈ t, isBare c := by
  intro c hc
  have hordinary := h.ordinary c hc
  simp only [List.mem_cons, List.not_mem_nil, or_false, not_or] at hordinary
  simp [Grammar.isBare, isBlank, hordinary]

theorem Plain.payload (h : Plain t) : Payload t := by
  obtain ⟨c, y, rfl⟩ := List.exists_cons_of_ne_nil h.nonempty
  have hbare := h.isBare
  have hbrace : '\x7d' ∉ (c :: y).getLast? :=
    fun hmem => h.ordinary _ (List.mem_of_mem_getLast? hmem) (by simp)
  refine ⟨⟨isItem_of_bare h.nonempty hbare hbrace (scope_of_unreserved h.unreserved), ?_,
    ne_of_unreserved h.unreserved⟩, hbare⟩
  refine settled_cons.2 ⟨(narrow_isBare c (hbare c List.mem_cons_self)).1, ?_⟩
  intro hc
  exact h.uncommented (by simp [hc])

/-- An insertion behind the list of a statement that is found adds a plain item to that list. All
else stays as it was, moved by the size of the insertion where it stands behind it. -/
theorem scan_insert (ht : Plain t) (hk : (scan s)[k]? = some st) :
    ∃ position s', st.listEnd? = some position ∧
      (Insertion.mk position Insertion.defaultSeparator t).apply s = .ok s' ∧
      scan s' = (Insertion.mk position Insertion.defaultSeparator t).added k (scan s) := by
  obtain ⟨pre, i, post, front, a, tail, h⟩ := Scan.exists_found hk
  have hbrace : '\x7d' ∈ t → '\x7d' ∈ Argument.texts front ++ a.token.text :=
    fun hmem => absurd (ht.ordinary _ hmem) (by simp)
  have hsegs := Scan.segments_insert h.last h.wellFormed h.kind ht.payload hbrace h.segments_eq
  exact ⟨_, _, h.listEnd?_eq, h.apply_eq rfl, h.scan_eq_added rfl hsegs⟩

/-- Behind a `set` that is not closed a library gets a second file. -/
theorem scan_insert_behind_broken :
    ∃ position s',
      (Statement.mk .addLibrary "core".toList [.literal "a.cpp".toList 26] ⟨9, 32⟩).listEnd? =
        some position ∧
      (Insertion.mk position Insertion.defaultSeparator "b.cpp".toList).apply
        "set(X (\n add_library(core a.cpp)".toList = .ok s' ∧
      scan s' = (Insertion.mk position Insertion.defaultSeparator "b.cpp".toList).added 0
        (scan "set(X (\n add_library(core a.cpp)".toList) :=
  scan_insert ⟨by decide, by decide, by decide, by decide⟩ (by decide +kernel)

end SourceLists
