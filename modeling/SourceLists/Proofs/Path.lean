import SourceLists.Proofs.Insertion.Directory

/-! Trimmed texts, nested paths and file names, by the parts that a text consists of. -/

namespace SourceLists

namespace Text

variable {c : Char} {s t : Text}

/-- A text without the character at its ends, from one that may have it there any number of
times. -/
def Trimmed (c : Char) (s t : Text) : Prop :=
  (∃ m n, s = List.replicate m c ++ (t ++ List.replicate n c)) ∧
    (∀ a ∈ t.head?, a ≠ c) ∧ ∀ a ∈ t.getLast?, a ≠ c

theorem exists_trim (c : Char) (s : Text) :
    ∃ m n, s = List.replicate m c ++ (trim c s ++ List.replicate n c) := by
  obtain ⟨m, hm⟩ := exists_dropWhile c s
  obtain ⟨n, hn⟩ := exists_trimEnd c (s.dropWhile (· == c))
  exact ⟨m, n, hm.trans (congrArg _ hn)⟩

theorem dropWhile_replicate_append {n : Nat} :
    (List.replicate n c ++ s).dropWhile (· == c) = s.dropWhile (· == c) := by
  apply List.dropWhile_append_of_pos
  intro a ha
  rw [List.eq_of_mem_replicate ha, beq_self_eq_true]

theorem trimEnd_append_replicate {n : Nat} : trimEnd c (s ++ List.replicate n c) = trimEnd c s := by
  rw [trimEnd, List.reverse_append, List.reverse_replicate, dropWhile_replicate_append, trimEnd]

/-- What is left is the same, whatever was taken away. -/
theorem trimmed_iff : Trimmed c s t ↔ trim c s = t := by
  constructor
  · rintro ⟨⟨m, n, rfl⟩, hhead, hlast⟩
    rw [trim, dropWhile_replicate_append]
    cases t with
    | nil =>
      have hall := dropWhile_replicate_append (c := c) (s := []) (n := n)
      rw [List.append_nil] at hall
      rw [List.nil_append, hall]
      rfl
    | cons a t =>
      have ha : a ≠ c := hhead a rfl
      rw [List.cons_append, List.dropWhile_cons_of_neg (by simpa using ha), ← List.cons_append,
        trimEnd_append_replicate]
      have htrim := trim_of_ne hhead hlast
      rwa [trim, List.dropWhile_cons_of_neg (by simpa using ha)] at htrim
  · rintro rfl
    exact ⟨exists_trim c s, head?_trim, getLast?_trim⟩

/-- Inside of a trimmed text the character stands between others. -/
theorem exists_ne_of_trim {x y : Text} (h : trim c s = x ++ c :: y) :
    (∃ a ∈ x, a ≠ c) ∧ ∃ b ∈ y, b ≠ c := by
  constructor
  · cases x with
    | nil => exact absurd rfl (head?_trim (s := s) c (by rw [h]; rfl))
    | cons a x => exact ⟨a, List.mem_cons_self, head?_trim a (by rw [h]; rfl)⟩
  · rcases List.eq_nil_or_concat' y with rfl | ⟨y, b, rfl⟩
    · exact absurd rfl (getLast?_trim (s := s) c (by rw [h, List.getLast?_concat]; rfl))
    · refine ⟨b, by simp, getLast?_trim (s := s) b ?_⟩
      rw [h, ← List.cons_append, ← List.append_assoc, List.getLast?_concat]
      rfl

theorem dropWhile_append_of_exists (h : ∃ a ∈ s, a ≠ c) :
    (s ++ t).dropWhile (· == c) = s.dropWhile (· == c) ++ t := by
  rw [List.dropWhile_append, if_neg]
  obtain ⟨a, ha, hne⟩ := h
  intro hempty
  rw [List.isEmpty_iff, List.dropWhile_eq_nil_iff] at hempty
  exact hne (by simpa using hempty a ha)

end Text

namespace Path

variable {s t name : Text}

/-- A separator with something else before it, and behind it. -/
def Inner (s : Text) : Prop :=
  ∃ before after, s = before ++ separator :: after ∧ (∃ c ∈ before, c ≠ separator) ∧
    ∃ c ∈ after, c ≠ separator

/-- The text behind the last separator, or all of it. -/
def Named (s name : Text) : Prop :=
  separator ∉ name ∧ (s = name ∨ ∃ directory, s = directory ++ separator :: name)

theorem isNested_iff : isNested s = true ↔ Inner s := by
  rw [isNested, List.contains_iff_mem]
  constructor
  · intro h
    obtain ⟨m, n, hs⟩ := Text.exists_trim separator s
    obtain ⟨x, y, hxy⟩ := List.append_of_mem h
    obtain ⟨⟨a, ha, hne⟩, b, hb, hne'⟩ := Text.exists_ne_of_trim hxy
    rw [hxy] at hs
    exact ⟨List.replicate m separator ++ x, y ++ List.replicate n separator, by simpa using hs,
      ⟨a, List.mem_append_right _ ha, hne⟩, b, List.mem_append_left _ hb, hne'⟩
  · rintro ⟨before, after, rfl, hbefore, hafter⟩
    have hafter' : ∃ a ∈ after.reverse, a ≠ separator := by simpa using hafter
    rw [Text.trim, Text.dropWhile_append_of_exists hbefore, Text.trimEnd, List.reverse_append,
      List.reverse_cons, List.append_assoc, Text.dropWhile_append_of_exists hafter']
    simp

theorem exists_named (s : Text) : ∃ name, Named s name := by
  by_cases h : separator ∈ s
  · obtain ⟨name, directory, hs, hname⟩ := List.eq_append_cons_of_mem (List.mem_reverse.2 h)
    refine ⟨name.reverse, by simpa using hname, Or.inr ⟨directory.reverse, ?_⟩⟩
    rw [← List.reverse_reverse s, hs]
    simp
  · exact ⟨s, h, Or.inl rfl⟩

theorem fileName_of_named (h : Named s name) : fileName s = name := by
  obtain ⟨hname, rfl | ⟨directory, rfl⟩⟩ := h
  · exact fileName_of_not_mem hname
  · exact fileName_append hname

theorem fileName_eq_iff : fileName s = name ↔ Named s name := by
  refine ⟨?_, fileName_of_named⟩
  rintro rfl
  obtain ⟨name, hname⟩ := exists_named s
  rwa [fileName_of_named hname]

theorem sameFile_iff : sameFile s t = true ↔ ∃ name, Named s name ∧ Named t name := by
  rw [sameFile, beq_iff_eq]
  constructor
  · intro h
    exact ⟨fileName s, fileName_eq_iff.1 rfl, fileName_eq_iff.1 h.symm⟩
  · rintro ⟨name, hs, ht⟩
    rw [fileName_eq_iff.2 hs, fileName_eq_iff.2 ht]

end Path

end SourceLists
