import SourceLists.Proofs.Insertion.Search

/-! The two files of a class go in at once as they do one after the other: the header is never taken
for the implementation file that is searched for. -/

namespace SourceLists

variable {s s' t u w d name reference : Text} {c : Char}

namespace Extensions

variable {x y : Text}

end Extensions

namespace ClassInsertions

variable {script : Script} {extensions : Extensions} {role : FileRole} {spacing : Spacing}
  {c : ClassInsertions} {ins : Insertion} {anchor : Anchor} {extension : Text}
  {tried later : List Text}

theorem findReference_eq_ok
    (h : findReference script reference role tried later = .ok (anchor, extension)) :
    extension ∈ later ∧ Anchor.nextTo script (reference ++ extension) = .ok anchor := by
  induction later with
  | nil => contradiction
  | cons x later ih =>
    rw [findReference] at h
    split at h
    · next found hfound =>
      cases h
      exact ⟨List.mem_cons_self, hfound⟩
    · split at h
      · obtain ⟨hmem, hfound⟩ := ih h
        exact ⟨List.mem_cons_of_mem x hmem, hfound⟩
      · contradiction

theorem insertFile_eq_ok (h : insertFile script extensions name reference spacing role = .ok ins) :
    ∃ anchor extension, findReference script reference role (extensions.ofRole role)
      (extensions.ofRole role) =
        .ok (anchor, extension) ∧ anchor.insert (name ++ extension) spacing = .ok ins := by
  obtain ⟨⟨anchor, extension⟩, hfound, hins⟩ := bind_eq_ok.1 h
  exact ⟨anchor, extension, hfound, mapError_eq_ok.1 hins⟩

theorem nextTo_eq_ok (h : nextTo script extensions name reference spacing = .ok c) :
    insertFile script extensions name reference spacing .header = .ok c.header ∧
      insertFile script extensions name reference spacing .implementation =
        .ok c.implementation := by
  obtain ⟨header, hheader, h⟩ := bind_eq_ok.1 h
  obtain ⟨implementation, himplementation, h⟩ := bind_eq_ok.1 h
  cases h
  exact ⟨hheader, himplementation⟩

end ClassInsertions
end SourceLists
