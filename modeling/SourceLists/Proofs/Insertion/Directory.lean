import Mathlib.Data.List.DropRight
import SourceLists.Insertion.Anchor

/-! A new item in the directory of a path has its own name there. -/

namespace SourceLists

variable {s t p d : Text} {c : Char}

namespace Text

theorem trimEnd_eq_rdropWhile : trimEnd c s = s.rdropWhile (· == c) := rfl

theorem trim_of_ne (h : ∀ a ∈ s.head?, a ≠ c) (h' : ∀ a ∈ s.getLast?, a ≠ c) : trim c s = s := by
  have hstart : s.dropWhile (· == c) = s := by
    cases s with
    | nil => rfl
    | cons a s =>
      apply List.dropWhile_cons_of_neg
      simpa using h a rfl
  rw [trim, hstart, trimEnd_eq_rdropWhile, List.rdropWhile_eq_self_iff]
  intro hne
  simpa using h' _ (List.getLast?_eq_some_getLast hne)

theorem trim_of_not_mem (h : c ∉ s) : trim c s = s := by
  apply trim_of_ne
  · rintro a ha rfl
    exact h (List.mem_of_mem_head? ha)
  · rintro a ha rfl
    exact h (List.mem_of_mem_getLast? ha)

theorem head?_trim : ∀ a ∈ (trim c s).head?, a ≠ c := by
  intro a ha
  have hleft : trim c s <+: s.dropWhile (· == c) := List.rdropWhile_prefix _ _
  obtain ⟨r, hr⟩ := hleft
  obtain ⟨u, hu⟩ := List.head?_eq_some_iff.1 ha
  have hhead := List.head?_dropWhile_not (· == c) s
  rw [← hr, hu] at hhead
  simpa using hhead

theorem getLast?_trimEnd : ∀ a ∈ (trimEnd c s).getLast?, a ≠ c := by
  intro a ha
  rw [trimEnd, List.getLast?_reverse] at ha
  obtain ⟨u, hu⟩ := List.head?_eq_some_iff.1 ha
  have hhead := List.head?_dropWhile_not (· == c) s.reverse
  rw [hu] at hhead
  simpa using hhead

theorem getLast?_trim : ∀ a ∈ (trim c s).getLast?, a ≠ c := getLast?_trimEnd

theorem exists_dropWhile (c : Char) (s : Text) :
    ∃ n, s = List.replicate n c ++ s.dropWhile (· == c) := by
  refine ⟨(s.takeWhile (· == c)).length, ?_⟩
  have htake : s.takeWhile (· == c) = List.replicate (s.takeWhile (· == c)).length c := by
    rw [List.eq_replicate_iff]
    exact ⟨rfl, fun a ha => by simpa using List.mem_takeWhile_imp ha⟩
  rw [← htake, List.takeWhile_append_dropWhile]

theorem exists_trimEnd (c : Char) (s : Text) : ∃ n, s = trimEnd c s ++ List.replicate n c := by
  obtain ⟨n, hn⟩ := exists_dropWhile c s.reverse
  have hend := congrArg List.reverse hn
  rw [List.reverse_reverse, List.reverse_append, List.reverse_replicate] at hend
  exact ⟨n, hend⟩

theorem mem_of_mem_trim {a : Char} (h : a ∈ trim c s) : a ∈ s := by
  have hleft : trim c s <+: s.dropWhile (· == c) := List.rdropWhile_prefix _ _
  exact (List.dropWhile_sublist _).mem (hleft.mem h)

end Text

namespace Path

theorem withoutTrailingSeparators_concat :
    withoutTrailingSeparators (d ++ [separator]) = withoutTrailingSeparators d :=
  List.rdropWhile_concat_pos _ _ _ (beq_self_eq_true _)

theorem withoutTrailingSeparators_idempotent :
    withoutTrailingSeparators (withoutTrailingSeparators d) = withoutTrailingSeparators d :=
  List.rdropWhile_idempotent _ _

/-- Without a separator a text is a file name. -/
theorem ne_separator (ht : separator ∉ t) : ∀ a ∈ t.reverse, (a != separator) = true := by
  intro a ha
  rw [bne_iff_ne]
  intro heq
  exact ht (heq ▸ List.mem_reverse.1 ha)

theorem fileName_append (ht : separator ∉ t) : fileName (d ++ separator :: t) = t := by
  have hreverse : (d ++ separator :: t).reverse = t.reverse ++ separator :: d.reverse := by simp
  rw [fileName, hreverse, List.takeWhile_append_of_pos (ne_separator ht)]
  simp

theorem fileName_of_not_mem (ht : separator ∉ t) : fileName t = t := by
  rw [fileName, List.takeWhile_eq_self_iff.2 (ne_separator ht), List.reverse_reverse]

theorem separator_not_mem_fileName : separator ∉ fileName s := by
  intro h
  rw [fileName, List.mem_reverse] at h
  have hne := List.mem_takeWhile_imp h
  simp at hne

theorem parent_eq_nil_or (s : Text) : parent s = [] ∨ (parent s).getLast? = some separator := by
  rw [parent, List.getLast?_reverse, List.reverse_eq_nil_iff]
  have hstop := List.head?_dropWhile_not (· != separator) s.reverse
  cases hrest : s.reverse.dropWhile (· != separator) with
  | nil => exact Or.inl rfl
  | cons a rest =>
    rw [hrest] at hstop
    exact Or.inr (by simpa using hstop)

/-- What stands before a separator is no part of the name. -/
theorem fileName_separator_append : fileName (d ++ separator :: t) = fileName t := by
  have ht : parent t ++ fileName t = t := parent_append_fileName
  rcases parent_eq_nil_or t with hparent | hparent
  · rw [hparent, List.nil_append] at ht
    have hnot : separator ∉ t := ht ▸ separator_not_mem_fileName
    exact (fileName_append hnot).trans ht.symm
  · obtain ⟨w, hw⟩ := List.getLast?_eq_some_iff.1 hparent
    have htext : t = w ++ separator :: fileName t := by
      rw [hw] at ht
      simpa using ht.symm
    have hall : d ++ separator :: t = (d ++ separator :: w) ++ separator :: fileName t := by
      rw [List.append_assoc, List.cons_append, ← htext]
    rw [hall, fileName_append separator_not_mem_fileName]

theorem not_isNested (ht : separator ∉ t) : ¬ isNested t = true := by
  intro h
  rw [isNested, List.contains_iff_mem] at h
  exact ht (Text.mem_of_mem_trim h)

theorem parent_append (ht : separator ∉ t) : parent (d ++ separator :: t) = d ++ [separator] := by
  have hreverse : (d ++ separator :: t).reverse = t.reverse ++ separator :: d.reverse := by simp
  rw [parent, hreverse, List.dropWhile_append_of_pos (ne_separator ht)]
  simp

/-- What ends in separators is a directory that does not, with one separator or more behind it. -/
theorem exists_parent (h : parent s ≠ []) : ∃ n,
    parent s = withoutTrailingSeparators (parent s) ++ List.replicate (n + 1) separator := by
  obtain ⟨n, hn⟩ := Text.exists_trimEnd separator (parent s)
  cases n with
  | zero =>
    rw [List.replicate_zero, List.append_nil] at hn
    have hend := (parent_eq_nil_or s).resolve_left h
    rw [hn] at hend
    exact absurd rfl (Text.getLast?_trimEnd separator hend)
  | succ n => exact ⟨n, hn⟩

theorem parent_ne_nil (h : separator ∈ s) : parent s ≠ [] := by
  intro hnil
  have hs : parent s ++ fileName s = s := parent_append_fileName
  rw [hnil, List.nil_append] at hs
  exact separator_not_mem_fileName (hs ▸ h)

theorem parent_of_not_mem (ht : separator ∉ t) : parent t = [] := by
  rw [parent, List.dropWhile_eq_nil_iff.2 (ne_separator ht), List.reverse_nil]

end Path

namespace Anchor
open SourceLists.Path

theorem inDirectoryOf_cases :
    (parent p = [] ∧ inDirectoryOf p t = t) ∨
      inDirectoryOf p t = withoutTrailingSeparators (parent p) ++ separator :: t := by
  by_cases h : parent p = []
  · exact Or.inl ⟨h, by simp [inDirectoryOf, h]⟩
  · exact Or.inr (by simp [inDirectoryOf, h])

theorem inDirectoryOf_of_mem (hp : separator ∈ p) :
    inDirectoryOf p t = withoutTrailingSeparators (parent p) ++ separator :: t :=
  inDirectoryOf_cases.resolve_left fun h => parent_ne_nil hp h.1

theorem inDirectoryOf_of_not_mem (hp : separator ∉ p) : inDirectoryOf p t = t := by
  rw [inDirectoryOf, parent_of_not_mem hp]
  rfl

/-- A new item keeps its name. -/
theorem fileName_inDirectoryOf : fileName (inDirectoryOf p t) = fileName t := by
  rcases inDirectoryOf_cases (p := p) (t := t) with ⟨-, h⟩ | h
  · rw [h]
  · rw [h, fileName_separator_append]

/-- The directory of the new item is that of the path. -/
theorem parent_inDirectoryOf (ht : separator ∉ t) :
    withoutTrailingSeparators (parent (inDirectoryOf p t)) =
      withoutTrailingSeparators (parent p) := by
  rcases inDirectoryOf_cases (p := p) (t := t) with ⟨hp, h⟩ | h
  · rw [h, parent_of_not_mem ht, hp]
  · rw [h, parent_append ht, withoutTrailingSeparators_concat, withoutTrailingSeparators_idempotent]

theorem mem_of_mem_inDirectoryOf (h : c ∈ inDirectoryOf p t) : c ∈ p ∨ c = separator ∨ c ∈ t := by
  have hleft : withoutTrailingSeparators (parent p) <+: p :=
    (List.rdropWhile_prefix _ _).trans (List.rdropWhile_prefix _ _)
  rcases inDirectoryOf_cases (p := p) (t := t) with ⟨-, heq⟩ | heq
  · exact Or.inr (Or.inr (heq ▸ h))
  · rw [heq, List.mem_append, List.mem_cons] at h
    rcases h with h | h | h
    · exact Or.inl (hleft.mem h)
    · exact Or.inr (Or.inl h)
    · exact Or.inr (Or.inr h)

theorem getLast?_inDirectoryOf (hne : t ≠ []) : (inDirectoryOf p t).getLast? = t.getLast? := by
  rcases inDirectoryOf_cases (p := p) (t := t) with ⟨-, h⟩ | h
  · rw [h]
  · rw [h, show ∀ d : Text, d ++ separator :: t = (d ++ [separator]) ++ t by simp,
      List.getLast?_append_of_ne_nil _ hne]

theorem head?_inDirectoryOf :
    ∀ a ∈ (inDirectoryOf p t).head?, a ∈ p.head? ∨ a = separator ∨ a ∈ t.head? := by
  intro a ha
  rcases inDirectoryOf_cases (p := p) (t := t) with ⟨-, h⟩ | h
  · exact Or.inr (Or.inr (h ▸ ha))
  · have hleft : withoutTrailingSeparators (parent p) <+: p :=
      (List.rdropWhile_prefix _ _).trans (List.rdropWhile_prefix _ _)
    rw [h] at ha
    generalize withoutTrailingSeparators (parent p) = d at hleft ha
    cases d with
    | nil => exact Or.inr (Or.inl (by simpa using ha.symm))
    | cons b d =>
      obtain ⟨r, hr⟩ := hleft
      exact Or.inl (by simpa [← hr] using ha)

/-- What has no quotes at its ends has none in the directory, either. -/
theorem trim_inDirectoryOf (hp : ∀ a ∈ p.head?, a ≠ '"') (ht : ∀ a ∈ t.head?, a ≠ '"')
    (ht' : ∀ a ∈ t.getLast?, a ≠ '"') : Text.trim '"' (inDirectoryOf p t) = inDirectoryOf p t := by
  apply Text.trim_of_ne
  · intro a ha
    rcases head?_inDirectoryOf a ha with h | rfl | h
    · exact hp a h
    · decide
    · exact ht a h
  · intro a ha
    by_cases hne : t = []
    · rcases inDirectoryOf_cases (p := p) (t := t) with ⟨-, h⟩ | h
      · rw [h, hne] at ha
        contradiction
      · rw [h, hne, List.getLast?_concat] at ha
        obtain rfl : separator = a := Option.some.inj ha
        decide
    · rw [getLast?_inDirectoryOf hne] at ha
      exact ht' a ha

/-- A mere file name means every path with this name. -/
theorem isMeantBy_fileName (ht : separator ∉ t) (htrim : Text.trim '"' t = t) :
    isMeantBy t s = true ↔ fileName s = t := by
  rw [isMeantBy, htrim, if_neg (not_isNested ht), sameFile, fileName_of_not_mem ht,
    beq_iff_eq, eq_comm]

/-- Where an item goes that is placed in the directory of a path. -/
structure Placed (path item placed : Text) : Prop where
  fileName_eq : fileName placed = fileName item
  eq_of_bare : separator ∉ path → placed = item
  /-- The separators at the end of a directory come to one. -/
  eq_of_nested : '/' ∈ path → ∃ directory n, parent path = directory ++ List.replicate (n + 1) '/' ∧
    directory.getLast? ≠ some '/' ∧ withoutTrailingSeparators (parent path) = directory ∧
      placed = directory ++ '/' :: item
  directory_eq : separator ∉ item →
    withoutTrailingSeparators (parent placed) = withoutTrailingSeparators (parent path)
  /-- As a literal of a list it is what a search for the bare item looks for. -/
  meant : separator ∉ item → (∀ a ∈ item.head?, a ≠ '"') → (∀ a ∈ item.getLast?, a ≠ '"') →
    ∀ start, (Item.literal placed start).unquoted?.any (isMeantBy item) = true

theorem placed_inDirectoryOf (hp : ∀ a ∈ p.head?, a ≠ '"') : Placed p t (inDirectoryOf p t) where
  fileName_eq := fileName_inDirectoryOf
  eq_of_bare := inDirectoryOf_of_not_mem
  eq_of_nested hmem := by
    obtain ⟨n, hn⟩ := exists_parent (parent_ne_nil hmem)
    exact ⟨_, n, hn, fun hend => Text.getLast?_trimEnd '/' hend rfl, rfl, inDirectoryOf_of_mem hmem⟩
  directory_eq := parent_inDirectoryOf
  meant ht hhead hlast start := by
    have hname : fileName (inDirectoryOf p t) = t :=
      fileName_inDirectoryOf.trans (fileName_of_not_mem ht)
    rw [Item.unquoted?, Option.any_some, trim_inDirectoryOf hp hhead hlast]
    exact (isMeantBy_fileName ht (Text.trim_of_ne hhead hlast)).2 hname

/-- A path is a directory, which is empty or ends in a separator, and a name without separators.
Next to a literal an item is placed in its directory; next to a reference to a variable it has no
place. -/
theorem payload_placed :
    (∀ s, parent s ++ fileName s = s ∧ separator ∉ fileName s ∧
        (parent s = [] ∨ (parent s).getLast? = some separator)) ∧
      (∀ st text start item, ∃ placed,
        (⟨st, some (.literal text start)⟩ : Anchor).payload item = .ok placed ∧
          Placed (Text.trim '"' text) item placed) ∧
      ∀ st name span item,
        (⟨st, some (.reference name span)⟩ : Anchor).payload item = .error (.notLiteral name) ∧
          ∀ position spacing, st.listEnd? = some position →
            (⟨st, some (.reference name span)⟩ : Anchor).insert item spacing =
              .error (.path (.notLiteral name)) := by
  refine ⟨fun s => ?_, fun st text start item => ?_, fun st name span item => ?_⟩
  · exact ⟨parent_append_fileName, separator_not_mem_fileName, parent_eq_nil_or s⟩
  · exact ⟨_, rfl, placed_inDirectoryOf Text.head?_trim⟩
  · refine ⟨rfl, fun position spacing hend => ?_⟩
    rw [insert, hend]
    rfl

/-- In a directory an item goes there; in the root there is a separator before its name, and no
other. -/
theorem payload_placed_beside :
    let st : Statement :=
      ⟨.set, "S".toList, [.literal "src/a.h".toList 6, .literal "\"//a.h\"".toList 14], ⟨0, 22⟩⟩
    (⟨st, some (.literal "src/a.h".toList 6)⟩ : Anchor).payload "b.h".toList =
        .ok "src/b.h".toList ∧
      withoutTrailingSeparators (parent "src/b.h".toList) = "src".toList ∧
      (Item.literal "src/b.h".toList 23).unquoted?.any (isMeantBy "b.h".toList) = true ∧
      (⟨st, some (.literal "\"//a.h\"".toList 14)⟩ : Anchor).payload "b.h".toList =
        .ok "/b.h".toList ∧
      withoutTrailingSeparators (parent "/b.h".toList) = [] ∧
      (Item.literal "/b.h".toList 23).unquoted?.any (isMeantBy "b.h".toList) = true := by
  intro st
  obtain ⟨-, hliteral, -⟩ := payload_placed
  obtain ⟨placed, hpayload, h⟩ := hliteral st "src/a.h".toList 6 "b.h".toList
  obtain ⟨directory, n, -, -, hdirectory, heq⟩ := h.eq_of_nested (by decide)
  obtain rfl : "src".toList = directory := hdirectory
  subst heq
  obtain ⟨placed, hpayload', h'⟩ := hliteral st "\"//a.h\"".toList 14 "b.h".toList
  obtain ⟨directory, n, -, -, hdirectory, heq⟩ := h'.eq_of_nested (by decide)
  obtain rfl : [] = directory := hdirectory
  subst heq
  exact ⟨hpayload, h.directory_eq (by decide), h.meant (by decide) (by simp) (by simp) 23,
    hpayload', h'.directory_eq (by decide), h'.meant (by decide) (by simp) (by simp) 23⟩

end Anchor
end SourceLists
