import Mathlib.Data.List.Induction
import SourceLists.Insertion.Basic
import SourceLists.Proofs.Location

/-! Several insertions into one text, each at its place. Made from the last place to the first, or
one after the other with their places moved along, they come to the same text. -/

namespace SourceLists.Insertion

variable {s s' t : Text} {n m p : Nat} {i j : Insertion} {L L' : List Insertion}

/-- What insertions put at one place, in their order: of each its separator, and then its
payload. -/
def contentAt (position : Nat) (insertions : List Insertion) : Text :=
  insertions.flatMap fun i => if i.position = position then i.separator ++ i.payload else []

/-- A text that begins at `start`, with what the insertions put before each of its characters and at
its end. -/
def interleave (insertions : List Insertion) (start : Nat) : Text → Text
  | [] => contentAt start insertions
  | c :: s => contentAt start insertions ++ c :: interleave insertions (start + c.utf8Size) s

theorem contentAt_cons_of_eq (h : i.position = p) :
    contentAt p (i :: L) = i.content ++ contentAt p L := by
  rw [contentAt, List.flatMap_cons, if_pos h]
  rfl

theorem contentAt_cons_of_ne (h : i.position ≠ p) : contentAt p (i :: L) = contentAt p L := by
  rw [contentAt, List.flatMap_cons, if_neg h]
  rfl

theorem contentAt_eq_flatMap (p : Nat) (L : List Insertion) :
    contentAt p L = (L.filter (·.position = p)).flatMap content := by
  induction L with
  | nil => rfl
  | cons i L ih =>
    by_cases h : i.position = p
    · rw [contentAt_cons_of_eq h, ih, List.filter_cons_of_pos (by simpa using h), List.flatMap_cons]
    · rw [contentAt_cons_of_ne h, ih, List.filter_cons_of_neg (by simpa using h)]

theorem contentAt_eq_nil (h : ∀ i ∈ L, i.position ≠ p) : contentAt p L = [] :=
  List.flatMap_eq_nil_iff.2 fun i hi => if_neg (h i hi)

/-- Only what is put at each place counts, and where the text begins does not. -/
theorem interleave_congr (h : ∀ p, n ≤ p → contentAt p L = contentAt (p + m) L') :
    interleave L n s = interleave L' (n + m) s := by
  induction s generalizing n with
  | nil => exact h n (Nat.le_refl n)
  | cons c s ih =>
    have hrest : interleave L (n + c.utf8Size) s = interleave L' (n + c.utf8Size + m) s :=
      ih fun p hp => h p (Nat.le_trans (Nat.le_add_right n _) hp)
    rw [interleave, interleave, h n (Nat.le_refl n), hrest, Nat.add_right_comm]

theorem interleave_nil : interleave [] n s = s := by
  induction s generalizing n with
  | nil => rfl
  | cons c s ih => rw [interleave, ih, contentAt, List.flatMap_nil, List.nil_append]

theorem sublist_interleave : s.Sublist (interleave L n s) := by
  induction s generalizing n with
  | nil => exact List.nil_sublist _
  | cons c s ih => exact (ih.cons_cons c).trans (List.sublist_append_right _ _)

/-- Nothing is put where no insertion has its place. -/
theorem interleave_append (h : ∀ i ∈ L, i.position < n ∨ n + Text.size s ≤ i.position) :
    interleave L n (s ++ t) = s ++ interleave L (n + Text.size s) t := by
  induction s generalizing n with
  | nil => rfl
  | cons c s ih =>
    have hc := Char.utf8Size_pos c
    have hnone : contentAt n L = [] := by
      apply contentAt_eq_nil
      intro i hi
      have hposition := h i hi
      rw [Text.size_cons] at hposition
      omega
    have hrest : interleave L (n + c.utf8Size) (s ++ t) =
        s ++ interleave L (n + c.utf8Size + Text.size s) t := by
      apply ih
      intro i hi
      have hposition := h i hi
      rw [Text.size_cons] at hposition
      omega
    rw [List.cons_append, interleave, hnone, List.nil_append, hrest, Text.size_cons, Nat.add_assoc,
      List.cons_append]

/-- Of all insertions the first one comes first at its place. -/
theorem interleave_cons (h : i.position = n) :
    interleave (i :: L) n s = i.content ++ interleave L n s := by
  cases s with
  | nil => exact contentAt_cons_of_eq h
  | cons c s =>
    have hc := Char.utf8Size_pos c
    have hrest : interleave (i :: L) (n + c.utf8Size) s = interleave L (n + c.utf8Size + 0) s :=
      interleave_congr fun p hp => contentAt_cons_of_ne (by omega)
    rw [interleave, interleave, contentAt_cons_of_eq h, hrest, Nat.add_zero, List.append_assoc]

theorem apply_append (h : Text.size s = i.position) :
    i.apply (s ++ t) = .ok (s ++ (i.content ++ t)) := by
  rw [apply, ← h, Text.splitAt?_size_append]
  exact congrArg _ (List.append_assoc s i.content t)

theorem exists_of_apply (h : i.apply s = .ok s') :
    ∃ before after, s = before ++ after ∧ Text.size before = i.position ∧
      s' = before ++ (i.content ++ after) := by
  rw [apply] at h
  split at h
  · next before after hsplit =>
    obtain ⟨hs, hsize⟩ := Text.splitAt?_eq_some.1 hsplit
    cases h
    exact ⟨before, after, hs.symm, hsize, List.append_assoc _ _ _⟩
  · contradiction

/-- An insertion goes through where the text can be cut, and nowhere else. -/
theorem isBoundary_of_apply (h : i.apply s = .ok s') : s.IsBoundary i.position := by
  obtain ⟨before, after, hs, hsize, -⟩ := exists_of_apply h
  exact ⟨before, after, hs, hsize⟩

section ordered

/-- No place is before that of an insertion that comes later. -/
def Descending (insertions : List Insertion) : Prop :=
  insertions.Pairwise fun i j => j.position ≤ i.position

theorem place_perm : (place i L).Perm (i :: L) := by
  induction L with
  | nil => exact .refl [i]
  | cons k L ih =>
    rw [place]
    split
    · exact (ih.cons k).trans (.swap i k L)
    · exact .refl _

theorem ordered_perm : (ordered L).Perm L := by
  induction L with
  | nil => exact .refl []
  | cons i L ih => exact place_perm.trans (ih.cons i)

theorem mem_place : j ∈ place i L ↔ j = i ∨ j ∈ L := place_perm.mem_iff.trans List.mem_cons

theorem mem_ordered : j ∈ ordered L ↔ j ∈ L := ordered_perm.mem_iff

theorem Descending.place (h : Descending L) : Descending (place i L) := by
  induction L with
  | nil => exact List.pairwise_singleton _ i
  | cons k L ih =>
    obtain ⟨hk, hL⟩ := List.pairwise_cons.1 h
    rw [Insertion.place]
    split
    · next hle =>
      refine .cons ?_ (ih hL)
      intro j hj
      rcases mem_place.1 hj with rfl | hj
      · exact hle
      · exact hk j hj
    · next hgt =>
      have hki := Nat.le_of_not_le hgt
      refine .cons ?_ h
      intro j hj
      rcases List.mem_cons.1 hj with rfl | hj
      · exact hki
      · exact Nat.le_trans (hk j hj) hki

theorem descending_ordered : Descending (ordered L) := by
  induction L with
  | nil => exact .nil
  | cons i L ih => exact ih.place

/-- Of all that go to one place the one that is placed last comes last. -/
theorem filter_place (h : Descending L) :
    (place i L).filter (·.position = p) =
      L.filter (·.position = p) ++ [i].filter (·.position = p) := by
  induction L with
  | nil => rfl
  | cons k L ih =>
    obtain ⟨hk, hL⟩ := List.pairwise_cons.1 h
    rw [place]
    split
    · rw [← List.singleton_append, List.filter_append, ih hL, ← List.append_assoc,
        ← List.filter_append]
      rfl
    · next hgt =>
      rw [← List.singleton_append, List.filter_append]
      by_cases hp : i.position = p
      · have hnone : (k :: L).filter (·.position = p) = [] := by
          rw [List.filter_eq_nil_iff]
          intro j hj
          have hle : j.position ≤ k.position := by
            rcases List.mem_cons.1 hj with rfl | hj
            · exact Nat.le_refl _
            · exact hk j hj
          simp
          omega
        rw [hnone, List.append_nil, List.nil_append]
      · have hnot : [i].filter (·.position = p) = [] := List.filter_cons_of_neg (by simpa using hp)
        rw [hnot, List.append_nil, List.nil_append]

theorem filter_ordered (p : Nat) (L : List Insertion) :
    (ordered L).filter (·.position = p) = (L.filter (·.position = p)).reverse := by
  induction L with
  | nil => rfl
  | cons i L ih =>
    have hreverse : ([i].filter (·.position = p)).reverse = [i].filter (·.position = p) := by
      by_cases hp : i.position = p <;> simp [hp]
    rw [ordered, filter_place descending_ordered, ih, ← List.singleton_append (l := L),
      List.filter_append, List.reverse_append, hreverse]

theorem contentAt_ordered : contentAt p (ordered L).reverse = contentAt p L := by
  rw [contentAt_eq_flatMap, contentAt_eq_flatMap, List.filter_reverse, filter_ordered,
    List.reverse_reverse]

/-- The next insertion, at a place before all others, is made in a text with the others. -/
theorem apply_interleave (hi : s.IsBoundary i.position) (hL : ∀ j ∈ L, i.position ≤ j.position) :
    i.apply (interleave L 0 s) = .ok (interleave (i :: L) 0 s) := by
  obtain ⟨before, after, rfl, hsize⟩ := hi
  have hothers :
      interleave L 0 (before ++ after) = before ++ interleave L (0 + Text.size before) after :=
    interleave_append fun j hj => Or.inr (by have := hL j hj; omega)
  have hall : interleave (i :: L) 0 (before ++ after) =
      before ++ interleave (i :: L) (0 + Text.size before) after := by
    apply interleave_append
    intro j hj
    rcases List.mem_cons.1 hj with rfl | hj
    · omega
    · have := hL j hj
      omega
  rw [hothers, apply_append hsize, hall, interleave_cons (by omega)]

theorem foldlM_apply (hL : Descending L) (hs : ∀ i ∈ L, s.IsBoundary i.position) :
    L.foldlM (fun text i => i.apply text) s = .ok (interleave L.reverse 0 s) := by
  induction L using List.reverseRecOn with
  | nil => rw [List.reverse_nil, interleave_nil]; rfl
  | append_singleton L i ih =>
    obtain ⟨hdescending, -, hlast⟩ := List.pairwise_append.1 hL
    have hfirst := ih hdescending fun j hj => hs j (List.mem_append_left _ hj)
    rw [List.foldlM_append, hfirst, List.reverse_append]
    change i.apply (interleave L.reverse 0 s) >>= pure = _
    rw [bind_pure]
    apply apply_interleave (hs i (by simp))
    intro j hj
    exact hlast j (List.mem_reverse.1 hj) i (List.mem_singleton_self i)

/-- Insertions at places where the text can be cut are all made, each at its place and in their
order. -/
theorem applyAll_eq_ok (hs : ∀ i ∈ L, s.IsBoundary i.position) :
    applyAll L s = .ok (interleave L 0 s) := by
  have hordered := foldlM_apply (descending_ordered (L := L)) (s := s)
    fun i hi => hs i (mem_ordered.1 hi)
  rw [applyAll, hordered]
  exact congrArg _ (interleave_congr (m := 0) fun p _ => contentAt_ordered)

end ordered

section after

/-- Where something at a place of the text goes once an insertion is made. At the same place it goes
behind. -/
def next (i : Insertion) (p : Nat) : Nat :=
  if p < i.position then p else p + Text.size i.content

/-- An insertion into a text, to be made when another one has been made. -/
def after (i j : Insertion) : Insertion := { j with position := i.next j.position }

theorem next_of_lt (h : p < i.position) : i.next p = p := if_pos h

theorem next_of_le (h : i.position ≤ p) : i.next p = p + Text.size i.content :=
  if_neg (Nat.not_lt_of_le h)

theorem contentAt_after_of_lt (h : p < i.position) :
    contentAt p (L.map i.after) = contentAt p L := by
  rw [contentAt, contentAt, List.flatMap_map]
  congr 1
  funext j
  have hiff : (i.after j).position = p ↔ j.position = p := by
    simp only [after, next]
    split <;> omega
  simp only [hiff]
  rfl

theorem contentAt_after_of_le (h : i.position ≤ p) :
    contentAt (p + Text.size i.content) (L.map i.after) = contentAt p L := by
  rw [contentAt, contentAt, List.flatMap_map]
  congr 1
  funext j
  have hiff : (i.after j).position = p + Text.size i.content ↔ j.position = p := by
    simp only [after, next]
    split <;> omega
  simp only [hiff]
  rfl

/-- One insertion may be made at once, if all others are moved along. -/
theorem interleave_after (h : i.apply s = .ok s') :
    interleave (i :: L) 0 s = interleave (L.map i.after) 0 s' := by
  obtain ⟨before, rest, rfl, hsize, rfl⟩ := exists_of_apply h
  suffices hat : ∀ n b, n + Text.size b = i.position →
      interleave (i :: L) n (b ++ rest) =
        interleave (L.map i.after) n (b ++ (i.content ++ rest)) from
    hat 0 before (by omega)
  intro n b hb
  induction b generalizing n with
  | nil =>
    rw [Text.size_nil, Nat.add_zero] at hb
    -- No place is left inside of what is put in.
    have hcontent : ∀ j ∈ L.map i.after, j.position < n ∨ n + Text.size i.content ≤ j.position := by
      intro j hj
      obtain ⟨k, -, rfl⟩ := List.mem_map.1 hj
      simp only [after, next]
      split <;> omega
    have hrest : interleave L n rest = interleave (L.map i.after) (n + Text.size i.content) rest :=
      interleave_congr fun p hp => (contentAt_after_of_le (by rw [← hb]; exact hp)).symm
    rw [List.nil_append, List.nil_append, interleave_cons hb.symm,
      interleave_append hcontent, hrest]
  | cons c b ih =>
    have hc := Char.utf8Size_pos c
    rw [Text.size_cons] at hb
    rw [List.cons_append, List.cons_append, interleave, interleave, ih _ (by omega),
      contentAt_cons_of_ne (by omega), contentAt_after_of_lt (by omega)]

end after

section pair

end pair

end SourceLists.Insertion
