import SourceLists.Insertion.ClassFiles
import SourceLists.Proofs.Insertion.Interleaving
import SourceLists.Proofs.Insertion.Lookup

/-! A batch of insertions is made at once, or not at all: it depends on the text as it was given,
and on the order of the insertions only where they have the same place. A batch that fails does so
at the last place that the text does not have. -/

namespace SourceLists

namespace Text

variable {s t u : Text} {n : Nat}

theorem size_of_perm (h : s.Perm t) : size s = size t := by
  induction h with
  | nil => rfl
  | cons c _ ih => rw [size_cons, size_cons, ih]
  | swap c d s =>
    simp only [size_cons]
    omega
  | trans _ _ ih ih' => exact ih.trans ih'

/-- Where a text can be cut does not depend on what comes behind. -/
theorem isBoundary_append_congr (hn : n ≤ size s) (h : (s ++ t).IsBoundary n) :
    (s ++ u).IsBoundary n := by
  obtain ⟨before, after, heq, hsize⟩ := h
  rcases List.append_eq_append_iff.1 heq with ⟨w, hw, -⟩ | ⟨w, rfl, -⟩
  · have hw' : w = [] := by
      rw [hw, size_append] at hsize
      exact size_eq_zero.1 (by omega)
    rw [hw', List.append_nil] at hw
    exact ⟨s, u, rfl, hw ▸ hsize⟩
  · exact ⟨before, w ++ u, List.append_assoc _ _ _, hsize⟩

end Text

namespace Insertion

variable {s s' : Text} {p : Nat} {i j : Insertion} {L L' front tail : List Insertion}

theorem apply_eq_error (h : ¬ s.IsBoundary i.position) :
    i.apply s = .error (.positionOutOfBounds i.position (Text.size s)) := by
  rw [apply]
  split
  · next before after hsplit =>
    obtain ⟨hs, hsize⟩ := Text.splitAt?_eq_some.1 hsplit
    exact absurd ⟨before, after, hs.symm, hsize⟩ h
  · rfl

/-- Insertions at later places leave a text where it can be cut, and where it can not. -/
theorem isBoundary_of_interleave (hL : Descending L) (hs : ∀ j ∈ L, s.IsBoundary j.position)
    (hp : ∀ j ∈ L, p ≤ j.position) (h : (interleave L.reverse 0 s).IsBoundary p) :
    s.IsBoundary p := by
  rcases List.eq_nil_or_concat' L with rfl | ⟨front, k, rfl⟩
  · rwa [List.reverse_nil, interleave_nil] at h
  · -- The last of them has the first place.
    obtain ⟨before, after, rfl, hsize⟩ := hs k (by simp)
    have hfirst :
        ∀ j ∈ (front ++ [k]).reverse, j.position < 0 ∨ 0 + Text.size before ≤ j.position := by
      intro j hj
      right
      rcases List.mem_append.1 (List.mem_reverse.1 hj) with hj | hj
      · have := (List.pairwise_append.1 hL).2.2 j hj k (List.mem_singleton_self k)
        omega
      · rw [List.mem_singleton.1 hj]
        omega
    rw [interleave_append hfirst] at h
    exact Text.isBoundary_append_congr (hsize ▸ hp k (by simp)) h

theorem Descending.le_head (h : Descending (i :: L)) (hj : j ∈ i :: L) :
    j.position ≤ i.position := by
  rcases List.mem_cons.1 hj with rfl | hj
  · exact Nat.le_refl _
  · exact (List.pairwise_cons.1 h).1 j hj

/-- The bytes that insertions put in behind a place. -/
def sizeBehind (p : Nat) (L : List Insertion) : Nat :=
  Text.size ((L.filter (p < ·.position)).flatMap content)

theorem sizeBehind_ordered : sizeBehind p (ordered L) = sizeBehind p L :=
  Text.size_of_perm ((ordered_perm.filter _).flatMap_right content)

theorem sizeBehind_eq_zero_iff : sizeBehind p L = 0 ↔ ∀ i ∈ L, p < i.position → i.content = [] := by
  simp only [sizeBehind, Text.size_eq_zero, List.flatMap_eq_nil_iff, List.mem_filter,
    decide_eq_true_eq, and_imp]

theorem size_foldlM (h : L.foldlM (fun text i => i.apply text) s = .ok s') :
    Text.size s' = Text.size s + Text.size (L.flatMap content) := by
  induction L generalizing s with
  | nil =>
    cases h
    rfl
  | cons i L ih =>
    rw [List.foldlM_cons] at h
    cases hi : i.apply s with
    | error e =>
      rw [hi] at h
      contradiction
    | ok t =>
      rw [hi] at h
      obtain ⟨before, after, rfl, -, rfl⟩ := exists_of_apply hi
      rw [ih h, List.flatMap_cons]
      simp only [Text.size_append]
      omega

/-- From the last place to the first, all goes well up to an insertion that has no place. It has
none in the text that has grown behind it, either. -/
theorem foldlM_apply_eq_error (hL : Descending (front ++ i :: tail))
    (hfront : ∀ j ∈ front, s.IsBoundary j.position) (hi : ¬ s.IsBoundary i.position) :
    (front ++ i :: tail).foldlM (fun text i => i.apply text) s =
      .error (.positionOutOfBounds i.position
        (Text.size s + sizeBehind i.position (front ++ i :: tail))) := by
  obtain ⟨hdescending, htail, hlast⟩ := List.pairwise_append.1 hL
  have hle : ∀ j ∈ front, i.position ≤ j.position := fun j hj => hlast j hj i List.mem_cons_self
  have hmade := foldlM_apply hdescending hfront
  have hi' : ¬ (interleave front.reverse 0 s).IsBoundary i.position :=
    mt (isBoundary_of_interleave hdescending hfront hle) hi
  have hbehind : (front ++ i :: tail).filter (i.position < ·.position) = front := by
    have hall : front.filter (i.position < ·.position) = front := by
      rw [List.filter_eq_self]
      intro j hj
      have hne : i.position ≠ j.position := fun heq => hi (heq ▸ hfront j hj)
      have := hle j hj
      simp
      omega
    have hnone : (i :: tail).filter (i.position < ·.position) = [] := by
      rw [List.filter_eq_nil_iff]
      intro j hj
      have := Descending.le_head htail hj
      simp
      omega
    rw [List.filter_append, hall, hnone, List.append_nil]
  rw [List.foldlM_append, hmade, sizeBehind, hbehind, ← size_foldlM hmade]
  change (i.apply _ >>= fun text => tail.foldlM (fun text i => i.apply text) text) = _
  rw [apply_eq_error hi']
  rfl

/-- The last of the places of insertions that are none in a text. -/
structure LastMissing (s : Text) (L : List Insertion) (p : Nat) : Prop where
  mem : ∃ i ∈ L, i.position = p
  missing : ¬ s.IsBoundary p
  le : ∀ i ∈ L, ¬ s.IsBoundary i.position → i.position ≤ p

theorem exists_lastMissing (h : ∃ i ∈ L, ¬ s.IsBoundary i.position) :
    ∃ p, LastMissing s L p ∧
      applyAll L s = .error (.positionOutOfBounds p (Text.size s + sizeBehind p L)) := by
  obtain ⟨j, hj, hbad⟩ := h
  -- In the order of their making it is the first one that fails.
  obtain ⟨i, front, tail, hordered, hi, hfront⟩ :=
    exists_firstIn (p := fun i => ¬ s.IsBoundary i.position) ⟨j, mem_ordered.2 hj, hbad⟩
  have hL : Descending (front ++ i :: tail) := hordered ▸ descending_ordered
  have hgood : ∀ k ∈ front, s.IsBoundary k.position := fun k hk => not_not.1 (hfront k hk)
  have hmem : ∀ k, k ∈ L ↔ k ∈ front ++ i :: tail := fun k => by rw [← hordered, mem_ordered]
  refine ⟨i.position, ⟨⟨i, (hmem i).2 (by simp), rfl⟩, hi, ?_⟩, ?_⟩
  · intro k hk hmissing
    rcases List.mem_append.1 ((hmem k).1 hk) with hk | hk
    · exact absurd (hgood k hk) hmissing
    · exact Descending.le_head (List.pairwise_append.1 hL).2.1 hk
  · rw [applyAll, ← sizeBehind_ordered, hordered]
    exact foldlM_apply_eq_error hL hgood hi

theorem applyAll_eq_error (h : ∃ i ∈ L, ¬ s.IsBoundary i.position) :
    ∃ e, applyAll L s = .error e := by
  obtain ⟨p, -, he⟩ := exists_lastMissing h
  exact ⟨_, he⟩

theorem mem_iff_of_filter_eq (h : ∀ p, L.filter (·.position = p) = L'.filter (·.position = p)) :
    i ∈ L ↔ i ∈ L' := by
  have hi := congrArg (i ∈ ·) (h i.position)
  simpa using hi

/-- From the last place to the first there is one order, if it is known at each place. -/
theorem Descending.eq_of_filter_eq (hL : Descending L) (hL' : Descending L')
    (h : ∀ p, L.filter (·.position = p) = L'.filter (·.position = p)) : L = L' := by
  induction L generalizing L' with
  | nil =>
    cases L' with
    | nil => rfl
    | cons j L' => exact absurd ((mem_iff_of_filter_eq h).2 List.mem_cons_self) List.not_mem_nil
  | cons i L ih =>
    cases L' with
    | nil => exact absurd ((mem_iff_of_filter_eq h).1 List.mem_cons_self) List.not_mem_nil
    | cons j L' =>
      have hji := hL.le_head ((mem_iff_of_filter_eq h).2 List.mem_cons_self)
      have hij := hL'.le_head ((mem_iff_of_filter_eq h).1 List.mem_cons_self)
      -- Both start with the first of those at one place.
      have hfirst := h j.position
      rw [List.filter_cons_of_pos (by simpa using Nat.le_antisymm hij hji),
        List.filter_cons_of_pos (by simp)] at hfirst
      obtain ⟨rfl, -⟩ := List.cons.inj hfirst
      have hrest : ∀ p, L.filter (·.position = p) = L'.filter (·.position = p) := by
        intro p
        have hp := h p
        simp only [List.filter_cons] at hp
        split at hp
        · exact (List.cons.inj hp).2
        · exact hp
      rw [ih (List.pairwise_cons.1 hL).2 (List.pairwise_cons.1 hL').2 hrest]

theorem ordered_congr (h : ∀ p, L'.filter (·.position = p) = L.filter (·.position = p)) :
    ordered L' = ordered L := by
  refine descending_ordered.eq_of_filter_eq descending_ordered fun p => ?_
  rw [filter_ordered, filter_ordered, h]

/-- Insertions are made all at once. They fail if one of them has no place in the text as it was
given, and only then; the result has at each place what is inserted there, in the order in which it
was asked for, and is the given text otherwise. So it is the same for any order that keeps the order
at each place. -/
theorem applyAll_simultaneous (L : List Insertion) (s : Text) :
    ((∃ e, applyAll L s = .error e) ↔ ∃ i ∈ L, ¬ s.IsBoundary i.position) ∧
      (∀ s', applyAll L s = .ok s' → s' = interleave L 0 s) ∧
      ∀ L', (∀ p, L'.filter (·.position = p) = L.filter (·.position = p)) →
        applyAll L' s = applyAll L s := by
  refine ⟨⟨?_, applyAll_eq_error⟩, ?_, ?_⟩
  · rintro ⟨e, he⟩
    by_contra hgood
    push Not at hgood
    rw [applyAll_eq_ok hgood] at he
    contradiction
  · intro s' hs'
    by_cases hbad : ∃ i ∈ L, ¬ s.IsBoundary i.position
    · obtain ⟨e, he⟩ := applyAll_eq_error hbad
      rw [he] at hs'
      contradiction
    · push Not at hbad
      rw [applyAll_eq_ok hbad] at hs'
      exact (Except.ok.inj hs').symm
  · intro L' hL'
    rw [applyAll, applyAll, ordered_congr hL']

/-- Two files at one place, each behind a separator, and one at another place, for which it may be
asked at any time. -/
theorem applyAll_at_one_place :
    let s : Text := "set(H a.h)\nset(S a.c)".toList
    let b : Insertion := ⟨9, [' '], "b.h".toList⟩
    let c : Insertion := ⟨9, [' '], "c.h".toList⟩
    let d : Insertion := ⟨20, "\n  ".toList, "d.c".toList⟩
    applyAll [b, d, c] s = .ok "set(H a.h b.h c.h)\nset(S a.c\n  d.c)".toList ∧
      applyAll [d, b, c] s = .ok "set(H a.h b.h c.h)\nset(S a.c\n  d.c)".toList := by
  intro s b c d
  obtain ⟨herror, hok, horder⟩ := applyAll_simultaneous [b, d, c] s
  have hH : s.IsBoundary 9 := ⟨"set(H a.h".toList, ")\nset(S a.c)".toList, rfl, rfl⟩
  have hS : s.IsBoundary 20 := ⟨"set(H a.h)\nset(S a.c".toList, [')'], rfl, rfl⟩
  have hplaces : ∀ i ∈ [b, d, c], s.IsBoundary i.position :=
    List.forall_mem_cons.2 ⟨hH, List.forall_mem_cons.2 ⟨hS, List.forall_mem_singleton.2 hH⟩⟩
  have hall : applyAll [b, d, c] s = .ok "set(H a.h b.h c.h)\nset(S a.c\n  d.c)".toList := by
    cases hresult : applyAll [b, d, c] s with
    | error e =>
      obtain ⟨i, hi, hnot⟩ := herror.1 ⟨e, hresult⟩
      exact absurd (hplaces i hi) hnot
    | ok s' =>
      rw [hok s' hresult]
      rfl
  refine ⟨hall, (horder [d, b, c] fun p => ?_).trans hall⟩
  by_cases hp : b.position = p
  · subst hp
    rfl
  · have hp' : c.position ≠ p := hp
    simp [List.filter_cons, hp, hp']

theorem LastMissing.unique {q : Nat} (hp : LastMissing s L p) (hq : LastMissing s L q) : p = q := by
  obtain ⟨i, hi, rfl⟩ := hp.mem
  obtain ⟨j, hj, rfl⟩ := hq.mem
  exact Nat.le_antisymm (hq.le i hi hp.missing) (hp.le j hj hq.missing)

/-- A batch that fails names the last of the places that its insertions have and the text as it was
given has not. The size that it names is that of the text with all that was put in behind this place
before, and so the size of the given text if nothing was, and only then. -/
theorem applyAll_error (L : List Insertion) (s : Text) :
    (∀ e, applyAll L s = .error e ↔ ∃ p, LastMissing s L p ∧
        e = .positionOutOfBounds p (Text.size s + sizeBehind p L)) ∧
      ∀ p n, applyAll L s = .error (.positionOutOfBounds p n) →
        (n = Text.size s ↔ ∀ i ∈ L, p < i.position → i.content = []) := by
  have hfailed : ∀ e, applyAll L s = .error e ↔ ∃ p, LastMissing s L p ∧
      e = .positionOutOfBounds p (Text.size s + sizeBehind p L) := by
    intro e
    constructor
    · intro he
      have hbad : ∃ i ∈ L, ¬ s.IsBoundary i.position := by
        by_contra hgood
        push Not at hgood
        rw [applyAll_eq_ok hgood] at he
        contradiction
      obtain ⟨p, hp, herror⟩ := exists_lastMissing hbad
      rw [he] at herror
      exact ⟨p, hp, Except.error.inj herror⟩
    · rintro ⟨p, hp, rfl⟩
      obtain ⟨i, hi, rfl⟩ := hp.mem
      obtain ⟨q, hq, herror⟩ := exists_lastMissing ⟨i, hi, hp.missing⟩
      rw [herror, hp.unique hq]
  refine ⟨hfailed, fun p n h => ?_⟩
  obtain ⟨q, -, heq⟩ := (hfailed _).1 h
  obtain ⟨rfl, rfl⟩ := InsertError.positionOutOfBounds.inj heq
  rw [← sizeBehind_eq_zero_iff]
  omega

/-- The size of the text that has grown by two bytes. -/
theorem applyAll_error_inside :
    applyAll [⟨2, [' '], ['x']⟩, ⟨1, [' '], ['y']⟩] ['é'] = .error (.positionOutOfBounds 1 4) ∧
      ¬ ∀ i ∈ [(⟨2, [' '], ['x']⟩ : Insertion), ⟨1, [' '], ['y']⟩],
        1 < i.position → i.content = [] := by
  have herror : applyAll [⟨2, [' '], ['x']⟩, ⟨1, [' '], ['y']⟩] ['é'] =
      .error (.positionOutOfBounds 1 4) := rfl
  have hsize : 4 ≠ Text.size ['é'] := by decide
  exact ⟨herror, mt ((applyAll_error _ _).2 1 4 herror).2 hsize⟩

end Insertion

namespace ClassInsertions
open Insertion

variable {c : ClassInsertions} {p : Nat}

theorem descending_inOrder : Descending c.inOrder := by
  rw [inOrder]
  split
  · next hlt => exact List.pairwise_pair.2 (Nat.le_of_lt hlt)
  · next hge => exact List.pairwise_pair.2 (Nat.le_of_not_lt hge)

/-- At one place the implementation comes first. -/
theorem filter_inOrder (p : Nat) :
    c.inOrder.filter (·.position = p) =
      ([c.header, c.implementation].filter (·.position = p)).reverse := by
  rw [inOrder]
  split
  · next hlt =>
    -- There is only one of them at a place.
    by_cases hp : c.header.position = p
    · have hne : c.implementation.position ≠ p := by omega
      simp [hp, hne]
    · by_cases hp' : c.implementation.position = p <;> simp [hp, hp']
  · rw [← List.filter_reverse]
    rfl

theorem inOrder_eq_ordered : c.inOrder = ordered [c.header, c.implementation] :=
  descending_inOrder.eq_of_filter_eq descending_ordered fun p =>
    (filter_inOrder p).trans (filter_ordered p _).symm

/-- The files of a class that are put in one after the other, in their order, make the text that
they make in one batch, or fail as they fail there. -/
theorem foldlM_inOrder (c : ClassInsertions) (s : Text) :
    c.inOrder.foldlM (fun text i => i.apply text) s = applyAll [c.header, c.implementation] s := by
  rw [applyAll, inOrder_eq_ordered]

end ClassInsertions
end SourceLists
