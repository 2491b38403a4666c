import SourceLists.Proofs.Reading.Statement

/-! Texts that differ in the case of letters, but not where a word has a meaning in one spelling
only. -/

namespace SourceLists.Grammar

variable {w x x' : Text} {kind : Option Kind}

/-- The marks that have a meaning of their own. -/
def marks : List Char := ['"', '\\', '(', ')', '#', '$', '\x7b', '\x7d', '\n', '\r']

theorem caseless_mark {m : Char} (hm : m ∈ marks) : Caseless (· == m) := by
  have hmarks : ∀ m ∈ marks, ∀ c ∈ capitals, (c.toLower == m) = (c == m) := by decide
  exact caseless_of_capitals (hmarks m hm)

theorem eq_mark_iff {c d m : Char} (hm : m ∈ marks) (h : c.toLower = d.toLower) :
    c = m ↔ d = m := by
  have heq := (caseless_mark hm).eq h
  rwa [Bool.eq_iff_iff, beq_iff_eq, beq_iff_eq] at heq

/-- The words that mean something in one spelling only. -/
def exactWords : List String :=
  ["PRIVATE", "PUBLIC", "INTERFACE", "PARENT_SCOPE", "OBJECT", "STATIC", "SHARED", "MODULE",
    "EXCLUDE_FROM_ALL", "WIN32", "MACOSX_BUNDLE", "IMPORTED", "ALIAS", "ENV"]

theorem plainWords_exactWords : PlainWords exactWords := by decide

def IsExact (w : Text) : Prop := w ∈ exactWords.map String.toList

theorem IsExact.ne_nil (h : IsExact w) : w ≠ [] := (plainWords_exactWords w h).1

theorem IsExact.isIdentifierChar (h : IsExact w) : ∀ c ∈ w, isIdentifierChar c :=
  (plainWords_exactWords w h).2

/-- None of these words ends in a command, and no command ends in one of them. -/
theorem IsExact.not_isSuffix (h : IsExact w) (hx : x.map Char.toLower = command kind) :
    ¬ w <:+ x ∧ ¬ x <:+ w := by
  have hwords : ∀ kind, ∀ w ∈ exactWords.map String.toList,
      ¬ w.map Char.toLower <:+ command kind ∧ ¬ command kind <:+ w.map Char.toLower := by
    rintro (- | (- | - | - | -)) <;> decide
  obtain ⟨hwx, hxw⟩ := hwords kind w h
  rw [← hx] at hwx hxw
  exact ⟨fun hs => hwx (hs.map Char.toLower), fun hs => hxw (hs.map Char.toLower)⟩

/-- The word stands at the beginning of the text. -/
def Stands (w s : Text) : Prop := ∃ rest, s = w ++ rest ∧ EndsWord rest

namespace Stands
variable {y u : Text}

/-- One word stands at the beginning of a text. -/
theorem unique (h : Stands w (x ++ y)) (hw : ∀ c ∈ w, isIdentifierChar c)
    (hx : ∀ c ∈ x, isIdentifierChar c) (hy : EndsWord y) : w = x := by
  obtain ⟨rest, heq, hrest⟩ := h
  have hrun := congrArg (List.takeWhile isIdentifierChar) heq
  rw [List.takeWhile_append_of_pos hx, List.takeWhile_append_of_pos hw, takeWhile_of_endsWord hy,
    takeWhile_of_endsWord hrest, List.append_nil, List.append_nil] at hrun
  exact hrun.symm

/-- A word in front of a place does not depend on the text behind it, unless it goes on there. -/
theorem of_append (h : Stands w (u ++ (x ++ y))) (hw : ∀ c ∈ w, isIdentifierChar c)
    (hx : ∀ c ∈ x, isIdentifierChar c) (hne : x ≠ []) (hy : EndsWord y) (hcross : ¬ x <:+ w)
    (t : Text) :
    Stands w (u ++ t) := by
  obtain ⟨rest, heq, hrest⟩ := h
  rcases List.append_eq_append_iff.1 heq with ⟨e, rfl, he⟩ | ⟨e, rfl, rfl⟩
  · have hstands : Stands e (x ++ y) := ⟨rest, he, hrest⟩
    obtain rfl := hstands.unique (fun c hc => hw c (List.mem_append_right u hc)) hx hy
    exact absurd (List.suffix_append u e) hcross
  · cases e with
    | nil =>
      obtain ⟨c, x, rfl⟩ := List.exists_cons_of_ne_nil hne
      exact absurd (hx c List.mem_cons_self) (endsWord_cons.1 hrest)
    | cons d e => exact ⟨d :: (e ++ t), by simp, endsWord_cons.2 (endsWord_cons.1 hrest)⟩

end Stands

/-- The same letters, in either case, with the same exact words at the same places. -/
inductive Recased : Text → Text → Prop
  | nil : Recased [] []
  | cons {c d : Char} {s t : Text} (hcase : c.toLower = d.toLower)
      (hwords : ∀ w, IsExact w → (Stands w (c :: s) ↔ Stands w (d :: t))) (h : Recased s t) :
      Recased (c :: s) (d :: t)

namespace Recased
variable {s t u y rest : Text} {c : Char}

theorem refl (s : Text) : Recased s s := by
  induction s with
  | nil => exact .nil
  | cons c s ih => exact .cons rfl (fun _ _ => Iff.rfl) ih

theorem symm (h : Recased s t) : Recased t s := by
  induction h with
  | nil => exact .nil
  | cons hcase hwords _ ih => exact .cons hcase.symm (fun w hw => (hwords w hw).symm) ih

theorem length_eq (h : Recased s t) : s.length = t.length := by
  induction h with
  | nil => rfl
  | cons _ _ _ ih => rw [List.length_cons, List.length_cons, ih]

theorem drop (h : Recased s t) (n : Nat) : Recased (s.drop n) (t.drop n) := by
  induction n generalizing s t with
  | zero => exact h
  | succ n ih =>
    cases h with
    | nil => exact .nil
    | cons _ _ h => exact ih h

theorem exists_cons (h : Recased (c :: s) t) (hc : c ∈ marks) : ∃ u, t = c :: u ∧ Recased s u := by
  cases h with
  | cons hcase _ h =>
    obtain rfl := (eq_mark_iff hc hcase).1 rfl
    exact ⟨_, rfl, h⟩

theorem exists_append (h : Recased (w ++ rest) t) (hw : IsExact w) (hrest : EndsWord rest) :
    ∃ u, t = w ++ u ∧ Recased rest u := by
  have hstands : Stands w t := by
    generalize hs : w ++ rest = s at h
    cases h with
    | nil => exact absurd (List.append_eq_nil_iff.1 hs).1 hw.ne_nil
    | cons _ hwords _ => exact (hwords w hw).1 ⟨rest, hs.symm, hrest⟩
  obtain ⟨u, rfl, -⟩ := hstands
  have hdrop := h.drop w.length
  rw [List.drop_left, List.drop_left] at hdrop
  exact ⟨u, rfl, hdrop⟩

/-- A word can be written in other letters if no exact word is at its end. -/
theorem append_right (hx : ∀ c ∈ x, isIdentifierChar c) (hx' : ∀ c ∈ x', isIdentifierChar c)
    (hcase : x.map Char.toLower = x'.map Char.toLower)
    (hfree : ∀ w, IsExact w → ¬ w <:+ x ∧ ¬ w <:+ x') (hy : EndsWord y) :
    Recased (x ++ y) (x' ++ y) := by
  induction x generalizing x' with
  | nil =>
    obtain rfl := List.map_eq_nil_iff.1 hcase.symm
    exact refl y
  | cons c x ih =>
    obtain ⟨d, z, rfl, hd, hz⟩ := List.map_eq_cons_iff.1 hcase.symm
    refine .cons hd.symm (fun w hw => ⟨fun h => ?_, fun h => ?_⟩) ?_
    · obtain rfl := h.unique (x := c :: x) hw.isIdentifierChar hx hy
      exact absurd List.suffix_rfl (hfree _ hw).1
    · obtain rfl := h.unique (x := d :: z) hw.isIdentifierChar hx' hy
      exact absurd List.suffix_rfl (hfree _ hw).2
    · refine ih (List.forall_mem_cons.1 hx).2 (List.forall_mem_cons.1 hx').2 hz.symm fun w hw => ?_
      obtain ⟨hwx, hwx'⟩ := hfree w hw
      exact ⟨fun h => hwx (h.trans (List.suffix_cons c x)),
        fun h => hwx' (h.trans (List.suffix_cons d z))⟩

/-- The command word of a statement in other letters. -/
theorem command_word (hx : x.map Char.toLower = command kind)
    (hx' : x'.map Char.toLower = command kind) (hy : EndsWord y) (u : Text) :
    Recased (u ++ (x ++ y)) (u ++ (x' ++ y)) := by
  have hid := isIdentifierChar_of_command hx
  have hid' := isIdentifierChar_of_command hx'
  have hne := ne_nil_of_command hx
  have hne' := ne_nil_of_command hx'
  induction u with
  | nil =>
    exact append_right hid hid' (hx.trans hx'.symm)
      (fun w hw => ⟨(hw.not_isSuffix hx).1, (hw.not_isSuffix hx').1⟩) hy
  | cons c u ih =>
    refine .cons rfl (fun w hw => ⟨fun h => ?_, fun h => ?_⟩) ih
    · exact Stands.of_append (u := c :: u) h hw.isIdentifierChar hid hne hy (hw.not_isSuffix hx).2 _
    · exact Stands.of_append (u := c :: u) h hw.isIdentifierChar hid' hne' hy
        (hw.not_isSuffix hx').2 _

end Recased

end SourceLists.Grammar
