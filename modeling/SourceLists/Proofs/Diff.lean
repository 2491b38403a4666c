import Mathlib.Data.List.Basic
import Mathlib.Data.List.TakeWhile
import SourceLists.Diff

/-! The lines in which two texts differ, as they are printed: each of the texts can be read off
them. -/

namespace SourceLists

variable {s t line : Text} {lines : List Text}

namespace Text

theorem ne_lineFeed_of_mem_lines (h : line ∈ Text.lines s) : '\n' ∉ line := by
  induction s generalizing line with
  | nil =>
    rw [List.mem_singleton.1 h]
    exact List.not_mem_nil
  | cons c s ih =>
    rw [Text.lines] at h
    split at h
    · rcases List.mem_cons.1 h with rfl | h
      · exact List.not_mem_nil
      · exact ih h
    · next hc =>
      obtain ⟨first, rest, hlines⟩ := List.exists_cons_of_ne_nil (@lines_ne_nil s)
      rw [hlines] at h ih
      rcases List.mem_cons.1 h with rfl | h
      · have hfirst := ih List.mem_cons_self
        rw [List.mem_cons, not_or]
        exact ⟨fun heq => hc heq.symm, hfirst⟩
      · exact ih (List.mem_cons_of_mem first h)

/-- A line is read up to its line feed. -/
theorem lines_append (h : '\n' ∉ line) : Text.lines (line ++ '\n' :: s) = line :: Text.lines s := by
  induction line with
  | nil => simp [Text.lines]
  | cons c line ih =>
    rw [List.mem_cons, not_or] at h
    rw [List.cons_append, Text.lines, if_neg fun hc => h.1 hc.symm, ih h.2]
    rfl

theorem lines_of_not_mem (h : '\n' ∉ line) : Text.lines line = [line] := by
  induction line with
  | nil => rfl
  | cons c line ih =>
    rw [List.mem_cons, not_or] at h
    rw [Text.lines, if_neg fun hc => h.1 hc.symm, ih h.2]
    rfl

theorem lines_unlines (hne : lines ≠ []) (h : ∀ line ∈ lines, '\n' ∉ line) :
    Text.lines (Text.unlines lines) = lines := by
  induction lines with
  | nil => contradiction
  | cons first rest ih =>
    obtain ⟨hfirst, hrest⟩ := List.forall_mem_cons.1 h
    cases rest with
    | nil =>
      rw [show Text.unlines [first] = first by simp [Text.unlines, List.intercalate]]
      exact lines_of_not_mem hfirst
    | cons second rest =>
      have hunlines : Text.unlines (first :: second :: rest) =
          first ++ '\n' :: Text.unlines (second :: rest) := by
        simp [Text.unlines, List.intercalate]
      rw [hunlines, lines_append hfirst, ih (by simp) hrest]

end Text

namespace Diff

variable {kept old new : List Text} {mark : Mark} {cs cs' : List Chunk} {i j : Nat}
  {taken : List Text} {lengths : Array Nat}

section common

theorem take_succ_append (h : old[i]? = some line) :
    (old.take i ++ [line]).Sublist (old.take (i + 1)) := by
  rw [List.take_add_one, h]
  exact List.Sublist.refl _

/-- Whatever the table says, only lines that both texts have in this order are taken. -/
theorem walk_sublist (lengths : Array Nat) (old new : List Text) (i j : Nat) (taken : List Text) :
    ∃ xs, walk lengths old new i j taken = xs ++ taken ∧ xs.Sublist (old.take i) ∧
      xs.Sublist (new.take j) := by
  fun_induction walk lengths old new i j taken with
  | case1 taken i j line hnew hold ih =>
    obtain ⟨xs, hxs, hxold, hxnew⟩ := ih
    refine ⟨xs ++ [line], by rw [hxs, List.append_assoc]; rfl, ?_, ?_⟩
    · exact (hxold.append (List.Sublist.refl _)).trans (take_succ_append hold)
    · exact (hxnew.append (List.Sublist.refl _)).trans (take_succ_append hnew)
  | case3 taken i j line other hnew hold hne hcorner hup ih =>
    obtain ⟨xs, hxs, hxold, hxnew⟩ := ih
    exact ⟨xs, hxs, hxold, hxnew.trans (List.take_sublist_take_left (Nat.le_succ j))⟩
  | case4 taken i j line other hnew hold hne hcorner hup ih =>
    obtain ⟨xs, hxs, hxold, hxnew⟩ := ih
    exact ⟨xs, hxs, hxold.trans (List.take_sublist_take_left (Nat.le_succ i)), hxnew⟩
  | case2 | case5 | case6 => exact ⟨[], rfl, List.nil_sublist _, List.nil_sublist _⟩

theorem common_sublist (old new : List Text) :
    (common old new).Sublist old ∧ (common old new).Sublist new := by
  obtain ⟨xs, hxs, hold, hnew⟩ := walk_sublist (table old new) old new old.length new.length []
  rw [common, hxs, List.append_nil]
  rw [List.take_length] at hold hnew
  exact ⟨hold, hnew⟩

theorem unlines_linesOf : Text.unlines (linesOf s) = s := by
  cases s with
  | nil => rfl
  | cons c s => exact Text.unlines_lines

theorem ne_lineFeed_of_mem_linesOf (h : line ∈ linesOf s) : '\n' ∉ line := by
  rw [linesOf] at h
  split at h
  · contradiction
  · exact Text.ne_lineFeed_of_mem_lines h

/-- Lines of a text that are written as a text themselves are lines of it again. -/
theorem linesOf_unlines_sublist (h : lines.Sublist (Text.lines s)) :
    (linesOf (Text.unlines lines)).Sublist (linesOf s) := by
  by_cases hnil : Text.unlines lines = []
  · rw [hnil]
    exact List.nil_sublist _
  · have hne : lines ≠ [] := by
      rintro rfl
      exact hnil rfl
    have hs : s ≠ [] := by
      rintro rfl
      obtain rfl | rfl := List.sublist_singleton.1 h
      · exact hnil rfl
      · exact hnil rfl
    have hlines : linesOf (Text.unlines lines) = lines := by
      rw [linesOf, if_neg (by simpa using hnil),
        Text.lines_unlines hne fun line hline => Text.ne_lineFeed_of_mem_lines (h.mem hline)]
    rw [hlines, linesOf, if_neg (by simpa using hs)]
    exact h

end common

section merge

/-- All lines of some chunks, each with its mark. -/
def entries (cs : List Chunk) : List (Mark × Text) :=
  cs.flatMap fun c => c.lines.map (Prod.mk c.mark)

/-- The lines that have not the given mark. -/
def without (mark : Mark) (cs : List Chunk) : List Text :=
  ((entries cs).filter fun entry => entry.1 ≠ mark).map Prod.snd

theorem without_append : without mark (cs ++ cs') = without mark cs ++ without mark cs' := by
  simp [without, entries]

theorem without_chunk_of_ne {other : Mark} (h : other ≠ mark) :
    without mark (chunk other lines) = lines := by
  rw [chunk]
  split
  · next hnil => rw [List.isEmpty_iff.1 hnil]; rfl
  · simp [without, entries, List.filter_map, Function.comp_def, h]

theorem without_chunk_self : without mark (chunk mark lines) = [] := by
  rw [chunk]
  split
  · rfl
  · simp [without, entries, List.filter_map, Function.comp_def]

theorem take_agreement (kept old new : List Text) :
    old.take (agreement kept old new) = new.take (agreement kept old new) := by
  fun_induction agreement kept old new with
  | case1 k kept l old m new h ih => rw [List.take_succ_cons, List.take_succ_cons, ih, h.1, h.2]
  | case2 | case3 => rfl

/-- Where the lines agree they are the ones that are kept. -/
theorem drop_agreement_sublist (hold : kept.Sublist old) (hnew : kept.Sublist new) :
    (kept.drop (agreement kept old new)).Sublist (old.drop (agreement kept old new)) ∧
      (kept.drop (agreement kept old new)).Sublist (new.drop (agreement kept old new)) := by
  fun_induction agreement kept old new with
  | case1 k kept l old m new h ih =>
    obtain ⟨rfl, rfl⟩ := h
    exact ih (List.cons_sublist_cons.1 hold) (List.cons_sublist_cons.1 hnew)
  | case2 | case3 => exact ⟨hold, hnew⟩

theorem beforeNext_append (kept lines : List Text) :
    beforeNext kept lines ++ lines.drop (beforeNext kept lines).length = lines := by
  have hsplit :
      beforeNext kept lines ++ lines.dropWhile (fun line => kept.head? != some line) = lines :=
    List.takeWhile_append_dropWhile
  have hdrop : lines.drop (beforeNext kept lines).length =
      lines.dropWhile (fun line => kept.head? != some line) := calc
    _ = (beforeNext kept lines ++ lines.dropWhile (fun line => kept.head? != some line)).drop
        (beforeNext kept lines).length := by rw [hsplit]
    _ = _ := List.drop_left
  rw [hdrop]
  exact hsplit

/-- No line that is kept is among those before the next one. -/
theorem sublist_drop_beforeNext (h : kept.Sublist lines) :
    kept.Sublist (lines.drop (beforeNext kept lines).length) := by
  cases kept with
  | nil => exact List.nil_sublist _
  | cons k kept =>
    induction lines with
    | nil => exact h
    | cons l lines ih =>
      by_cases hkl : k = l
      · simpa [beforeNext, hkl] using h
      · have hrest : (k :: kept).Sublist lines := by
          cases h with
          | cons _ h => exact h
          | cons_cons => contradiction
        simpa [beforeNext, hkl] using ih hrest

/-- Where there is nothing to divide both texts are used up. -/
theorem eq_nil_of_stuck (hold : kept.Sublist old) (hnew : kept.Sublist new)
    (hagree : agreement kept old new = 0) (hremoved : beforeNext kept old = [])
    (hadded : beforeNext kept new = []) : old = [] ∧ new = [] := by
  cases kept with
  | nil =>
    have hall : ∀ lines, beforeNext [] lines = lines :=
      fun lines => List.takeWhile_eq_self_iff.2 fun _ _ => rfl
    rw [hall] at hremoved hadded
    exact ⟨hremoved, hadded⟩
  | cons k kept =>
    have hhead : ∀ lines, (k :: kept).Sublist lines → beforeNext (k :: kept) lines = [] →
        ∃ rest, lines = k :: rest := by
      intro lines hsub hnone
      cases lines with
      | nil => exact absurd (List.sublist_nil.1 hsub) (List.cons_ne_nil _ _)
      | cons l lines =>
        by_cases hkl : k = l
        · exact ⟨lines, by rw [hkl]⟩
        · simp [beforeNext, hkl] at hnone
    obtain ⟨old, rfl⟩ := hhead old hold hremoved
    obtain ⟨new, rfl⟩ := hhead new hnew hadded
    simp [agreement] at hagree

/-- The chunks without those that were added are the old text, and without those that were removed
the new one. -/
theorem without_merge (hold : kept.Sublist old) (hnew : kept.Sublist new) :
    without .added (merge kept old new) = old ∧ without .removed (merge kept old new) = new := by
  fun_induction merge kept old new with
  | case1 kept old new n removed added h =>
    obtain ⟨hn, hremoved, hadded⟩ := h
    simp only [removed, added, n] at hn hremoved hadded
    rw [hn, List.drop_zero, List.drop_zero] at hremoved hadded
    obtain ⟨rfl, rfl⟩ := eq_nil_of_stuck hold hnew hn hremoved hadded
    exact ⟨rfl, rfl⟩
  | case2 kept old new n removed added chunks h ih =>
    obtain ⟨hold', hnew'⟩ := drop_agreement_sublist hold hnew
    have hremoved := beforeNext_append (kept.drop n) (old.drop n)
    have hadded := beforeNext_append (kept.drop n) (new.drop n)
    rw [List.drop_drop] at hremoved hadded
    obtain ⟨ihold, ihnew⟩ := ih
      (by rw [← List.drop_drop]; exact sublist_drop_beforeNext hold')
      (by rw [← List.drop_drop]; exact sublist_drop_beforeNext hnew')
    have htake : old.take n = new.take n := take_agreement kept old new
    constructor
    · rw [without_append, ihold, without_append, without_append, without_chunk_of_ne (by decide),
        without_chunk_of_ne (by decide), without_chunk_self, List.append_nil,
        List.append_assoc, hremoved, List.take_append_drop]
    · rw [without_append, ihnew, without_append, without_append, without_chunk_of_ne (by decide),
        without_chunk_self, without_chunk_of_ne (by decide), List.append_nil,
        List.append_assoc, hadded, htake, List.take_append_drop]

/-- Around the lines that they have in common both texts are divided completely. -/
theorem without_chunks (old new : Text) :
    without .added (chunks old new) = linesOf old ∧
      without .removed (chunks old new) = linesOf new := by
  obtain ⟨hold, hnew⟩ := common_sublist (Text.lines old) (Text.lines new)
  exact without_merge (linesOf_unlines_sublist hold) (linesOf_unlines_sublist hnew)

end merge

section print

/-- The lines of an output that begin with one of the symbols, without it. -/
def linesMarked (symbols : List Char) (output : Text) : List Text :=
  ((Text.lines output).filter fun line => line.head?.any (symbols.contains ·)).map List.tail

def printed (entry : Mark × Text) : Text := entry.1.symbol :: entry.2

theorem print_eq (old new : Text) :
    print false old new = (entries (chunks old new)).flatMap fun entry =>
      printed entry ++ ['\n'] := by
  have hprint : print false old new = (chunks old new).flatMap (Chunk.print false) :=
    List.append_nil _
  rw [hprint, entries, List.flatMap_assoc]
  congr 1
  funext c
  simp [Chunk.print, printed, List.flatMap_map]

theorem lines_printed {es : List (Mark × Text)} (h : ∀ entry ∈ es, '\n' ∉ entry.2) :
    Text.lines (es.flatMap fun entry => printed entry ++ ['\n']) = es.map printed ++ [[]] := by
  induction es with
  | nil => rfl
  | cons entry es ih =>
    obtain ⟨hentry, hes⟩ := List.forall_mem_cons.1 h
    have hline : '\n' ∉ printed entry := by
      rw [printed, List.mem_cons, not_or]
      refine ⟨?_, hentry⟩
      cases entry.1 <;> decide
    rw [List.flatMap_cons, List.append_assoc, List.singleton_append,
      Text.lines_append hline, ih hes]
    rfl

theorem mem_without {entry : Mark × Text} (h : entry ∈ entries cs) (hmark : entry.1 ≠ mark) :
    entry.2 ∈ without mark cs :=
  List.mem_map_of_mem (List.mem_filter.2 ⟨h, by simpa using hmark⟩)

theorem ne_lineFeed_of_mem_entries {entry : Mark × Text} (h : entry ∈ entries (chunks s t)) :
    '\n' ∉ entry.2 := by
  obtain ⟨hold, hnew⟩ := without_chunks s t
  by_cases hmark : entry.1 = .added
  · have hmem := mem_without h (show entry.1 ≠ .removed by rw [hmark]; decide)
    exact ne_lineFeed_of_mem_linesOf (hnew ▸ hmem)
  · exact ne_lineFeed_of_mem_linesOf (hold ▸ mem_without h hmark)

/-- The symbols of all marks but one show all lines without that mark. -/
theorem linesMarked_print {symbols : List Char}
    (h : ∀ other : Mark, symbols.contains other.symbol = decide (other ≠ mark)) :
    linesMarked symbols (print false s t) = without mark (chunks s t) := by
  have hshown : (fun line : Text => line.head?.any (symbols.contains ·)) ∘ printed =
      fun entry => decide (entry.1 ≠ mark) := funext fun entry => h entry.1
  rw [print_eq, linesMarked, lines_printed fun _ => ne_lineFeed_of_mem_entries, List.filter_append,
    List.filter_map, hshown, List.map_append, List.map_map, without]
  -- Behind the last line feed there is an empty line, which has no mark.
  exact List.append_nil _

/-- The lines that are printed for the old text, or for the new one, are all of its lines in their
order. So what is printed determines both texts. -/
theorem linesMarked_print_eq_linesOf (old new : Text) :
    linesMarked [' ', '-'] (print false old new) = linesOf old ∧
      linesMarked [' ', '+'] (print false old new) = linesOf new ∧
      ∀ old' new', print false old' new' = print false old new → old' = old ∧ new' = new := by
  have hsides : ∀ old new : Text, linesMarked [' ', '-'] (print false old new) = linesOf old ∧
      linesMarked [' ', '+'] (print false old new) = linesOf new := by
    intro old new
    obtain ⟨hold, hnew⟩ := without_chunks old new
    rw [← hold, ← hnew]
    exact ⟨linesMarked_print (by rintro (- | - | -) <;> decide),
      linesMarked_print (by rintro (- | - | -) <;> decide)⟩
  obtain ⟨hold, hnew⟩ := hsides old new
  refine ⟨hold, hnew, fun old' new' hprint => ?_⟩
  obtain ⟨hold', hnew'⟩ := hsides old' new'
  rw [hprint] at hold' hnew'
  constructor
  · rw [← unlines_linesOf (s := old'), ← hold', hold, unlines_linesOf]
  · rw [← unlines_linesOf (s := new'), ← hnew', hnew, unlines_linesOf]

end print
end Diff
end SourceLists
