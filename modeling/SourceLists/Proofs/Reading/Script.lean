import SourceLists.Proofs.Reading.Statement
import SourceLists.Script.Parse
import SourceLists.Script.Scan

/-! The statements that `parse` and `scan` find are well-formed. -/

namespace SourceLists
open Grammar Grammar.Rule

variable {s rest : Text} {script : Script} {i : Invocation}

theorem singleStatement_read_eq_some {g : Text} :
    singleStatement.read s = some ((g, i), rest) ↔
      ∃ t, gap.read s = some (g, t) ∧ statement.read t = some (i, rest) := by
  rw [singleStatement, read_named, read_seq_eq_some]
  constructor
  · rintro ⟨_, t, i', hfront, hi, heq⟩
    obtain ⟨g', hg, rfl⟩ := read_map_eq_some.1 hfront
    cases heq
    exact ⟨t, hg, hi⟩
  · rintro ⟨t, hg, hi⟩
    exact ⟨Prod.mk g, t, i, read_map_eq_some.2 ⟨g, hg, rfl⟩, hi, rfl⟩

theorem parse_eq_ok :
    parse s = .ok script ↔ ∃ g t i rest, gap.read s = some (g, t) ∧
      statement.read t = some (i, rest) ∧ script = (i.statement? (Text.size g)).toList := by
  have hiff : parse s = .ok script ↔ ∃ g i rest, singleStatement.read s = some ((g, i), rest) ∧
      script = (i.statement? (Text.size g)).toList := by
    unfold parse
    generalize singleStatement.read s = o
    rcases o with - | ⟨⟨g, i⟩, rest⟩
    · simp
    · simp only [Except.ok.injEq, Option.some.injEq, Prod.mk.injEq]
      constructor
      · rintro rfl
        exact ⟨g, i, rest, ⟨⟨rfl, rfl⟩, rfl⟩, rfl⟩
      · rintro ⟨_, _, _, ⟨⟨rfl, rfl⟩, rfl⟩, rfl⟩
        rfl
  rw [hiff]
  constructor
  · rintro ⟨g, i, rest, h, rfl⟩
    obtain ⟨t, hg, hi⟩ := singleStatement_read_eq_some.1 h
    exact ⟨g, t, i, rest, hg, hi, rfl⟩
  · rintro ⟨g, t, i, rest, hg, hi, rfl⟩
    exact ⟨g, i, rest, singleStatement_read_eq_some.2 ⟨t, hg, hi⟩, rfl⟩

/-- What is read stands behind a gap. -/
theorem parse_eq_ok_iff : parse s = .ok script ↔ ∃ g i rest, s = g ++ (i.text ++ rest) ∧ IsGap g ∧
    statement.read (i.text ++ rest) = some (i, rest) ∧
      script = (i.statement? (Text.size g)).toList := by
  rw [parse_eq_ok]
  constructor
  · rintro ⟨g, t, i, rest, hg, hi, hscript⟩
    obtain ⟨rfl, -⟩ := wellFormed_of_statement hi
    have hs : g ++ (i.text ++ rest) = s := gap_lossless hg
    exact ⟨g, i, rest, hs.symm, (isGap_of_gap_read hg (by simp [Invocation.text])).1, hi, hscript⟩
  · rintro ⟨g, i, rest, rfl, hg, hi, hscript⟩
    have hwf := (wellFormed_of_statement hi).2
    exact ⟨g, _, i, rest, gap_read_append hg hwf.settled_text, hi, hscript⟩

theorem parse_eq_singleton {st : Statement} :
    parse s = .ok [st] ↔ ∃ g i rest, s = g ++ (i.text ++ rest) ∧ IsGap g ∧
      statement.read (i.text ++ rest) = some (i, rest) ∧ i.statement? (Text.size g) = some st := by
  rw [parse_eq_ok_iff]
  have hone : ∀ o : Option Statement, [st] = o.toList ↔ o = some st := by
    intro o
    rw [eq_comm, Option.toList_eq_singleton_iff]
  simp only [hone]

namespace Grammar
open Argument
variable {tok : Token} {a : Argument} {args more : List Argument} {item : Item} {start : Nat}

theorem itemsAt_append :
    itemsAt start (args ++ more) =
      itemsAt start args ++ itemsAt (start + Text.size (texts args)) more := by
  induction args generalizing start with
  | nil => rfl
  | cons a args ih =>
    simp [itemsAt, ih, Argument.text, Nat.add_assoc]

theorem Token.span_of_item? (h : tok.item? start = some item) :
    item.span = ⟨start, start + Text.size tok.text⟩ := by
  cases tok with
  | keyword w => contradiction
  | literal x => cases h; rfl
  | reference quoted name => cases h; rfl

/-- Each item is that of an argument. -/
theorem exists_of_mem_itemsAt (h : item ∈ itemsAt start args) : ∃ front a tail,
    args = front ++ a :: tail ∧ a.token.item? (start + Text.size (texts front)) = some item := by
  induction args generalizing start with
  | nil => contradiction
  | cons b args ih =>
    rw [itemsAt, List.mem_append, Option.mem_toList] at h
    rcases h with h | h
    · exact ⟨[], b, args, rfl, h⟩
    · obtain ⟨front, a, tail, rfl, ha⟩ := ih h
      refine ⟨b :: front, a, tail, rfl, ?_⟩
      rw [← ha, texts_cons, ← List.append_assoc, Text.size_append, Nat.add_assoc]
      rfl

theorem Token.IsItem.exists_item? (h : tok.IsItem) (start : Nat) :
    ∃ item, tok.item? start = some item := by
  rcases h.literal_or_reference with ⟨x, rfl⟩ | ⟨quoted, name, rfl⟩
  · exact ⟨_, rfl⟩
  · exact ⟨_, rfl⟩

theorem Invocation.size_text :
    Text.size i.text = Text.size i.head + Text.size (texts i.arguments) + 1 := by
  simp [Invocation.text, Invocation.body, texts, Char.utf8Size]
  omega

end Grammar

namespace Scan

theorem wellFormed_of_mem_segments {previous : Option Char}
    (h : .statement i ∈ segments previous s) : i.WellFormed := by
  fun_induction segments previous s with
  | case1 => contradiction
  | case2 _ rest ih => exact ih (by simpa using h)
  | case3 _ rest _ ih => exact ih (by simpa using h)
  | case4 _ c rest _ _ _ j behind hj ih =>
    rcases List.mem_cons.1 h with heq | h
    · cases heq
      exact (wellFormed_of_statement hj).2
    · exact ih h
  | case5 _ c rest _ _ _ _ ih => exact ih (by simpa using h)
  | case6 _ c rest _ _ _ ih => exact ih (by simpa using h)

end Scan
end SourceLists
