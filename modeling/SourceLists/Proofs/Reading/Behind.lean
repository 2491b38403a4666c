import SourceLists.Proofs.Reading.Growth
import SourceLists.Proofs.Reading.Script

/-! A statement and what stands behind it. Another text there changes nothing, unless an environment
variable is set across the end of the statement. -/

namespace SourceLists
open Grammar Grammar.Rule

variable {s t x w rest : Text} {i : Invocation} {kind : Option Kind} {script : Script}

namespace Grammar

/-- Where one kind of statement is read, it is read whatever more follows. -/
theorem alternative_read_append (h : (alternative kind).read s = some (i, rest)) (t : Text) :
    (alternative kind).read (s ++ t) = some (i, rest ++ t) := by
  obtain ⟨hkind, rfl, hwf⟩ := alternative_read_eq_some.1 h
  exact alternative_read_eq_some.2 ⟨hkind, List.append_assoc _ _ _, hwf⟩

theorem alternative_read_eq_none_of_append (h : (alternative kind).read (s ++ t) = none) :
    (alternative kind).read s = none := by
  rw [Option.eq_none_iff_forall_ne_some]
  rintro ⟨i, rest⟩ hi
  rw [alternative_read_append hi t] at h
  contradiction

/-- Only a variable of the environment comes before a statement that is read. -/
theorem statement_read_append_iff (h : statement.read s = some (i, rest)) :
    statement.read (s ++ t) = some (i, rest ++ t) ↔
      (i.kind = some .set → (alternative none).read (s ++ t) = none) := by
  rw [statement_read_eq_some]
  exact and_iff_right (alternative_read_append (statement_read_eq_some.1 h).1 t)

/-- Behind a statement the text can end earlier. -/
theorem statement_read_of_append (h : statement.read (i.text ++ (x ++ w)) = some (i, x ++ w)) :
    statement.read (i.text ++ x) = some (i, x) := by
  obtain ⟨-, henv⟩ := statement_read_eq_some.1 h
  have hwf := (wellFormed_of_statement h).2
  refine hwf.read_text fun hset => ?_
  have hnone := henv hset
  rw [← List.append_assoc] at hnone
  exact alternative_read_eq_none_of_append hnone

end Grammar

/-- The text begins with the setting of an environment variable. -/
def SetsEnvironment (s : Text) : Prop :=
  ∃ (g : Text) (i : Invocation) (rest : Text),
    s = g ++ (i.text ++ rest) ∧ IsGap g ∧ i.kind = none ∧ i.WellFormed

/-- Such a text is read, and no statement is in it. -/
theorem parse_eq_nil : parse s = .ok [] ↔ SetsEnvironment s := by
  rw [parse_eq_ok_iff]
  constructor
  · rintro ⟨g, i, rest, hs, hg, hi, hscript⟩
    have hnone : i.statement? (Text.size g) = none := Option.toList_eq_nil_iff.1 hscript.symm
    exact ⟨g, i, rest, hs, hg, Option.map_eq_none_iff.1 hnone, (wellFormed_of_statement hi).2⟩
  · rintro ⟨g, i, rest, hs, hg, hkind, hwf⟩
    have hown : (alternative i.kind).read (i.text ++ rest) = some (i, rest) :=
      alternative_read_eq_some.2 ⟨rfl, rfl, hwf⟩
    refine ⟨g, i, rest, hs, hg, statement_read_eq_some.2 ⟨hown, ?_⟩, ?_⟩
    · rw [hkind]
      intro hset
      contradiction
    · rw [Invocation.statement?, hkind]
      rfl

theorem parse_append_of_not_setsEnvironment (h : parse s = .ok script)
    (ht : ¬ SetsEnvironment (s ++ t)) : parse (s ++ t) = .ok script := by
  obtain ⟨g, i, rest, rfl, hg, hi, hscript⟩ := parse_eq_ok_iff.1 h
  have henv : (alternative none).read ((i.text ++ rest) ++ t) = none := by
    rw [Option.eq_none_iff_forall_ne_some]
    rintro ⟨j, rest'⟩ hj
    obtain ⟨hkind, hs, hwf⟩ := alternative_read_eq_some.1 hj
    exact ht ⟨g, j, rest', by rw [List.append_assoc, hs], hg, hkind, hwf⟩
  have hread := (statement_read_append_iff hi).2 fun _ => henv
  rw [List.append_assoc] at hread
  exact parse_eq_ok_iff.2 ⟨g, i, rest ++ t, by simp, hg, hread, hscript⟩

/-- What can be read both as a statement and as the setting of an environment variable is a `set` of
a variable named `ENV`. -/
theorem eq_env_of_setsEnvironment (h : parse s = .ok script) (hne : script ≠ [])
    (ht : SetsEnvironment (s ++ t)) :
    ∃ st, script = [st] ∧ st.kind = .set ∧ st.name = "ENV".toList := by
  obtain ⟨g, i, rest, rfl, hg, hi, rfl⟩ := parse_eq_ok_iff.1 h
  have hwf := (wellFormed_of_statement hi).2
  obtain ⟨g', j, rest', heq, hg', hj, hwfj⟩ := ht
  rw [List.append_assoc, List.append_assoc] at heq
  obtain ⟨-, heq'⟩ := gap_of_read hg hwf.settled_text hg' hwfj.settled_text heq
  have henv : (alternative none).read (i.text ++ (rest ++ t)) = some (j, rest') :=
    alternative_read_eq_some.2 ⟨hj, heq', hwfj⟩
  have hown : (alternative i.kind).read (i.text ++ (rest ++ t)) = some (i, rest ++ t) :=
    alternative_read_eq_some.2 ⟨rfl, rfl, hwf⟩
  cases hk : i.kind with
  | none => simp [Invocation.statement?, hk] at hne
  | some kind =>
    obtain ⟨hname, -⟩ := hwf.env_of_alternative (by simp [hk]) henv
    have hcommand := command_eq_of_read hown henv
    rw [hk] at hcommand
    have hset : kind = .set := by
      revert hcommand
      cases kind <;> decide
    exact ⟨_, by rw [Invocation.statement?, hk]; rfl, hset, hname⟩

/-- A text that is read goes on being read alike with anything behind it, unless the whole begins
with the setting of an environment variable. The only statement that can be lost to one sets a
variable `ENV`. -/
theorem parse_append (h : parse s = .ok script) (t : Text) :
    (parse (s ++ t) = .ok script ↔ (SetsEnvironment (s ++ t) → script = [])) ∧
      (SetsEnvironment (s ++ t) → script ≠ [] →
        parse (s ++ t) = .ok [] ∧ ∃ st, script = [st] ∧ st.kind = .set ∧
          st.name = "ENV".toList) := by
  refine ⟨⟨fun hsame henv => ?_, fun hempty => ?_⟩, fun henv hne => ?_⟩
  · rw [parse_eq_nil.2 henv] at hsame
    exact (Except.ok.inj hsame).symm
  · by_cases henv : SetsEnvironment (s ++ t)
    · rw [hempty henv]
      exact parse_eq_nil.2 henv
    · exact parse_append_of_not_setsEnvironment h henv
  · exact ⟨parse_eq_nil.2 henv, eq_env_of_setsEnvironment h hne henv⟩

/-- A comment that is none in the value of a variable ends the setting of an environment
variable. -/
theorem parse_append_comment :
    parse "set(ENV\x7bA\x7d#b)".toList =
        .ok [⟨.set, "ENV".toList, [.literal "\x7bA\x7d#b".toList 7], ⟨0, 13⟩⟩] ∧
      parse ("set(ENV\x7bA\x7d#b)".toList ++ "\n)".toList) ≠
        .ok [⟨.set, "ENV".toList, [.literal "\x7bA\x7d#b".toList 7], ⟨0, 13⟩⟩] := by
  have h : parse "set(ENV\x7bA\x7d#b)".toList =
      .ok [⟨.set, "ENV".toList, [.literal "\x7bA\x7d#b".toList 7], ⟨0, 13⟩⟩] := by decide +kernel
  have henv : SetsEnvironment ("set(ENV\x7bA\x7d#b)".toList ++ "\n)".toList) :=
    parse_eq_nil.1 (by decide +kernel)
  refine ⟨h, fun hsame => ?_⟩
  have hnil := (parse_append h "\n)".toList).1.1 hsame henv
  contradiction

end SourceLists
