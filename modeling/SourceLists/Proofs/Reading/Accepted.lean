import Mathlib.Data.List.Basic
import SourceLists.Proofs.Reading.ArgumentRule

/-! The tokens of a list that is accepted: flags and items, of which the last one ends the list. -/

namespace SourceLists.Grammar
open Argument

variable {tok : Token} {toks front more : List Token} {words : List String}
  {A B : List Token → Prop} {kind : Option Kind}

theorem Token.IsItem.ne_keyword {w : Text} (h : tok.IsItem) : tok ≠ .keyword w := by
  rintro rfl
  rcases h.literal_or_reference with ⟨x, hx⟩ | ⟨quoted, name, hx⟩ <;> contradiction

/-- No item, but a word that is known. -/
def Token.IsKeyword (tok : Token) : Prop := ∃ w, tok = .keyword w

theorem Token.IsItem.not_isKeyword (h : tok.IsItem) : ¬ tok.IsKeyword := by
  intro hk
  obtain ⟨w, hw⟩ := hk
  exact h.ne_keyword hw

/-- What a choice by a flag keeps holds of the arguments of both kinds of target. -/
theorem accepts_target {P : (List Token → Prop) → Prop} (htarget : P TargetItems)
    (hflagged : ∀ {words A B}, PlainWords words → P A → P B → P (Flagged words A B)) :
    P (Accepts (some .addLibrary)) ∧ P (Accepts (some .addExecutable)) := by
  have hexcludable : P (MaybeFlagged ["EXCLUDE_FROM_ALL"] TargetItems) :=
    hflagged plainWords_excludeFromAll htarget htarget
  have htyped : P (MaybeFlagged ["STATIC", "SHARED", "MODULE"]
      (MaybeFlagged ["EXCLUDE_FROM_ALL"] TargetItems)) :=
    hflagged (by decide) hexcludable hexcludable
  have hbundle :
      P (MaybeFlagged ["MACOSX_BUNDLE"] (MaybeFlagged ["EXCLUDE_FROM_ALL"] TargetItems)) :=
    hflagged (by decide) hexcludable hexcludable
  exact ⟨hflagged (by decide) htarget htyped, hflagged (by decide) hbundle hbundle⟩

/-- Every flag stands before the items. -/
def FlagsFirst (A : List Token → Prop) : Prop :=
  ∀ ⦃front w more⦄, A (front ++ .keyword w :: more) → ∀ tok ∈ front, tok.IsKeyword

theorem flagsFirst_of_items (hA : ∀ toks, A toks → ∀ tok ∈ toks, tok.IsItem) : FlagsFirst A := by
  intro front w more h
  exact absurd rfl (hA _ h (.keyword w) (by simp)).ne_keyword

theorem flagsFirst_targetItems : FlagsFirst TargetItems :=
  flagsFirst_of_items fun _ h => h.1.2

theorem flagsFirst_flagged (hA : FlagsFirst A) (hB : FlagsFirst B) :
    FlagsFirst (Flagged words A B) := by
  rintro front w more (⟨w', -, toks, heq, ha⟩ | ⟨-, hb⟩)
  · cases front with
    | nil => simp
    | cons f front =>
      obtain ⟨rfl, rfl⟩ := List.cons.inj heq
      intro tok htok
      rcases List.mem_cons.1 htok with rfl | htok
      · exact ⟨w', rfl⟩
      · exact hA ha tok htok
  · exact hB hb

theorem flagsFirst_target :
    FlagsFirst (Accepts (some .addLibrary)) ∧ FlagsFirst (Accepts (some .addExecutable)) :=
  accepts_target flagsFirst_targetItems fun _ => flagsFirst_flagged

theorem scope_of_scoped {w : Text} (h : Scoped toks) (hw : .keyword w ∈ toks) :
    w ∈ ["PRIVATE", "PUBLIC", "INTERFACE"].map String.toList := by
  induction h with
  | last hscope hi =>
    rcases List.mem_cons.1 hw with heq | hw
    · cases heq
      exact hscope
    · exact absurd rfl (hi.2 _ hw).ne_keyword
  | cons hscope hi _ ih =>
    rcases List.mem_cons.1 hw with heq | hw
    · cases heq
      exact hscope
    · rcases List.mem_append.1 hw with hw | hw
      · exact absurd rfl (hi.2 _ hw).ne_keyword
      · exact ih hw

/-- A flag stands behind flags only, if it is no scope and not the last of the arguments. -/
theorem flags_of_accepts {w : Text} (h : Accepts kind (front ++ .keyword w :: more))
    (hmore : more ≠ []) :
    (∀ tok ∈ front, tok.IsKeyword) ∨
      w ∈ ["PRIVATE", "PUBLIC", "INTERFACE"].map String.toList := by
  match kind with
  | none => exact absurd rfl (h (.keyword w) (by simp)).ne_keyword
  | some .set =>
    rcases h with ⟨hi, -⟩ | ⟨items, hi, heq⟩
    · exact absurd rfl (hi.2 (.keyword w) (by simp)).ne_keyword
    · rcases List.append_eq_append_iff.1 heq with ⟨z, rfl, hz⟩ | ⟨z, rfl, hz⟩
      · cases z with
        | nil => exact absurd (List.cons.inj hz).2 hmore
        | cons t z =>
          obtain ⟨rfl, -⟩ := List.cons.inj hz
          exact absurd rfl (hi.2 (.keyword w) (by simp)).ne_keyword
      · have hlen := congrArg List.length hz
        have hpos := List.length_pos_iff.2 hmore
        simp only [List.length_append, List.length_cons, List.length_nil] at hlen
        omega
  | some .addLibrary => exact Or.inl (flagsFirst_target.1 h)
  | some .addExecutable => exact Or.inl (flagsFirst_target.2 h)
  | some .targetSources => exact Or.inr (scope_of_scoped h (by simp))

/-- The flag that can stand behind the last item of a variable. -/
def IsTail (kind : Option Kind) (tail : List Token) : Prop :=
  tail = [] ∨ kind = some .set ∧ tail = [.keyword "PARENT_SCOPE".toList]

theorem exists_last_of_items (h : Items toks) :
    ∃ front tok, toks = front ++ [tok] ∧ tok.IsItem := by
  have hlast := List.dropLast_append_getLast h.1
  exact ⟨toks.dropLast, toks.getLast h.1, hlast.symm, h.2 _ (List.getLast_mem h.1)⟩

/-- The last token is an item. -/
def EndsInItem (A : List Token → Prop) : Prop :=
  ∀ toks, A toks → ∃ front tok, toks = front ++ [tok] ∧ tok.IsItem

theorem endsInItem_targetItems : EndsInItem TargetItems := fun _ h => exists_last_of_items h.1

theorem endsInItem_flagged (hA : EndsInItem A) (hB : EndsInItem B) :
    EndsInItem (Flagged words A B) := by
  rintro toks (⟨w, -, more, rfl, ha⟩ | ⟨-, hb⟩)
  · obtain ⟨front, tok, rfl, ht⟩ := hA more ha
    exact ⟨.keyword w :: front, tok, rfl, ht⟩
  · exact hB toks hb

theorem endsInItem_target :
    EndsInItem (Accepts (some .addLibrary)) ∧ EndsInItem (Accepts (some .addExecutable)) :=
  accepts_target endsInItem_targetItems fun _ => endsInItem_flagged

theorem endsInItem_scoped : EndsInItem Scoped := by
  intro toks h
  induction h with
  | @last w items _ hi =>
    obtain ⟨front, tok, rfl, ht⟩ := exists_last_of_items hi
    exact ⟨.keyword w :: front, tok, rfl, ht⟩
  | @cons w items more _ _ _ ih =>
    obtain ⟨front, tok, rfl, ht⟩ := ih
    exact ⟨.keyword w :: (items ++ front), tok, by simp, ht⟩

/-- The arguments of a statement that lists sources have a last item. -/
theorem exists_last_of_accepts {kind : Kind} (h : Accepts (some kind) toks) :
    ∃ front tok tail, toks = front ++ tok :: tail ∧ tok.IsItem ∧ IsTail (some kind) tail := by
  have hends : ∀ {A}, EndsInItem A → A toks →
      ∃ front tok tail, toks = front ++ tok :: tail ∧ tok.IsItem ∧ IsTail (some kind) tail := by
    intro A hA ha
    obtain ⟨front, tok, rfl, ht⟩ := hA toks ha
    exact ⟨front, tok, [], rfl, ht, Or.inl rfl⟩
  cases kind with
  | set =>
    rcases h with ⟨hi, -⟩ | ⟨items, hi, rfl⟩
    · exact hends (fun _ => exists_last_of_items) hi
    · obtain ⟨front, tok, rfl, ht⟩ := exists_last_of_items hi
      exact ⟨front, tok, _, by simp, ht, Or.inr ⟨rfl, rfl⟩⟩
  | addLibrary => exact hends endsInItem_target.1 h
  | addExecutable => exact hends endsInItem_target.2 h
  | targetSources => exact hends endsInItem_scoped h

/-- An item, or a flag that could be part of a word. -/
def Token.Sound (tok : Token) : Prop :=
  tok.IsItem ∨ ∃ w, tok = .keyword w ∧ w ≠ [] ∧ ∀ c ∈ w, isIdentifierChar c

theorem sound_keyword {w : Text} (hw : PlainWords words) (h : w ∈ words.map String.toList) :
    (Token.keyword w).Sound := Or.inr ⟨w, rfl, hw w h⟩

theorem Items.sound (h : Items toks) : ∀ tok ∈ toks, tok.Sound :=
  fun tok htok => Or.inl (h.2 tok htok)

/-- All the tokens are sound. -/
def AllSound (A : List Token → Prop) : Prop := ∀ toks, A toks → ∀ tok ∈ toks, tok.Sound

theorem allSound_flagged (hw : PlainWords words) (hA : AllSound A) (hB : AllSound B) :
    AllSound (Flagged words A B) := by
  rintro toks (⟨w, hmem, more, rfl, ha⟩ | ⟨-, hb⟩)
  · exact List.forall_mem_cons.2 ⟨sound_keyword hw hmem, hA more ha⟩
  · exact hB toks hb

theorem allSound_target :
    AllSound (Accepts (some .addLibrary)) ∧ AllSound (Accepts (some .addExecutable)) :=
  accepts_target (fun _ h => h.1.sound) allSound_flagged

theorem allSound_scoped : AllSound Scoped := by
  intro toks h
  induction h with
  | last hw hi =>
    have hscope := sound_keyword plainWords_scopeKeyword hw
    exact List.forall_mem_cons.2 ⟨hscope, hi.sound⟩
  | cons hw hi _ ih =>
    have hscope := sound_keyword plainWords_scopeKeyword hw
    exact List.forall_mem_cons.2 ⟨hscope, List.forall_mem_append.2 ⟨hi.sound, ih⟩⟩

theorem sound_of_accepts (h : Accepts kind toks) : ∀ tok ∈ toks, tok.Sound := by
  match kind with
  | none => exact fun tok htok => Or.inl (h tok htok)
  | some .set =>
    rcases h with ⟨hi, -⟩ | ⟨items, hi, rfl⟩
    · exact hi.sound
    · have hscope := sound_keyword plainWords_parentScope (List.mem_singleton_self _)
      exact List.forall_mem_append.2 ⟨hi.sound, List.forall_mem_singleton.2 hscope⟩
  | some .addLibrary => exact allSound_target.1 toks h
  | some .addExecutable => exact allSound_target.2 toks h
  | some .targetSources => exact allSound_scoped toks h

theorem Token.Sound.isItem (h : tok.Sound) (hk : ¬ tok.IsKeyword) : tok.IsItem := by
  rcases h with hi | ⟨w, hw, -⟩
  · exact hi
  · exact absurd ⟨w, hw⟩ hk

/-- A token does not begin where another one has ended. -/
theorem Token.Sound.not_delimited {s : Text} (h : tok.Sound) : ¬ Delimited (tok.text ++ s) := by
  rcases h with hi | ⟨w, rfl, hne, hid⟩
  · obtain ⟨⟨c, y, hy, hc⟩, -⟩ := listItem_edges hi
    rw [hy]
    exact not_delimited_of_isEdge hc
  · exact not_delimited_append hne hid

theorem Token.Sound.ne_nil (h : tok.Sound) : tok.text ≠ [] := by
  intro hnil
  refine h.not_delimited (s := []) ?_
  rw [hnil]
  exact delimited_nil

/-- Between two arguments there is a gap. -/
theorem gap_ne_nil {a b : Argument} {args : List Argument} {rest : Text}
    (hlaid : Laid rest (a :: b :: args)) (hb : b.token.Sound) :
    a.gap ≠ [] := by
  intro hnil
  have hd := hlaid.2.1
  rw [hnil, List.nil_append, texts_cons, List.append_assoc] at hd
  exact hb.not_delimited hd

end SourceLists.Grammar
