import Mathlib.Data.List.Basic
import SourceLists.Proofs.Reading.Accepted

/-! What can follow an item of a statement, and that one continuation can stand for another. -/

namespace SourceLists.Grammar
open Argument

variable {tok tok' : Token} {toks front more : List Token} {words : List String}
  {A B : List Token → Prop} {kind : Option Kind}

/-- The tokens are the same where words are told apart: one token, or two that are in quotes. -/
def Alike (tok tok' : Token) : Prop := tok = tok' ∨ '"' ∈ tok.text ∧ '"' ∈ tok'.text

theorem alike_refl : Alike tok tok := Or.inl rfl

theorem Alike.not_mem (h : Alike tok tok') (hw : PlainWords words)
    (ht : tok.text ∉ words.map String.toList) : tok'.text ∉ words.map String.toList := by
  rcases h with rfl | ⟨-, hq⟩
  · exact ht
  · intro hmem
    exact absurd ((hw _ hmem).2 _ hq) (by decide)

/-- Behind an item nothing matters but that there are items only. -/
def OpenEnded (A : List Token → Prop) : Prop :=
  ∀ ⦃front tok more⦄, A (front ++ tok :: more) → tok.IsItem →
    (∀ m ∈ more, m.IsItem) ∧ ∀ tok' more', Alike tok tok' → tok'.IsItem →
      (∀ m ∈ more', m.IsItem) → A (front ++ tok' :: more')

theorem openEnded_isItem : OpenEnded (fun toks => ∀ tok ∈ toks, tok.IsItem) := by
  intro front tok more h _
  obtain ⟨hfront, hrest⟩ := List.forall_mem_append.1 h
  refine ⟨(List.forall_mem_cons.1 hrest).2, ?_⟩
  intro tok' more' _ ht' hmore'
  exact List.forall_mem_append.2 ⟨hfront, List.forall_mem_cons.2 ⟨ht', hmore'⟩⟩

theorem openEnded_targetItems : OpenEnded TargetItems := by
  rintro front tok more ⟨⟨-, hi⟩, hhead⟩ ht
  obtain ⟨hmore, hgrow⟩ := openEnded_isItem hi ht
  refine ⟨hmore, fun tok' more' ha ht' hmore' => ⟨⟨by simp, hgrow tok' more' ha ht' hmore'⟩, ?_⟩⟩
  cases front with
  | nil =>
    rintro _ ⟨⟩
    exact ha.not_mem plainWords_importedOrAlias (hhead tok rfl)
  | cons f front => exact hhead

theorem openEnded_flagged (hw : PlainWords words) (hA : OpenEnded A) (hB : OpenEnded B) :
    OpenEnded (Flagged words A B) := by
  rintro front tok more (⟨w, hmem, toks, heq, ha⟩ | ⟨hhead, hb⟩) ht
  · cases front with
    | nil => exact absurd (List.cons.inj heq).1 ht.ne_keyword
    | cons f front =>
      obtain ⟨rfl, rfl⟩ := List.cons.inj heq
      obtain ⟨hmore, hgrow⟩ := hA ha ht
      refine ⟨hmore, fun tok' more' hal ht' hmore' => Or.inl ⟨w, hmem, _, rfl, ?_⟩⟩
      exact hgrow tok' more' hal ht' hmore'
  · obtain ⟨hmore, hgrow⟩ := hB hb ht
    refine ⟨hmore, fun tok' more' hal ht' hmore' => Or.inr ⟨?_, hgrow tok' more' hal ht' hmore'⟩⟩
    cases front with
    | nil =>
      rintro _ ⟨⟩
      exact hal.not_mem hw (hhead tok rfl)
    | cons f front => exact hhead

theorem openEnded_target :
    OpenEnded (Accepts (some .addLibrary)) ∧ OpenEnded (Accepts (some .addExecutable)) :=
  accepts_target openEnded_targetItems openEnded_flagged

/-- The items that are left of a group, and the groups behind it. -/
def ScopedRest (more : List Token) : Prop :=
  ∃ items groups, more = items ++ groups ∧ (∀ m ∈ items, m.IsItem) ∧ (groups = [] ∨ Scoped groups)

theorem scoped_of_rest {w : Text} (hw : w ∈ ["PRIVATE", "PUBLIC", "INTERFACE"].map String.toList)
    (hf : ∀ m ∈ front, m.IsItem) (ht : tok.IsItem) (h : ScopedRest more) :
    Scoped (.keyword w :: (front ++ tok :: more)) := by
  obtain ⟨items, groups, rfl, hi, hg⟩ := h
  have hall : Items (front ++ tok :: items) :=
    ⟨by simp, List.forall_mem_append.2 ⟨hf, List.forall_mem_cons.2 ⟨ht, hi⟩⟩⟩
  rcases hg with rfl | hg
  · rw [List.append_nil]
    exact .last hw hall
  · have := Scoped.cons hw hall hg
    simpa using this

theorem rest_of_scoped (h : Scoped (front ++ tok :: more)) (ht : tok.IsItem) :
    ScopedRest more ∧
      ∀ tok' more', tok'.IsItem → ScopedRest more' → Scoped (front ++ tok' :: more') := by
  generalize heq : front ++ tok :: more = toks at h
  induction h generalizing front with
  | @last w items hw hi =>
    cases front with
    | nil => exact absurd (List.cons.inj heq).1 ht.ne_keyword
    | cons f front =>
      obtain ⟨rfl, rfl⟩ := List.cons.inj heq
      refine ⟨⟨more, [], by simp, fun m hm => hi.2 m (by simp [hm]), Or.inl rfl⟩, ?_⟩
      exact fun tok' more' ht' hmore' =>
        scoped_of_rest hw (fun m hm => hi.2 m (by simp [hm])) ht' hmore'
  | @cons w items groups hw hi hg ih =>
    cases front with
    | nil => exact absurd (List.cons.inj heq).1 ht.ne_keyword
    | cons f front =>
      obtain ⟨rfl, heq'⟩ := List.cons.inj heq
      rcases List.append_eq_append_iff.1 heq' with ⟨z, rfl, hz⟩ | ⟨z, rfl, hz⟩
      · cases z with
        | nil =>
          -- The item would be the first of the later groups.
          obtain ⟨w', -, toks, rfl⟩ := exists_scope_of_scoped hg
          exact absurd (List.cons.inj hz).1 ht.ne_keyword
        | cons t z =>
          obtain ⟨rfl, rfl⟩ := List.cons.inj hz
          refine ⟨⟨z, groups, rfl, fun m hm => hi.2 m (by simp [hm]), Or.inr hg⟩, ?_⟩
          exact fun tok' more' ht' hmore' =>
            scoped_of_rest hw (fun m hm => hi.2 m (by simp [hm])) ht' hmore'
      · obtain ⟨hmore, hgrow⟩ := ih hz.symm
        refine ⟨hmore, fun tok' more' ht' hmore' => ?_⟩
        rw [List.cons_append, List.append_assoc]
        exact .cons hw hi (hgrow tok' more' ht' hmore')

theorem rest_of_variableItems (h : VariableItems (front ++ tok :: more)) (ht : tok.IsItem) :
    (∀ m ∈ front, m.IsItem) ∧ VariableItems (tok :: more) ∧
      ∀ toks', VariableItems toks' → VariableItems (front ++ toks') := by
  have happend : (∀ m ∈ front, m.IsItem) → ∀ toks', VariableItems toks' →
      VariableItems (front ++ toks') := by
    rintro hf toks' (⟨⟨hne, hi⟩, hlast⟩ | ⟨items, ⟨hne, hi⟩, rfl⟩)
    · refine Or.inl ⟨⟨by simp [hne], List.forall_mem_append.2 ⟨hf, hi⟩⟩, ?_⟩
      rwa [List.getLast?_append_of_ne_nil _ hne]
    · exact Or.inr ⟨front ++ items, ⟨by simp [hne], List.forall_mem_append.2 ⟨hf, hi⟩⟩, by simp⟩
  rcases h with ⟨⟨-, hi⟩, hlast⟩ | ⟨items, ⟨-, hi⟩, heq⟩
  · refine ⟨fun m hm => hi m (by simp [hm]),
      Or.inl ⟨⟨by simp, fun m hm => hi m (by simp [hm])⟩, ?_⟩,
      happend fun m hm => hi m (by simp [hm])⟩
    rwa [List.getLast?_append_cons] at hlast
  · rcases List.append_eq_append_iff.1 heq with ⟨z, rfl, hz⟩ | ⟨z, rfl, hz⟩
    · cases z with
      | nil => exact absurd (List.cons.inj hz).1 ht.ne_keyword
      | cons t z =>
        obtain ⟨rfl, rfl⟩ := List.cons.inj hz
        have hf : ∀ m ∈ front, m.IsItem := fun m hm => hi m (by simp [hm])
        exact ⟨hf, Or.inr ⟨tok :: z, ⟨by simp, fun m hm => hi m (by simp [hm])⟩, rfl⟩, happend hf⟩
    · cases z with
      | nil => exact absurd (List.cons.inj hz).1.symm ht.ne_keyword
      | cons t z =>
        have hlen := congrArg List.length hz
        simp at hlen

/-- What can follow an item of a statement. -/
def Follows : Option Kind → Token → List Token → Prop
  | some .set, tok, more => VariableItems (tok :: more)
  | some .targetSources, _, more => ScopedRest more
  | none, _, more | some .addLibrary, _, more | some .addExecutable, _, more =>
    ∀ m ∈ more, m.IsItem

/-- Whether tokens are accepted does not depend on more of an item than what can follow it. -/
theorem follows_of_accepts (h : Accepts kind (front ++ tok :: more)) (ht : tok.IsItem) :
    Follows kind tok more ∧ ∀ tok' more', Alike tok tok' → tok'.IsItem → Follows kind tok' more' →
      Accepts kind (front ++ tok' :: more') := by
  match kind with
  | none => exact openEnded_isItem h ht
  | some .set =>
    obtain ⟨-, hmore, hgrow⟩ := rest_of_variableItems h ht
    exact ⟨hmore, fun _ _ _ _ => hgrow _⟩
  | some .addLibrary => exact openEnded_target.1 h ht
  | some .addExecutable => exact openEnded_target.2 h ht
  | some .targetSources =>
    obtain ⟨hmore, hgrow⟩ := rest_of_scoped h ht
    exact ⟨hmore, fun _ _ _ => hgrow _ _⟩

/-- One quoted item can stand for another. -/
theorem accepts_of_quoted (h : Accepts kind (front ++ tok :: more)) (ht : tok.IsItem)
    (ht' : tok'.IsItem) (hq : '"' ∈ tok.text) (hq' : '"' ∈ tok'.text) :
    Accepts kind (front ++ tok' :: more) := by
  obtain ⟨hfollows, hgrow⟩ := follows_of_accepts h ht
  apply hgrow tok' more (Or.inr ⟨hq, hq'⟩) ht'
  match kind with
  | none | some .addLibrary | some .addExecutable | some .targetSources => exact hfollows
  | some .set =>
    rcases hfollows with ⟨⟨-, hi⟩, hlast⟩ | ⟨items, ⟨-, hi⟩, heq⟩
    · refine Or.inl ⟨⟨by simp, List.forall_mem_cons.2 ⟨ht', (List.forall_mem_cons.1 hi).2⟩⟩, ?_⟩
      cases more with
      | nil =>
        intro hword
        rw [List.getLast?_singleton, Option.some.injEq] at hword
        rw [hword] at hq'
        contradiction
      | cons m more => simpa using hlast
    · cases items with
      | nil => exact absurd (List.cons.inj heq).1 ht.ne_keyword
      | cons t items =>
        obtain ⟨rfl, rfl⟩ := List.cons.inj heq
        have hitems := (List.forall_mem_cons.1 hi).2
        exact Or.inr ⟨tok' :: items, ⟨by simp, List.forall_mem_cons.2 ⟨ht', hitems⟩⟩, rfl⟩

theorem items_singleton (ht : tok.IsItem) : Items [tok] := ⟨by simp, by simpa using ht⟩

/-- Whatever follows an item can be left out or, where it does, be `PARENT_SCOPE`, as long as a
variable keeps a value. -/
theorem accepts_of_cut (h : Accepts kind (front ++ tok :: more)) (ht : tok.IsItem)
    (hfirst : kind = some .set → tok = .literal "PARENT_SCOPE".toList → front ≠ [])
    (hword : (Token.literal "PARENT_SCOPE".toList).IsItem) (tail : List Token)
    (htail : tail = [] ∨ tail = [.keyword "PARENT_SCOPE".toList]) :
    ∃ tok' tail', tok'.text = tok.text ∧ tail'.map Token.text = tail.map Token.text ∧
      Accepts kind (front ++ tok' :: tail') := by
  by_cases hset : kind = some .set
  · subst hset
    obtain ⟨hf, -, hgrow⟩ := rest_of_variableItems h ht
    rcases htail with rfl | rfl
    · by_cases hscope : tok = .literal "PARENT_SCOPE".toList
      · -- The word is the flag now.
        refine ⟨.keyword "PARENT_SCOPE".toList, [], by rw [hscope]; rfl, rfl, ?_⟩
        exact Or.inr ⟨front, ⟨hfirst rfl hscope, hf⟩, rfl⟩
      · refine ⟨tok, [], rfl, rfl, hgrow _ (Or.inl ⟨items_singleton ht, ?_⟩)⟩
        simpa using hscope
    · exact ⟨tok, _, rfl, rfl, hgrow _ (Or.inr ⟨[tok], items_singleton ht, rfl⟩)⟩
  · -- The word is an item.
    have hfollows : ∀ tail', (∀ m ∈ tail', m.IsItem) → Follows kind tok tail' := by
      intro tail' hi
      rcases kind with - | (- | - | - | -)
      · exact hi
      · exact absurd rfl hset
      · exact hi
      · exact hi
      · exact ⟨tail', [], by simp, hi, Or.inl rfl⟩
    obtain ⟨-, hgrow⟩ := follows_of_accepts h ht
    rcases htail with rfl | rfl
    · exact ⟨tok, [], rfl, rfl, hgrow _ _ alike_refl ht (hfollows _ (by simp))⟩
    · exact ⟨tok, [.literal "PARENT_SCOPE".toList], rfl, rfl,
        hgrow _ _ alike_refl ht (hfollows _ (by simpa using hword))⟩

end SourceLists.Grammar
