import SourceLists.Proofs.Reading.Growth

/-! What stands between the last two items of a list can stand behind the last one again. -/

namespace SourceLists.Grammar
open Argument

variable {x rest : Text} {kind : Kind} {i : Invocation} {front mid tail args : List Argument}
  {a b : Argument}

/-- Among arguments there is a last one that is no keyword, unless all are keywords. -/
theorem exists_last_of_not_keywords (h : ¬ ∀ b ∈ args, b.token.IsKeyword) :
    ∃ front b mid, args = front ++ b :: mid ∧ ¬ b.token.IsKeyword ∧
      ∀ c ∈ mid, c.token.IsKeyword := by
  induction args with
  | nil => exact absurd (fun b hb => by contradiction) h
  | cons c args ih =>
    by_cases hargs : ∀ b ∈ args, b.token.IsKeyword
    · refine ⟨[], c, args, rfl, ?_, hargs⟩
      intro hc
      apply h
      intro b hb
      rcases List.mem_cons.1 hb with rfl | hb
      · exact hc
      · exact hargs b hb
    · obtain ⟨front, b, mid, rfl, hb, hmid⟩ := ih hargs
      exact ⟨c :: front, b, mid, rfl, hb, hmid⟩

/-- An argument can have the text of another entry. -/
theorem Argument.Laid.replace_text (h : Laid rest (mid ++ a :: tail))
    (hsound : ∀ c ∈ mid ++ [a], c.token.Sound) (hx : Entry x) :
    Laid rest (mid ++ ⟨.literal x, a.gap⟩ :: tail) := by
  induction mid with
  | nil => exact ⟨h.1, h.2.1, h.2.2.1, h.2.2.2⟩
  | cons c mid ih =>
    obtain ⟨hg, hd, hs, hmid⟩ := h
    have hgap : c.gap ≠ [] := by
      cases mid with
      | nil => exact gap_ne_nil ⟨hg, hd, hs, hmid⟩ (hsound a (by simp))
      | cons d mid => exact gap_ne_nil ⟨hg, hd, hs, hmid⟩ (hsound d (by simp))
    refine ⟨hg, ?_, ?_, ih hmid fun d hd => hsound d (List.mem_cons_of_mem c hd)⟩
    · exact (delimited_congr (head?_append_of_ne_nil hgap)).1 hd
    · cases mid with
      | nil =>
        change Settled (texts (⟨.literal x, a.gap⟩ :: tail) ++ rest)
        rw [texts_cons, List.append_assoc]
        exact (settled_append hx.item.ne_nil).2 hx.settled
      | cons d mid => exact (settled_congr (head?_texts (hsound d (by simp)).ne_nil rfl)).1 hs

theorem scopedRest_replace {toks : List Token} {tok new : Token} (ht : tok.IsItem)
    (hnew : new.IsItem) (h : ScopedRest (toks ++ [tok])) (htoks : ∀ t ∈ toks, t.IsKeyword) :
    ScopedRest (toks ++ [new]) := by
  cases toks with
  | nil => exact ⟨[new], [], rfl, by simpa using hnew, Or.inl rfl⟩
  | cons t toks =>
    obtain ⟨items, groups, heq, hi, hg⟩ := h
    have hitems : items = [] := by
      cases items with
      | nil => rfl
      | cons m items =>
        obtain rfl : t = m := (List.cons.inj heq).1
        exact absurd (htoks t List.mem_cons_self) (hi t List.mem_cons_self).not_isKeyword
    rw [hitems, List.nil_append] at heq
    rcases hg with rfl | hg
    · simp at heq
    · rw [← heq] at hg
      obtain ⟨-, hgrow⟩ := rest_of_scoped hg ht
      exact ⟨[], _, rfl, by simp, Or.inr (hgrow new [] hnew ⟨[], [], rfl, by simp, Or.inl rfl⟩)⟩

/-- Between two items keywords can stand only in front of a new group. -/
theorem accepts_repeat {front mid tail : List Token} {before tok new : Token}
    (h : Accepts (some kind) (front ++ before :: (mid ++ tok :: tail))) (hb : before.IsItem)
    (hmid : ∀ t ∈ mid, t.IsKeyword) (ht : tok.IsItem) (htail : IsTail (some kind) tail)
    (hnew : new.IsItem) (hne : new ≠ .literal "PARENT_SCOPE".toList) :
    Accepts (some kind) (front ++ before :: (mid ++ tok :: (mid ++ new :: tail))) := by
  have hfollows := (follows_of_accepts h hb).1
  have hitems : (∀ m ∈ mid ++ tok :: tail, m ∈ mid → m.IsItem) → mid = [] := by
    intro hall
    cases mid with
    | nil => rfl
    | cons m mid =>
      have hm : m.IsItem := hall m (by simp) List.mem_cons_self
      exact absurd (hmid m List.mem_cons_self) hm.not_isKeyword
  have hassoc : ∀ toks, front ++ before :: (mid ++ toks) = (front ++ before :: mid) ++ toks := by
    simp
  rw [hassoc] at h ⊢
  obtain ⟨-, hgrow⟩ := follows_of_accepts h ht
  cases kind with
  | set =>
    have hfront := (rest_of_variableItems h ht).1
    obtain rfl := hitems fun m _ hm => hfront m (by simp [hm])
    exact accepts_push h ht htail hnew hne
  | addLibrary | addExecutable =>
    obtain rfl := hitems fun m hm _ => hfollows m hm
    exact accepts_push h ht htail hnew hne
  | targetSources =>
    obtain rfl := htail.isTail_kind (by simp)
    exact hgrow tok _ alike_refl ht (scopedRest_replace ht hnew hfollows hmid)

/-- A new item behind the last one, after what stands between that and the item before. -/
theorem LastItem.wellFormed_repeated (hl : LastItem i (front ++ b :: mid) a tail) (h : i.WellFormed)
    (hkind : i.kind ≠ none) (hb : ¬ b.token.IsKeyword) (hmid : ∀ c ∈ mid, c.token.IsKeyword)
    (hx : Entry x) : (i.grown (front ++ b :: mid) a tail b.gap mid x).WellFormed := by
  obtain ⟨kind, hk⟩ := Option.ne_none_iff_exists'.1 hkind
  have haccepts := h.accepts
  have hsound := sound_of_accepts haccepts
  rw [hl.arguments] at haccepts hsound
  have hlaid : Laid [')'] (b :: (mid ++ a :: tail)) := by
    have hlaid' := hl.laid h
    rw [List.append_assoc] at hlaid'
    exact hlaid'.of_append
  have hbsound : b.token.Sound := hsound b.token (by simp)
  refine hl.wellFormed_grown h ?_ ?_
  · have hlaid' : Laid [')'] ((b :: mid) ++ ⟨.literal x, a.gap⟩ :: tail) := by
      apply Laid.replace_text hlaid _ hx
      intro c hc
      apply hsound
      apply List.mem_map_of_mem
      rcases List.mem_append.1 hc with hc | hc
      · exact List.mem_append_left _ (List.mem_append_right front hc)
      · exact List.mem_append_right _ (by simpa using Or.inl hc)
    exact hlaid'
  · rw [hk] at haccepts ⊢
    have htail := hl.tail
    rw [hk] at htail
    have hrepeat := accepts_repeat (by simpa using haccepts) (hbsound.isItem hb)
      (by simpa using hmid) hl.item htail hx.item (by simpa using hx.ne_parentScope)
    simpa using hrepeat

end SourceLists.Grammar
