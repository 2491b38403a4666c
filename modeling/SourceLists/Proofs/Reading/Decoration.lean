import SourceLists.Proofs.Reading.Accepted

/-! The keywords that stand around the items of a statement. -/

namespace SourceLists

/-- The words that are flags where the first item could stand. -/
def Kind.flags : Kind → List String
  | set | targetSources => []
  | addLibrary => ["OBJECT", "STATIC", "SHARED", "MODULE", "EXCLUDE_FROM_ALL"]
  | addExecutable => ["WIN32", "MACOSX_BUNDLE", "EXCLUDE_FROM_ALL"]

namespace Grammar

variable {tok : Token} {toks items flags rest : List Token} {groups : List (List String)}
  {A : List Token → Prop} {kind : Kind}

/-- At most one word of each group, in the order of the groups. -/
inductive Flags : List (List String) → List Token → Prop
  | nil : Flags [] []
  | skip {words : List String} {groups : List (List String)} {flags : List Token}
      (h : Flags groups flags) : Flags (words :: groups) flags
  | take {words : List String} {groups : List (List String)} {flags : List Token} {w : Text}
      (hw : w ∈ words.map String.toList) (h : Flags groups flags) :
      Flags (words :: groups) (.keyword w :: flags)

/-- The items cut into groups, each behind a scope. -/
inductive Grouped : List Token → List Token → Prop
  | last {w : Text} {items : List Token}
      (hw : w ∈ ["PRIVATE", "PUBLIC", "INTERFACE"].map String.toList) (hne : items ≠ []) :
      Grouped items (.keyword w :: items)
  | cons {w : Text} {items more toks : List Token}
      (hw : w ∈ ["PRIVATE", "PUBLIC", "INTERFACE"].map String.toList) (hne : items ≠ [])
      (h : Grouped more toks) : Grouped (items ++ more) (.keyword w :: (items ++ toks))

/-- The items with keywords around them that a statement of the kind can have. -/
def Decorated : Kind → List Token → List Token → Prop
  | .set, items, toks => toks = items ∨ toks = items ++ [.keyword "PARENT_SCOPE".toList]
  | .addLibrary, items, toks => ∃ flags,
      (Flags [["OBJECT"]] flags ∨
        Flags [["STATIC", "SHARED", "MODULE"], ["EXCLUDE_FROM_ALL"]] flags) ∧
        toks = flags ++ items
  | .addExecutable, items, toks => ∃ flags,
      Flags [["WIN32"], ["MACOSX_BUNDLE"], ["EXCLUDE_FROM_ALL"]] flags ∧ toks = flags ++ items
  | .targetSources, items, toks => Grouped items toks

/-- No item is taken for a flag. -/
structure Unflagged (kind : Kind) (items : List Token) : Prop where
  first : ∀ tok ∈ items.head?, tok.text ∉ kind.flags.map String.toList
  last : kind = .set → items.getLast? ≠ some (.literal "PARENT_SCOPE".toList)

theorem Flags.exists_keyword (h : Flags groups flags) :
    ∀ tok ∈ flags, ∃ w ∈ groups.flatten.map String.toList, tok = .keyword w := by
  induction h with
  | nil => intro tok htok; contradiction
  | skip _ ih =>
    intro tok htok
    obtain ⟨w, hw, rfl⟩ := ih tok htok
    exact ⟨w, by simp_all, rfl⟩
  | @take words groups flags v hv _ ih =>
    intro tok htok
    rcases List.mem_cons.1 htok with rfl | htok
    · refine ⟨v, ?_, rfl⟩
      rw [List.flatten_cons, List.map_append]
      exact List.mem_append_left _ hv
    · obtain ⟨w, hw, rfl⟩ := ih tok htok
      refine ⟨w, ?_, rfl⟩
      rw [List.flatten_cons, List.map_append]
      exact List.mem_append_right _ hw

theorem flags_nil : Flags groups [] := by
  induction groups with
  | nil => exact .nil
  | cons words groups ih => exact .skip ih

/-- The first token is one of the flags, or there is none. -/
theorem Flags.text_head (h : Flags groups flags) (htok : tok ∈ (flags ++ rest).head?) :
    tok.text ∈ groups.flatten.map String.toList ∨ tok ∈ rest.head? := by
  cases flags with
  | nil => exact Or.inr htok
  | cons flag flags =>
    obtain rfl : flag = tok := Option.some.inj htok
    obtain ⟨w, hw, rfl⟩ := h.exists_keyword flag List.mem_cons_self
    exact Or.inl hw

/-- What may be flagged by several groups of words has flags and what stands behind them. -/
theorem exists_flags (groups : List (List String)) (h : groups.foldr MaybeFlagged A toks) :
    ∃ flags rest, Flags groups flags ∧ toks = flags ++ rest ∧ A rest ∧
      (flags = [] → ∀ tok ∈ toks.head?, tok.text ∉ groups.flatten.map String.toList) := by
  induction groups generalizing toks with
  | nil => exact ⟨[], toks, .nil, rfl, h, fun _ _ _ => List.not_mem_nil⟩
  | cons words groups ih =>
    rcases h with ⟨w, hw, more, rfl, h⟩ | ⟨hhead, h⟩
    · obtain ⟨flags, rest, hf, rfl, ha, -⟩ := ih h
      exact ⟨.keyword w :: flags, rest, .take hw hf, rfl, ha, by simp⟩
    · obtain ⟨flags, rest, hf, rfl, ha, hnone⟩ := ih h
      refine ⟨flags, rest, .skip hf, rfl, ha, ?_⟩
      intro hnil tok htok hmem
      rw [List.flatten_cons, List.map_append, List.mem_append] at hmem
      rcases hmem with hmem | hmem
      · exact hhead tok htok hmem
      · exact hnone hnil tok htok hmem

/-- Groups without a common word can be told apart. -/
theorem maybeFlagged_of_flags (hf : Flags groups flags) (ha : A rest)
    (hnodup : (groups.flatten.map String.toList).Nodup)
    (hhead : ∀ tok ∈ rest.head?, tok.text ∉ groups.flatten.map String.toList) :
    groups.foldr MaybeFlagged A (flags ++ rest) := by
  induction hf with
  | nil => exact ha
  | @skip words groups flags hf ih =>
    rw [List.flatten_cons, List.map_append] at hnodup hhead
    obtain ⟨-, hnodup', hdisjoint⟩ := List.nodup_append.1 hnodup
    have hhead' : ∀ tok ∈ rest.head?, tok.text ∉ groups.flatten.map String.toList :=
      fun tok htok hmem => hhead tok htok (List.mem_append_right _ hmem)
    refine Or.inr ⟨?_, ih hnodup' hhead'⟩
    intro tok htok hmem
    rcases hf.text_head htok with hw | htok
    · exact hdisjoint _ hmem _ hw rfl
    · exact hhead tok htok (List.mem_append_left _ hmem)
  | @take words groups flags w hw hf ih =>
    rw [List.flatten_cons, List.map_append] at hnodup hhead
    obtain ⟨-, hnodup', -⟩ := List.nodup_append.1 hnodup
    exact Or.inl ⟨w, hw, flags ++ rest, rfl,
      ih hnodup' fun tok htok hmem => hhead tok htok (List.mem_append_right _ hmem)⟩

theorem exists_grouped (h : Scoped toks) : ∃ items, Items items ∧ Grouped items toks := by
  induction h with
  | last hw hi => exact ⟨_, hi, .last hw hi.1⟩
  | @cons w items more hw hi _ ih =>
    obtain ⟨items', hi', hg⟩ := ih
    exact ⟨items ++ items', ⟨by simp [hi.1], List.forall_mem_append.2 ⟨hi.2, hi'.2⟩⟩,
      .cons hw hi.1 hg⟩

theorem scoped_of_grouped (h : Grouped items toks) (hi : ∀ tok ∈ items, tok.IsItem) :
    Scoped toks := by
  induction h with
  | last hw hne => exact .last hw ⟨hne, hi⟩
  | cons hw hne _ ih =>
    obtain ⟨hi₁, hi₂⟩ := List.forall_mem_append.1 hi
    exact .cons hw ⟨hne, hi₁⟩ (ih hi₂)

/-- The arguments of a statement are its items with keywords around them. -/
theorem exists_decorated (h : Accepts (some kind) toks) :
    ∃ items, Items items ∧ Decorated kind items toks ∧
      (kind.declaresTarget → TargetItems items) := by
  cases kind with
  | set =>
    rcases h with ⟨hi, -⟩ | ⟨items, hi, heq⟩
    · exact ⟨toks, hi, Or.inl rfl, by simp [Kind.declaresTarget]⟩
    · exact ⟨items, hi, Or.inr heq, by simp [Kind.declaresTarget]⟩
  | addLibrary =>
    rcases h with ⟨w, hw, items, rfl, hi⟩ | ⟨-, h⟩
    · exact ⟨items, hi.1, ⟨[.keyword w], Or.inl (.take hw .nil), rfl⟩, fun _ => hi⟩
    · obtain ⟨flags, items, hf, heq, hi, -⟩ :=
        exists_flags [["STATIC", "SHARED", "MODULE"], ["EXCLUDE_FROM_ALL"]] h
      exact ⟨items, hi.1, ⟨flags, Or.inr hf, heq⟩, fun _ => hi⟩
  | addExecutable =>
    obtain ⟨flags, items, hf, heq, hi, -⟩ :=
      exists_flags [["WIN32"], ["MACOSX_BUNDLE"], ["EXCLUDE_FROM_ALL"]] h
    exact ⟨items, hi.1, ⟨flags, hf, heq⟩, fun _ => hi⟩
  | targetSources =>
    obtain ⟨items, hi, hg⟩ := exists_grouped h
    exact ⟨items, hi, hg, by simp [Kind.declaresTarget]⟩

/-- Items of which none is taken for a flag may have any keywords around them. -/
theorem accepts_of_decorated (hi : Items items) (hu : Unflagged kind items)
    (htarget : kind.declaresTarget → TargetItems items) (h : Decorated kind items toks) :
    Accepts (some kind) toks := by
  cases kind with
  | set =>
    rcases h with rfl | rfl
    · exact Or.inl ⟨hi, hu.last rfl⟩
    · exact Or.inr ⟨items, hi, rfl⟩
  | addLibrary =>
    obtain ⟨flags, hf, rfl⟩ := h
    have hdisjoint : ∀ w ∈ ["OBJECT"].map String.toList, w ∉ [["STATIC", "SHARED", "MODULE"],
        ["EXCLUDE_FROM_ALL"]].flatten.map String.toList := by decide
    have hrest : ∀ {flags}, Flags [["STATIC", "SHARED", "MODULE"], ["EXCLUDE_FROM_ALL"]] flags →
        Accepts (some .addLibrary) (flags ++ items) := by
      intro flags hf
      refine Or.inr ⟨?_, maybeFlagged_of_flags hf (htarget rfl) (by decide) ?_⟩
      · intro tok htok hobject
        rcases hf.text_head htok with hw | htok
        · exact hdisjoint _ hobject hw
        · exact hu.first tok htok (List.mem_append_left _ hobject)
      · exact fun tok htok hmem => hu.first tok htok (List.mem_cons_of_mem _ hmem)
    rcases hf with hf | hf
    · cases hf with
      | skip hf =>
        cases hf
        exact hrest flags_nil
      | take hw hf =>
        cases hf
        exact Or.inl ⟨_, hw, items, rfl, htarget rfl⟩
    · exact hrest hf
  | addExecutable =>
    obtain ⟨flags, hf, rfl⟩ := h
    exact maybeFlagged_of_flags hf (htarget rfl) (by decide) hu.first
  | targetSources => exact scoped_of_grouped h hi.2

/-- Where all arguments are items, none of them is taken for a flag. -/
theorem unflagged_of_accepts (h : Accepts (some kind) toks) (hi : ∀ tok ∈ toks, tok.IsItem) :
    Unflagged kind toks := by
  have hflagged : ∀ groups : List (List String), groups.foldr MaybeFlagged TargetItems toks →
      ∀ tok ∈ toks.head?, tok.text ∉ groups.flatten.map String.toList := by
    intro groups h
    obtain ⟨flags, items, hf, rfl, -, hhead⟩ := exists_flags groups h
    apply hhead
    cases flags with
    | nil => rfl
    | cons flag flags =>
      obtain ⟨w, -, rfl⟩ := hf.exists_keyword flag List.mem_cons_self
      exact absurd rfl (hi (.keyword w) (by simp)).ne_keyword
  cases kind with
  | set =>
    refine ⟨fun _ _ => List.not_mem_nil, fun _ => ?_⟩
    rcases h with ⟨-, hlast⟩ | ⟨items, -, rfl⟩
    · exact hlast
    · exact absurd rfl (hi (.keyword "PARENT_SCOPE".toList) (by simp)).ne_keyword
  | addLibrary =>
    refine ⟨?_, by simp⟩
    rcases h with ⟨w, -, more, rfl, -⟩ | ⟨hobject, h⟩
    · exact absurd rfl (hi (.keyword w) List.mem_cons_self).ne_keyword
    · have htype := hflagged [["STATIC", "SHARED", "MODULE"], ["EXCLUDE_FROM_ALL"]] h
      intro tok htok hmem
      rcases List.mem_cons.1 hmem with hw | hw
      · exact hobject tok htok (by simp [hw])
      · exact htype tok htok hw
  | addExecutable =>
    exact ⟨hflagged [["WIN32"], ["MACOSX_BUNDLE"], ["EXCLUDE_FROM_ALL"]] h, by simp⟩
  | targetSources => exact ⟨fun _ _ => List.not_mem_nil, by simp⟩

end Grammar
end SourceLists
