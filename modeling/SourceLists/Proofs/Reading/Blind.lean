import SourceLists.Proofs.Reading.Quote
import SourceLists.Proofs.Reading.Recased

/-! Every rule reads as far in a text in other letters. -/

namespace SourceLists.Grammar
open Rule

variable {s t : Text} {kind : Option Kind}

namespace Rule
variable {α β : Type} {p : Char → Bool} {name : RuleName}

/-- Two readings that fail together, or stop in front of the same text in other letters. -/
inductive Abreast : Option (α × Text) → Option (β × Text) → Prop
  | none : Abreast none none
  | some (x : α) (y : β) {s t : Text} (h : Recased s t) : Abreast (some (x, s)) (some (y, t))

/-- The rule does not tell a letter from its capital, except in the exact words. -/
def Blind (r : Rule α) : Prop := ∀ ⦃s t⦄, Recased s t → Abreast (r.read s) (r.read t)

namespace Abreast
variable {o o' : Option (α × Text)}

theorem isSome_eq (h : Abreast o o') : o.isSome = o'.isSome := by
  cases h <;> rfl

theorem map (h : Abreast o o') (f g : α → β) :
    Abreast (o.map fun (x, rest) => (f x, rest)) (o'.map fun (x, rest) => (g x, rest)) := by
  cases h with
  | none => exact .none
  | some x y h => exact .some (f x) (g y) h

theorem bind (h : Abreast o o') {k k' : α → Text → Option (β × Text)}
    (hk : ∀ x y ⦃s t⦄, Recased s t → Abreast (k x s) (k' y t)) :
    Abreast (o.bind fun (x, rest) => k x rest) (o'.bind fun (x, rest) => k' x rest) := by
  cases h with
  | none => exact .none
  | some x y h => exact hk x y h

end Abreast

/-- It is enough that what is read in one text can be read in the other. -/
theorem blind_of_read {r : Rule α}
    (h : ∀ ⦃s t x rest⦄, Recased s t → r.read s = some (x, rest) →
      ∃ y rest', r.read t = some (y, rest') ∧ Recased rest rest') : Blind r := by
  intro s t hst
  cases hs : r.read s with
  | some a =>
    obtain ⟨y, rest', ht, hrest⟩ := h hst hs
    rw [ht]
    exact .some a.1 y hrest
  | none =>
    cases ht : r.read t with
    | none => exact .none
    | some b =>
      obtain ⟨y, rest', hs', -⟩ := h hst.symm ht
      rw [hs] at hs'
      contradiction

namespace Blind

theorem read_eq_none {r : Rule α} (h : Blind r) (hst : Recased s t) (hs : r.read s = none) :
    r.read t = none := by
  have hread := h hst
  rw [hs] at hread
  generalize r.read t = o at hread ⊢
  cases hread
  rfl

theorem exists_read {r : Rule α} {x : α} {rest : Text} (h : Blind r) (hst : Recased s t)
    (hs : r.read s = some (x, rest)) :
    ∃ y rest', r.read t = some (y, rest') ∧ Recased rest rest' := by
  have hread := h hst
  rw [hs] at hread
  generalize r.read t = o at hread ⊢
  cases hread with
  | some _ y hread => exact ⟨y, _, rfl, hread⟩

theorem pure {x : α} : Blind (pure x : Rule α) := fun _ _ h => .some x x h

theorem named {r : Rule α} (h : Blind r) : Blind (named name r) := h

theorem token {r : Rule α} (h : Blind r) : Blind (token name r) := h

theorem map {r : Rule α} {f : α → β} (h : Blind r) : Blind (f <$> r) :=
  fun _ _ hst => (h hst).map f f

theorem seq {f : Rule (α → β)} {r : Rule α} (hf : Blind f) (hr : Blind r) : Blind (f <*> r) := by
  intro s t hst
  rw [read_seq, read_seq]
  exact (hf hst).bind (k := fun g rest => (r.read rest).map fun (x, rest) => (g x, rest))
    fun g g' s t hst => (hr hst).map g g'

theorem seqLeft {r : Rule α} {r' : Rule β} (hr : Blind r) (hr' : Blind r') : Blind (r <* r') :=
  hr.map.seq hr'

theorem seqRight {r : Rule α} {r' : Rule β} (hr : Blind r) (hr' : Blind r') : Blind (r *> r') :=
  hr.map.seq hr'

theorem append {r r' : Rule (List α)} (hr : Blind r) (hr' : Blind r') : Blind (r ++ r') :=
  hr.map.seq hr'

theorem orElse {r r' : Rule α} (hr : Blind r) (hr' : Blind r') : Blind (r <|> r') := by
  intro s t hst
  rw [read_orElse, read_orElse]
  have h := hr hst
  generalize r.read s = o at h ⊢
  generalize r.read t = o' at h ⊢
  cases h with
  | none => exact hr' hst
  | some x y h => exact .some x y h

theorem optionally {r : Rule (List α)} (h : Blind r) : Blind (optionally r) := h.orElse pure

theorem ahead {r : Rule α} (h : Blind r) : Blind (ahead r) := by
  intro s t hst
  have hread := h hst
  simp only [Rule.ahead]
  generalize r.read s = o at hread ⊢
  generalize r.read t = o' at hread ⊢
  cases hread with
  | none => exact .none
  | some => exact .some () () hst

theorem absent {r : Rule α} (h : Blind r) : Blind (absent r) := by
  intro s t hst
  simp only [Rule.absent, (h hst).isSome_eq]
  split
  · exact .none
  · exact .some () () hst

theorem readAll {r : Rule (List α)} (h : Blind r) (hst : Recased s t) :
    Recased (readAll r s).2 (readAll r t).2 := by
  fun_induction Rule.readAll r s generalizing t with
  | case1 s hs =>
    rw [Rule.readAll, h.read_eq_none hst hs]
    exact hst
  | case2 s x rest hs hlt xs behind hrest ih =>
    obtain ⟨y, rest', ht, hread⟩ := h.exists_read hst hs
    rw [hst.length_eq, hread.length_eq] at hlt
    rw [hrest] at ih
    rw [Rule.readAll, ht]
    simp only [if_pos hlt]
    exact ih hread
  | case3 s x rest hs hlt =>
    obtain ⟨y, rest', ht, hread⟩ := h.exists_read hst hs
    rw [hst.length_eq, hread.length_eq] at hlt
    rw [Rule.readAll, ht]
    simp only [if_neg hlt]
    exact hst

theorem star {r : Rule (List α)} (h : Blind r) : Blind (star r) :=
  fun _ _ hst => .some _ _ (h.readAll hst)

theorem plus {r : Rule (List α)} (h : Blind r) : Blind (plus r) := h.append h.star

theorem char (hp : Caseless p) : Blind (char p) := by
  intro s t hst
  cases hst with
  | nil => exact .none
  | cons hcase _ hst =>
    simp only [Rule.char, hp.eq hcase]
    split
    · exact .some _ _ hst
    · exact .none

theorem chars (hp : Caseless p) : Blind (chars p) := by
  intro s t hst
  refine .some _ _ ?_
  induction hst with
  | nil => exact .nil
  | cons hcase hwords hst ih =>
    simp only [List.dropWhile_cons, hp.eq hcase]
    split
    · exact ih
    · exact .cons hcase hwords hst

theorem anyCase {word : Text} : Blind (anyCase word) := by
  have hlower : Caseless Char.toLower := caseless_of_capitals (by decide)
  induction word with
  | nil => exact pure
  | cons c word ih =>
    have hc : Caseless (·.toLower == c.toLower) := fun d => congrArg (· == c.toLower) (hlower d)
    exact (char hc).append ih

theorem exactly {word : Text} (hw : ∀ c ∈ word, c ∈ marks) : Blind (exactly word) := by
  induction word with
  | nil => exact pure
  | cons c word ih =>
    obtain ⟨hc, hw⟩ := List.forall_mem_cons.1 hw
    exact (char (caseless_mark hc)).append (ih hw)

end Blind
end Rule

theorem caseless_isBlank : Caseless isBlank := caseless_of_capitals (by decide)

theorem recased_takeGap {b : Bool} (h : Recased s t) : Recased (takeGap b s).2 (takeGap b t).2 := by
  have hend : Caseless fun c => c != '\n' && c != '\r' := caseless_of_capitals (by decide)
  have hhash : Caseless (· == '#') := caseless_mark (by decide)
  induction h generalizing b with
  | nil => exact .nil
  | cons hcase hwords h ih =>
    have hend' := hend.eq hcase
    simp only [takeGap, caseless_isBlank.eq hcase, hhash.eq hcase, hend']
    split
    · exact ih
    · split
      · exact ih
      · exact .cons hcase hwords h

theorem blind_gap : Blind gap := fun _ _ h => .some _ _ (recased_takeGap h)

theorem blind_takeQuoted (h : Recased s t) : Abreast (takeQuoted s) (takeQuoted t) := by
  fun_induction takeQuoted s generalizing t with
  | case1 =>
    cases h
    exact .none
  | case2 c s ih =>
    obtain ⟨u, rfl, hs⟩ := h.exists_cons (by decide)
    cases hs with
    | @cons _ d _ u _ _ hs =>
      rw [takeQuoted_backslash]
      exact (ih hs).map ('\\' :: c :: ·) ('\\' :: d :: ·)
  | case3 s =>
    obtain ⟨u, rfl, hs⟩ := h.exists_cons (by decide)
    exact .some _ _ hs
  | case4 c s hs hc ih =>
    cases h with
    | @cons _ d _ u hcase _ h =>
      by_cases hslash : c = '\\'
      · -- Nothing is behind this backslash.
        obtain rfl : s = [] := by
          cases s with
          | nil => rfl
          | cons e s => exact (hs e s hslash rfl).elim
        cases h
        obtain rfl := (eq_mark_iff (by decide) hcase).1 hslash
        exact .none
      · rw [takeQuoted_cons (mt (eq_mark_iff (by decide) hcase).2 hslash)
          (mt (eq_mark_iff (by decide) hcase).2 hc)]
        exact (ih h).map (c :: ·) (d :: ·)

theorem blind_quotedString : Blind quotedString :=
  (Blind.char (caseless_mark (by decide))).append fun _ _ h => blind_takeQuoted h

theorem blind_itemEnd : Blind itemEnd := by
  have hclose : Caseless fun c => isBlank c || c == ')' := caseless_of_capitals (by decide)
  refine (Blind.char hclose).orElse (Blind.named ?_)
  intro s t h
  cases h with
  | nil => exact .some _ _ .nil
  | cons => exact .none

theorem blind_variableName : Blind variableName := by
  have hstart : Caseless isIdentifierStart := caseless_of_capitals (by decide)
  exact ((Blind.char hstart).append (Blind.chars caseless_isIdentifierChar)).token

theorem blind_variableReference : Blind variableReference :=
  ((Blind.exactly (by decide)).seqRight blind_variableName).seqLeft (Blind.exactly (by decide))

theorem blind_declaredName : Blind declaredName := by
  have hname : Caseless isNameChar := caseless_of_capitals (by decide)
  exact ((blind_variableReference.map.orElse (Blind.char hname)).plus).token

/-- The name is an exact word in front of its brace. -/
theorem blind_envName : Blind envName := by
  have hinside : Caseless fun c => c != '\x7d' && c != ')' := caseless_of_capitals (by decide)
  refine Blind.token
    (((blind_of_read ?_).append (Blind.chars hinside)).append (Blind.exactly (by decide)))
  intro s t x rest h hs
  obtain ⟨rfl, rfl⟩ := exactly_read_eq_some.1 hs
  have hexact : IsExact "ENV".toList := by
    unfold IsExact
    decide
  have hword : Recased ("ENV".toList ++ '\x7b' :: rest) t := h
  obtain ⟨u, rfl, hu⟩ := hword.exists_append hexact (endsWord_cons.2 (by decide))
  obtain ⟨v, rfl, hv⟩ := hu.exists_cons (by decide)
  exact ⟨_, v, exactly_read_eq_some.2 ⟨rfl, rfl⟩, hv⟩

theorem blind_commandWord {name : RuleName} {word : String} : Blind (commandWord name word) :=
  (Blind.anyCase.seqLeft (Blind.char caseless_isIdentifierChar).absent).token

theorem endsWord_of_delimited (h : Delimited s) : EndsWord s := by
  intro c hc hid
  obtain ⟨hblank, hclose⟩ := narrow_isIdentifierChar c hid
  exact (h c hc).elim hblank hclose

theorem Delimited.recased (hs : Delimited s) (h : Recased s t) : Delimited t := by
  cases h with
  | nil => exact hs
  | cons hcase =>
    have hc := delimited_cons.1 hs
    rw [caseless_isBlank.eq hcase, eq_mark_iff (by decide) hcase] at hc
    exact delimited_cons.2 hc

/-- A keyword is an exact word. -/
theorem blind_keyword {name : RuleName} {words : List String} (hwords : words ⊆ exactWords)
    (hfree : PrefixFree words) : Blind (keyword name words) := by
  have hplain : PlainWords words :=
    fun w hw => plainWords_exactWords w (List.map_subset _ hwords hw)
  apply blind_of_read
  intro s t x rest h hs
  obtain ⟨w, hw, rfl, rfl, hrest⟩ := keyword_read hs
  obtain ⟨u, rfl, hu⟩ := h.exists_append (List.map_subset _ hwords hw) (endsWord_of_delimited hrest)
  exact ⟨_, u, keyword_read_append hplain hfree hw (hrest.recased hu), hu⟩

theorem blind_scopeKeyword : Blind scopeKeyword := blind_keyword (by decide) (by decide)

theorem blind_listItem : Blind listItem := by
  have hstandalone : Blind standaloneVariable :=
    (blind_variableReference.seqLeft blind_itemEnd.ahead).map
  have hquoted : Blind quotedVariable :=
    ((((Blind.exactly (by decide)).seqRight blind_variableReference).seqLeft
      (Blind.exactly (by decide))).seqLeft blind_itemEnd.ahead).map
  have hbare : Caseless isBare := caseless_of_capitals (by decide)
  have hliteral : Blind literalItem := ((blind_quotedString.orElse (Blind.char hbare)).plus).map
  exact blind_scopeKeyword.absent.seqRight (hstandalone.orElse (hquoted.orElse hliteral))

theorem blind_argument {r : Rule Token} (h : Blind r) : Blind (argument r) := h.map.seq blind_gap

theorem blind_flag {name : RuleName} {words : List String} (hwords : words ⊆ exactWords)
    (hfree : PrefixFree words) : Blind (optionally (argument (keyword name words))) :=
  (blind_argument (blind_keyword hwords hfree)).optionally

theorem blind_listContent : Blind listContent := (blind_argument blind_listItem).plus

theorem blind_variableListContent : Blind variableListContent := by
  have hend : Blind parentScope := blind_keyword (by decide) (by decide)
  have hclose : Blind (exactly [')']) := Blind.exactly (by decide)
  have hlast := (hend.seqLeft blind_gap).seqLeft hclose
  exact (hlast.absent.seqRight (blind_argument blind_listItem)).plus

theorem blind_targetList : Blind targetList := by
  have hbegin : Blind importedOrAlias := blind_keyword (by decide) (by decide)
  exact hbegin.absent.seqRight blind_listContent

theorem blind_scopedList : Blind scopedList :=
  (blind_argument blind_scopeKeyword).append blind_listContent

theorem blind_argumentRule : Blind (argumentRule kind) := by
  rcases kind with - | (- | - | - | -)
  · exact blind_listContent.optionally
  · exact blind_variableListContent.append (blind_flag (by decide) (by decide))
  · refine Blind.append
      (Blind.orElse ?_ ((blind_flag ?_ ?_).append (blind_flag ?_ ?_))) blind_targetList
    · exact blind_argument (blind_keyword (by decide) (by decide))
    all_goals decide
  · refine (((blind_flag ?_ ?_).append (blind_flag ?_ ?_)).append (blind_flag ?_ ?_)).append
      blind_targetList
    all_goals decide
  · exact blind_scopedList.plus

theorem blind_alternative : Blind (alternative kind) := by
  have hword : Blind (wordRule kind) := by
    rcases kind with - | (- | - | - | -) <;> exact blind_commandWord
  have hname : Blind (nameRule kind) := by
    cases kind with
    | none => exact blind_envName
    | some => exact blind_declaredName
  have hopen : Blind (exactly ['(']) := Blind.exactly (by decide)
  have hclose : Blind (exactly [')']) := Blind.exactly (by decide)
  exact ((((((hword.map.seq blind_gap).seqLeft hopen).seq blind_gap).seq hname).seq blind_gap).seq
    blind_argumentRule).seqLeft hclose

end SourceLists.Grammar
