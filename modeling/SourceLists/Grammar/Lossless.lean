import SourceLists.Grammar.Invocation

/-! What a rule reads, written again before the rest, is the text that was given to it. -/

namespace SourceLists.Grammar
open Rule

namespace Rule
variable {α β : Type} {r t : Rule α} {view : α → Text} {name : RuleName} {s rest : Text}

/-- Nothing of the text is lost when the result is written by `view`. -/
def Lossless (view : α → Text) (r : Rule α) : Prop :=
  ∀ ⦃s x rest⦄, r.read s = some (x, rest) → view x ++ rest = s

/-- A test, which takes no text. -/
def TakesNothing (r : Rule α) : Prop := ∀ ⦃s x rest⦄, r.read s = some (x, rest) → rest = s

theorem ahead_takesNothing : TakesNothing (ahead r) := by
  intro s x rest h
  obtain ⟨_, _, heq⟩ := Option.map_eq_some_iff.1 h
  exact (Prod.mk.inj heq).2.symm

theorem absent_takesNothing : TakesNothing (absent r) := by
  intro s x rest h
  simp only [absent] at h
  split at h
  · contradiction
  · exact (Prod.mk.inj (Option.some.inj h)).2.symm

namespace Lossless

theorem named (h : Lossless view r) : Lossless view (named name r) := h

theorem token (h : Lossless view r) : Lossless view (token name r) := h

theorem orElse (hr : Lossless view r) (ht : Lossless view t) : Lossless view (r <|> t) := by
  intro s x rest h
  rw [read_orElse, Option.or_eq_some_iff] at h
  exact h.elim (hr ·) (ht ·.2)

theorem map {r : Rule β} {v : β → Text} {f : β → α} (h : Lossless v r)
    (hf : ∀ y, view (f y) = v y) :
    Lossless view (f <$> r) := by
  intro s x rest hx
  obtain ⟨y, hy, rfl⟩ := read_map_eq_some.1 hx
  rw [hf]
  exact h hy

theorem seqLeft {t : Rule β} (hr : Lossless view r) (ht : TakesNothing t) :
    Lossless view (r <* t) := by
  intro s x rest h
  obtain ⟨s', z, hx, hz⟩ := read_seqLeft_eq_some.1 h
  rw [ht hz]
  exact hr hx

theorem seqRight {t : Rule β} (ht : TakesNothing t) (hr : Lossless view r) :
    Lossless view (t *> r) := by
  intro s x rest h
  obtain ⟨y, s', hy, hx⟩ := read_seqRight_eq_some.1 h
  cases ht hy
  exact hr hx

theorem char {p : Char → Bool} : Lossless id (char p) := by
  intro s x rest h
  cases s with
  | nil => contradiction
  | cons c s =>
    simp only [Rule.char] at h
    split at h
    · cases h; rfl
    · contradiction

theorem chars {p : Char → Bool} : Lossless id (chars p) := by
  intro s x rest h
  cases h
  exact List.takeWhile_append_dropWhile

end Lossless

section lists
variable {r t : Rule (List α)} {view : α → Text}

/-- A list is written by writing its members one after the other. -/
def LosslessList (view : α → Text) (r : Rule (List α)) : Prop := Lossless (List.flatMap view) r

namespace LosslessList

theorem pure_nil : LosslessList view (pure []) := by
  intro s x rest h
  cases h
  rfl

theorem append (hr : LosslessList view r) (ht : LosslessList view t) :
    LosslessList view (r ++ t) := by
  intro s x rest h
  obtain ⟨y, s', z, hy, hz, rfl⟩ := read_append_eq_some.1 h
  rw [List.flatMap_append, List.append_assoc, ht hz]
  exact hr hy

theorem optionally (h : LosslessList view r) : LosslessList view (optionally r) :=
  Lossless.orElse h pure_nil

theorem star (hr : LosslessList view r) : LosslessList view (star r) := by
  intro s x rest h
  simp only [Rule.star, Option.some.injEq] at h
  fun_induction readAll r s generalizing x rest with
  | case1 => cases h; rfl
  | case2 s y rest hy hlt xs rest hxs ih =>
    cases h
    rw [List.flatMap_append, List.append_assoc, ih hxs]
    exact hr hy
  | case3 => cases h; rfl

theorem plus (h : LosslessList view r) : LosslessList view (plus r) := h.append h.star

theorem argument {r : Rule Token} (h : Lossless Token.text r) (hgap : Lossless id gap) :
    LosslessList Argument.text (argument r) := by
  intro s x rest hx
  obtain ⟨_, s', z, hfront, hz, rfl⟩ := read_seq_eq_some.1 hx
  obtain ⟨y, hy, rfl⟩ := read_map_eq_some.1 hfront
  rw [← h hy, ← hgap hz]
  simp [Argument.text]

end LosslessList
end lists

/-- A rule for text that reads a list of characters, each written as it is. -/
theorem Lossless.ofList {r : Rule Text} (h : LosslessList (fun c => [c]) r) : Lossless id r := by
  intro s x rest hx
  have := h hx
  simpa using this

theorem Lossless.toList {r : Rule Text} (h : Lossless id r) : LosslessList (fun c => [c]) r := by
  intro s x rest hx
  have := h hx
  simpa using this

theorem Lossless.append {r t : Rule Text} (hr : Lossless id r) (ht : Lossless id t) :
    Lossless id (r ++ t) := ofList (hr.toList.append ht.toList)

theorem Lossless.plus {r : Rule Text} (h : Lossless id r) : Lossless id (plus r) :=
  ofList h.toList.plus

theorem Lossless.exactly {word : Text} : Lossless id (exactly word) := by
  induction word with
  | nil => exact ofList LosslessList.pure_nil
  | cons c word ih => exact char.append ih

theorem exactly_read (h : (exactly word).read s = some (x, rest)) : x = word := by
  induction word generalizing s x rest with
  | nil => cases h; rfl
  | cons c word ih =>
    obtain ⟨y, s', z, hy, hz, rfl⟩ := read_append_eq_some.1 h
    cases s with
    | nil => contradiction
    | cons d s =>
      simp only [Rule.char] at hy
      split at hy
      next hd =>
        cases hy
        simp [ih hz, eq_of_beq hd]
      next => contradiction

theorem Lossless.anyCase {word : Text} : Lossless id (anyCase word) := by
  induction word with
  | nil => exact ofList LosslessList.pure_nil
  | cons c word ih => exact char.append ih

theorem Lossless.oneOf {words : List Text} : Lossless id (oneOf words) := by
  induction words with
  | nil => intro s x rest h; contradiction
  | cons word words ih => exact exactly.orElse ih

/-- What a fixed word and then something else read, is that word before the rest. -/
theorem Lossless.exactly_seqRight {word : Text} (h : Lossless (fun x => view x) r) :
    Lossless (fun x => word ++ view x) (Rule.exactly word *> r) := by
  intro s x rest hx
  obtain ⟨y, s', hy, hx⟩ := read_seqRight_eq_some.1 hx
  rw [← Lossless.exactly hy, exactly_read hy, ← h hx]
  simp

theorem Lossless.seqLeft_exactly {word : Text} (h : Lossless view r) :
    Lossless (fun x => view x ++ word) (r <* Rule.exactly word) := by
  intro s x rest hx
  obtain ⟨s', z, hy, hz⟩ := read_seqLeft_eq_some.1 hx
  rw [← h hy, ← Lossless.exactly hz, exactly_read hz]
  simp

end Rule

variable {s quoted rest : Text}

theorem takeGap_append {b : Bool} : (takeGap b s).1 ++ (takeGap b s).2 = s := by
  induction s generalizing b with
  | nil => rfl
  | cons c s ih =>
    simp only [takeGap]
    split
    · simp [ih]
    · split
      · simp [ih]
      · rfl

theorem gap_lossless : Lossless id gap := by
  intro s x rest h
  simp only [gap, Option.some.injEq] at h
  have := @takeGap_append s false
  rwa [h] at this

theorem takeQuoted_append (h : takeQuoted s = some (quoted, rest)) : quoted ++ rest = s := by
  fun_induction takeQuoted s generalizing quoted with
  | case1 => contradiction
  | case2 c s ih =>
    obtain ⟨⟨q, _⟩, hq, heq⟩ := Option.map_eq_some_iff.1 h
    cases heq
    simp [ih hq]
  | case3 => cases h; rfl
  | case4 c s _ _ ih =>
    obtain ⟨⟨q, _⟩, hq, heq⟩ := Option.map_eq_some_iff.1 h
    cases heq
    simp [ih hq]

theorem quotedString_lossless : Lossless id quotedString :=
  Lossless.char.append fun _ _ _ h => takeQuoted_append h

theorem variableName_lossless : Lossless id variableName :=
  (Lossless.char.append Lossless.chars).token

theorem variableReference_lossless : Lossless Token.referenceText variableReference :=
  Lossless.seqLeft_exactly (Lossless.exactly_seqRight variableName_lossless)

theorem referenceText_lossless : Lossless id (Token.referenceText <$> variableReference) :=
  variableReference_lossless.map fun _ => rfl

theorem declaredName_lossless : Lossless id declaredName :=
  (Lossless.plus (referenceText_lossless.orElse Lossless.char)).token

theorem envName_lossless : Lossless id envName :=
  ((Lossless.exactly.append Lossless.chars).append Lossless.exactly).token

theorem commandWord_lossless {name : RuleName} {word : String} :
    Lossless id (commandWord name word) :=
  (Lossless.anyCase.seqLeft absent_takesNothing).token

theorem keyword_lossless {name : RuleName} {words : List String} :
    Lossless Token.text (keyword name words) := by
  unfold keyword
  exact Lossless.map (Lossless.oneOf.seqLeft ahead_takesNothing).token fun _ => rfl

theorem standaloneVariable_lossless : Lossless Token.text standaloneVariable := by
  unfold standaloneVariable
  exact Lossless.named
    (Lossless.map (variableReference_lossless.seqLeft ahead_takesNothing) fun _ => rfl)

theorem quotedVariable_lossless : Lossless Token.text quotedVariable := by
  unfold quotedVariable
  exact Lossless.named (Lossless.map ((Lossless.exactly_seqRight
    variableReference_lossless).seqLeft_exactly.seqLeft ahead_takesNothing) fun _ => rfl)

theorem literalItem_lossless : Lossless Token.text literalItem := by
  unfold literalItem
  exact Lossless.token
    (Lossless.map (quotedString_lossless.orElse Lossless.char).plus fun _ => rfl)

theorem listItem_lossless : Lossless Token.text listItem :=
  (Lossless.seqRight absent_takesNothing
    (standaloneVariable_lossless.orElse
      (quotedVariable_lossless.orElse literalItem_lossless))).named

theorem argument_lossless {r : Rule Token} (h : Lossless Token.text r) :
    LosslessList Argument.text (argument r) := LosslessList.argument h gap_lossless

theorem listContent_lossless : LosslessList Argument.text listContent :=
  (argument_lossless listItem_lossless).plus

theorem variableListContent_lossless : LosslessList Argument.text variableListContent :=
  LosslessList.plus (Lossless.seqRight absent_takesNothing (argument_lossless listItem_lossless))

theorem targetList_lossless : LosslessList Argument.text targetList :=
  Lossless.seqRight absent_takesNothing listContent_lossless

theorem flag_lossless {name : RuleName} {words : List String} :
    LosslessList Argument.text (argument (keyword name words)) :=
  argument_lossless keyword_lossless

theorem exactly_singleton_read {c : Char} {x : Text} :
    (exactly [c]).read s = some (x, rest) ↔ x = [c] ∧ s = c :: rest := by
  refine ⟨fun h => ?_, fun ⟨hx, hs⟩ => by subst hx hs; simp [exactly, char, read_append]⟩
  have hx := exactly_read h
  have hs := Lossless.exactly h
  exact ⟨hx, by rw [← hs, hx]; rfl⟩

theorem read_seqLeft_singleton_eq_some {α : Type} {r : Rule α} {c : Char} {x : α} :
    (r <* exactly [c]).read s = some (x, rest) ↔ r.read s = some (x, c :: rest) := by
  rw [read_seqLeft_eq_some]
  constructor
  · rintro ⟨s', y, hx, hc⟩
    obtain ⟨-, rfl⟩ := exactly_singleton_read.1 hc
    exact hx
  · intro hx
    exact ⟨_, _, hx, exactly_singleton_read.2 ⟨rfl, rfl⟩⟩

section call
variable {kind : Option Kind} {word name : Rule Text} {arguments : Rule (List Argument)}
  {i : Invocation}

/-- The parts of a statement follow one another without anything between them. -/
theorem call_read_eq_some :
    (call kind word name arguments).read s = some (i, rest) ↔
      i.kind = kind ∧ ∃ s₁ s₂ s₃ s₄ s₅, word.read s = some (i.word, s₁) ∧
        gap.read s₁ = some (i.beforeParen, '(' :: s₂) ∧ gap.read s₂ = some (i.beforeName, s₃) ∧
        name.read s₃ = some (i.name, s₄) ∧ gap.read s₄ = some (i.afterName, s₅) ∧
        arguments.read s₅ = some (i.arguments, ')' :: rest) := by
  rw [call, read_seqLeft_singleton_eq_some]
  constructor
  · intro h
    obtain ⟨_, s₅, l, h₅, hl, rfl⟩ := read_seq_eq_some.1 h
    obtain ⟨_, s₄, g₃, h₄, hg₃, rfl⟩ := read_seq_eq_some.1 h₅
    obtain ⟨_, s₃, n, h₃, hn, rfl⟩ := read_seq_eq_some.1 h₄
    obtain ⟨_, s₂, g₂, h₂, hg₂, rfl⟩ := read_seq_eq_some.1 h₃
    obtain ⟨_, s₁, g₁, h₁, hg₁, rfl⟩ := read_seq_eq_some.1 (read_seqLeft_singleton_eq_some.1 h₂)
    obtain ⟨w, hw, rfl⟩ := read_map_eq_some.1 h₁
    exact ⟨rfl, s₁, s₂, s₃, s₄, s₅, hw, hg₁, hg₂, hn, hg₃, hl⟩
  · rintro ⟨rfl, s₁, s₂, s₃, s₄, s₅, hw, hg₁, hg₂, hn, hg₃, hl⟩
    have h₁ := (read_map_eq_some (f := Invocation.mk i.kind)).2 ⟨_, hw, rfl⟩
    have h₂ := read_seqLeft_singleton_eq_some.2 (read_seq_eq_some.2 ⟨_, _, _, h₁, hg₁, rfl⟩)
    have h₃ := read_seq_eq_some.2 ⟨_, _, _, h₂, hg₂, rfl⟩
    have h₄ := read_seq_eq_some.2 ⟨_, _, _, h₃, hn, rfl⟩
    have h₅ := read_seq_eq_some.2 ⟨_, _, _, h₄, hg₃, rfl⟩
    exact read_seq_eq_some.2 ⟨_, _, _, h₅, hl, rfl⟩

theorem call_lossless (hword : Lossless id word) (hname : Lossless id name)
    (harguments : LosslessList Argument.text arguments) :
    Lossless Invocation.text (call kind word name arguments) := by
  intro s i rest h
  obtain ⟨_, s₁, s₂, s₃, s₄, s₅, hw, hg, hg₂, hn, hg₃, hl⟩ := call_read_eq_some.1 h
  rw [← hword hw, ← gap_lossless hg, ← gap_lossless hg₂, ← hname hn, ← gap_lossless hg₃,
    ← harguments hl]
  simp [Invocation.text, Invocation.head, Invocation.body]

end call

theorem setEnvVariable_lossless : Lossless Invocation.text setEnvVariable :=
  call_lossless commandWord_lossless envName_lossless listContent_lossless.optionally

theorem setNormalVariable_lossless : Lossless Invocation.text setNormalVariable :=
  call_lossless commandWord_lossless declaredName_lossless
    (variableListContent_lossless.append flag_lossless.optionally)

theorem addLibrary_lossless : Lossless Invocation.text addLibrary :=
  call_lossless commandWord_lossless declaredName_lossless
    (LosslessList.append
      (Lossless.orElse flag_lossless (flag_lossless.optionally.append flag_lossless.optionally))
      targetList_lossless)

theorem addExecutable_lossless : Lossless Invocation.text addExecutable :=
  call_lossless commandWord_lossless declaredName_lossless
    (((flag_lossless.optionally.append flag_lossless.optionally).append
      flag_lossless.optionally).append targetList_lossless)

theorem targetSources_lossless : Lossless Invocation.text targetSources :=
  call_lossless commandWord_lossless declaredName_lossless
    (LosslessList.plus (flag_lossless.append listContent_lossless))

theorem statement_lossless : Lossless Invocation.text statement :=
  setEnvVariable_lossless.orElse <| setNormalVariable_lossless.orElse <|
    addLibrary_lossless.orElse <| addExecutable_lossless.orElse targetSources_lossless

theorem length_lt_of_statement {i : Invocation} (h : statement.read s = some (i, rest)) :
    rest.length < s.length := by
  rw [← statement_lossless h]
  simp [Invocation.text]
  omega

end SourceLists.Grammar
