import SourceLists.Proofs.Reading.ArgumentRule

/-! Statements: whether a text is one can be told from the text itself. -/

namespace SourceLists.Grammar
open Rule Argument

variable {s t u g x y rest : Text} {c : Char} {kind : Option Kind} {i j : Invocation}

/-- The command of a statement. The setting of an environment variable has that of a variable. -/
def command (kind : Option Kind) : Text := (kind.getD .set).command.toList

/-- The rule for the word that begins a statement. -/
def wordRule : Option Kind → Rule Text
  | none | some .set => setKeyword
  | some .addLibrary => commandWord .addLibraryKeyword "add_library"
  | some .addExecutable => commandWord .addExecutableKeyword "add_executable"
  | some .targetSources => commandWord .targetSourcesKeyword "target_sources"

def nameRule : Option Kind → Rule Text
  | none => envName
  | some _ => declaredName

/-- The rule for the statements of one kind. -/
def alternative (kind : Option Kind) : Rule Invocation :=
  call kind (wordRule kind) (nameRule kind) (argumentRule kind)

theorem statement_read :
    statement.read s = ((alternative none).read s).or (((alternative (some .set)).read s).or
      (((alternative (some .addLibrary)).read s).or (((alternative (some .addExecutable)).read s).or
        ((alternative (some .targetSources)).read s)))) := by
  rw [statement, read_orElse, read_orElse, read_orElse, read_orElse]
  rfl

/-- The text does not go on with the word before it. -/
def EndsWord (s : Text) : Prop := ∀ c ∈ s.head?, ¬ isIdentifierChar c

theorem endsWord_cons : EndsWord (c :: s) ↔ ¬ isIdentifierChar c := by
  simp [EndsWord]

theorem takeWhile_of_endsWord (h : EndsWord s) : s.takeWhile isIdentifierChar = [] := by
  cases s with
  | nil => rfl
  | cons c s => exact List.takeWhile_cons_of_neg (endsWord_cons.1 h)

theorem dropWhile_of_endsWord (h : EndsWord s) : s.dropWhile isIdentifierChar = s := by
  cases s with
  | nil => rfl
  | cons c s => exact List.dropWhile_cons_of_neg (endsWord_cons.1 h)

theorem endsWord_gap_append (hg : IsGap g) (hs : EndsWord s) : EndsWord (g ++ s) := by
  cases g with
  | nil => exact hs
  | cons c g =>
    rw [List.cons_append, endsWord_cons]
    intro hc
    have hn := (narrow_isIdentifierChar c hc).1
    have hh : c ≠ '#' := by rintro rfl; contradiction
    simp [IsGap, gapState, hn, hh] at hg

theorem anyCase_read_eq_some {word : Text} :
    (anyCase word).read s = some (x, rest) ↔
      s = x ++ rest ∧ x.map Char.toLower = word.map Char.toLower := by
  induction word generalizing s x with
  | nil =>
    rw [anyCase, read_pure]
    constructor
    · intro h
      cases h
      exact ⟨rfl, rfl⟩
    · rintro ⟨rfl, hx⟩
      rw [List.map_eq_nil_iff.1 hx, List.nil_append]
  | cons d word ih =>
    simp only [anyCase, read_append_eq_some, char_read_eq_some, beq_iff_eq]
    constructor
    · rintro ⟨_, s', y, ⟨c, hc, rfl, rfl⟩, hy, rfl⟩
      obtain ⟨rfl, hy'⟩ := ih.1 hy
      exact ⟨rfl, by rw [List.map_append, hy', List.map_singleton, hc]; rfl⟩
    · rintro ⟨rfl, hx⟩
      obtain ⟨c, y, rfl, hc, hy⟩ := List.map_eq_cons_iff.1 hx
      exact ⟨[c], y ++ rest, y, ⟨c, hc, rfl, rfl⟩, ih.2 ⟨rfl, hy⟩, rfl⟩

theorem commandWord_read_eq_some {name : RuleName} {word : String} :
    (commandWord name word).read s = some (x, rest) ↔
      s = x ++ rest ∧ x.map Char.toLower = word.toList.map Char.toLower ∧ EndsWord rest := by
  have habsent : ∀ r : Text, (absent (char isIdentifierChar)).read r = some ((), r) ↔
      EndsWord r := by
    intro r
    cases r with
    | nil => simp [absent, Rule.char, EndsWord]
    | cons c r => by_cases hc : isIdentifierChar c <;> simp [absent, Rule.char, endsWord_cons, hc]
  rw [commandWord, read_token, read_seqLeft_eq_some]
  constructor
  · rintro ⟨s', _, hword, hend⟩
    obtain rfl := absent_takesNothing hend
    obtain ⟨rfl, hx⟩ := anyCase_read_eq_some.1 hword
    exact ⟨rfl, hx, (habsent _).1 hend⟩
  · rintro ⟨rfl, hx, hend⟩
    exact ⟨rest, (), anyCase_read_eq_some.2 ⟨rfl, hx⟩, (habsent _).2 hend⟩

theorem map_toLower_command (kind : Option Kind) :
    (command kind).map Char.toLower = command kind := by
  rcases kind with - | (- | - | - | -) <;> decide

theorem wordRule_read_eq_some :
    (wordRule kind).read s = some (x, rest) ↔
      s = x ++ rest ∧ x.map Char.toLower = command kind ∧ EndsWord rest := by
  rw [← map_toLower_command kind]
  rcases kind with - | (- | - | - | -) <;> exact commandWord_read_eq_some

/-- What can stand between the braces in the name of an environment variable. -/
def IsEnvChar (c : Char) : Prop := c ≠ '\x7d' ∧ c ≠ ')'

theorem envName_read_eq_some :
    envName.read s = some (x, rest) ↔
      s = x ++ rest ∧ ∃ y, x = "ENV\x7b".toList ++ y ++ ['\x7d'] ∧ ∀ c ∈ y, IsEnvChar c := by
  simp only [envName, read_token, read_append_eq_some, exactly_read_eq_some, Rule.chars,
    Option.some.injEq, Prod.mk.injEq]
  constructor
  · rintro ⟨_, s₁, _, ⟨_, s₂, y, ⟨rfl, rfl⟩, ⟨rfl, rfl⟩, rfl⟩, ⟨rfl, hrest⟩, rfl⟩
    refine ⟨?_, _, rfl, ?_⟩
    · rw [List.append_assoc, List.append_assoc, ← hrest, List.takeWhile_append_dropWhile]
    · intro c hc
      simpa [IsEnvChar] using List.all_eq_true.1 List.all_takeWhile c hc
  · rintro ⟨rfl, y, rfl, hy⟩
    have hp : ∀ c ∈ y, (c != '\x7d' && c != ')') = true := by
      intro c hc
      simpa [IsEnvChar] using hy c hc
    refine ⟨_, '\x7d' :: rest, _, ⟨_, y ++ '\x7d' :: rest, y, ⟨rfl, by simp⟩, ⟨?_, ?_⟩, rfl⟩,
      ⟨rfl, rfl⟩, rfl⟩
    · rw [List.takeWhile_append_of_pos hp]
      simp
    · rw [List.dropWhile_append_of_pos hp]
      simp

/-- One delimiter is as good as another where a name has ended before. -/
theorem nameRule_congr (h : (nameRule kind).read (x ++ (u ++ s)) = some (x, u ++ s))
    (hs : Delimited s) (ht : Delimited t) :
    (nameRule kind).read (x ++ (u ++ t)) = some (x, u ++ t) := by
  cases kind with
  | none => exact envName_read_eq_some.2 ⟨rfl, (envName_read_eq_some.1 h).2⟩
  | some kind =>
    rw [← List.append_assoc] at h ⊢
    exact (declaredName_steady hs ht).read_congr h

theorem nameRule_lossless : Lossless id (nameRule kind) := by
  cases kind with
  | none => exact envName_lossless
  | some kind => exact declaredName_lossless

theorem declaredName_read_eq_some :
    declaredName.read s = some (x, rest) ↔ ∃ y z s', namePiece.read s = some (y, s') ∧
      readAll namePiece s' = (z, rest) ∧ x = y ++ z := by
  change (plus namePiece).read s = some (x, rest) ↔ _
  exact plus_read_eq_some_append

theorem namePiece_read_of_isNameChar (h : isNameChar c) :
    namePiece.read (c :: s) = some ([c], s) := by
  have hdollar : variableReference.read (c :: s) = none := by
    rw [Option.eq_none_iff_forall_ne_some]
    intro r hr
    obtain ⟨s', hs, -⟩ := variableReference_read_eq_some.1 hr
    rw [(List.cons.inj hs).1] at h
    contradiction
  rw [namePiece, read_orElse, read_map, hdollar]
  exact char_read_eq_some.2 ⟨c, h, rfl, rfl⟩

/-- Where an environment variable is named, another name ends before the brace. -/
theorem declaredName_read_env :
    declaredName.read ("ENV\x7b".toList ++ y) = some ("ENV".toList, '\x7b' :: y) := by
  have hstop : namePiece.read ('\x7b' :: y) = none := by
    rw [namePiece, read_orElse, read_map]
    rfl
  have hrest : readAll namePiece ('\x7b' :: y) = ([], '\x7b' :: y) :=
    readAll_of_read_eq_none namePiece_consumes hstop
  have hlast : readAll namePiece ('V' :: '\x7b' :: y) = (['V'], '\x7b' :: y) :=
    readAll_of_read namePiece_consumes (namePiece_read_of_isNameChar (by decide)) hrest
  have hnext : readAll namePiece ('N' :: 'V' :: '\x7b' :: y) = (['N', 'V'], '\x7b' :: y) :=
    readAll_of_read namePiece_consumes (namePiece_read_of_isNameChar (by decide)) hlast
  exact declaredName_read_eq_some.2 ⟨['E'], ['N', 'V'], 'N' :: 'V' :: '\x7b' :: y,
    namePiece_read_of_isNameChar (by decide), hnext, rfl⟩

theorem settled_of_nameRule (h : (nameRule kind).read s = some (x, rest)) : Settled s := by
  cases kind with
  | none =>
    obtain ⟨rfl, y, rfl, -⟩ := envName_read_eq_some.1 h
    exact settled_cons.2 (by decide)
  | some kind =>
    obtain ⟨y, z, s', hy, -⟩ := declaredName_read_eq_some.1 h
    rw [namePiece, read_orElse, Option.or_eq_some_iff] at hy
    rcases hy with hy | ⟨-, hy⟩
    · rw [read_map, Option.map_eq_some_iff] at hy
      obtain ⟨⟨n, r⟩, hn, -⟩ := hy
      obtain ⟨s'', rfl, -⟩ := variableReference_read_eq_some.1 hn
      exact settled_cons.2 (by decide)
    · obtain ⟨c, hc, -, rfl⟩ := char_read_eq_some.1 hy
      refine settled_cons.2 ⟨(narrow_isNameChar c hc).1, ?_⟩
      rintro rfl
      contradiction

/-- The parts of a statement fit together, which depends on no text around it. -/
structure Invocation.WellFormed (i : Invocation) : Prop where
  word : i.word.map Char.toLower = command i.kind
  beforeParen : IsGap i.beforeParen
  beforeName : IsGap i.beforeName
  name : (nameRule i.kind).read (i.name ++ (i.afterName ++ (texts i.arguments ++ [')']))) =
    some (i.name, i.afterName ++ (texts i.arguments ++ [')']))
  afterName : IsGap i.afterName
  settled : Settled (texts i.arguments ++ [')'])
  laid : Laid [')'] i.arguments
  accepts : Accepts i.kind (i.arguments.map Argument.token)

theorem Invocation.text_append :
    i.text ++ rest = i.word ++ (i.beforeParen ++ ('(' :: (i.beforeName ++ (i.name ++
      (i.afterName ++ (texts i.arguments ++ ')' :: rest)))))) := by
  simp [text, head, body, texts]

theorem settled_close_congr {a b : Text} (h : Settled (u ++ ')' :: a)) : Settled (u ++ ')' :: b) :=
  (settled_congr (head?_append_congr (by rfl))).1 h

theorem nameRule_close {g : Text} {args : List Argument} (a b : Text)
    (h : (nameRule kind).read (x ++ (g ++ (texts args ++ ')' :: a))) =
      some (x, g ++ (texts args ++ ')' :: a))) :
    (nameRule kind).read (x ++ (g ++ (texts args ++ ')' :: b))) =
      some (x, g ++ (texts args ++ ')' :: b)) := by
  have h' := nameRule_congr (u := g ++ texts args) (s := ')' :: a) (t := ')' :: b)
    (by simpa only [List.append_assoc] using h) delimited_close delimited_close
  simpa only [List.append_assoc] using h'

/-- A statement is read from its parts. -/
theorem alternative_read_of_parts {word g₁ g₂ g₃ : Text} {args : List Argument}
    (hword : word.map Char.toLower = command kind) (hg₁ : IsGap g₁) (hg₂ : IsGap g₂)
    (hname : (nameRule kind).read (x ++ (g₃ ++ (texts args ++ ')' :: rest))) =
      some (x, g₃ ++ (texts args ++ ')' :: rest)))
    (hg₃ : IsGap g₃) (hsettled : Settled (texts args ++ ')' :: rest))
    (hlaid : Laid (')' :: rest) args) (haccepts : Accepts kind (args.map Argument.token)) :
    (alternative kind).read
        (word ++ (g₁ ++ '(' :: (g₂ ++ (x ++ (g₃ ++ (texts args ++ ')' :: rest)))))) =
      some (⟨kind, word, g₁, g₂, x, g₃, args⟩, rest) := by
  rw [alternative, call_read_eq_some]
  refine ⟨rfl, _, _, _, _, _, wordRule_read_eq_some.2 ⟨rfl, hword, ?_⟩,
    gap_read_append hg₁ (settled_cons.2 (by decide)),
    gap_read_append hg₂ (settled_of_nameRule hname), hname, gap_read_append hg₃ hsettled,
    (reads_argumentRule kind _ _).2 ⟨hlaid, haccepts⟩⟩
  exact endsWord_gap_append hg₁ (endsWord_cons.2 (by decide))

/-- The rule for a kind reads the statements of that kind. -/
theorem alternative_read_eq_some :
    (alternative kind).read s = some (i, rest) ↔
      i.kind = kind ∧ s = i.text ++ rest ∧ i.WellFormed := by
  rw [Invocation.text_append]
  constructor
  · intro h
    rw [alternative, call_read_eq_some] at h
    obtain ⟨rfl, s₁, s₂, s₃, s₄, s₅, hw, hg₁, hg₂, hn, hg₃, hargs⟩ := h
    obtain ⟨rfl, hword, -⟩ := wordRule_read_eq_some.1 hw
    have hs₁ : i.beforeParen ++ '(' :: s₂ = s₁ := gap_lossless hg₁
    have hs₂ : i.beforeName ++ s₃ = s₂ := gap_lossless hg₂
    have hs₃ : i.name ++ s₄ = s₃ := nameRule_lossless hn
    have hs₄ : i.afterName ++ s₅ = s₄ := gap_lossless hg₃
    have hs₅ : texts i.arguments ++ ')' :: rest = s₅ := argumentRule_lossless i.kind hargs
    subst hs₅ hs₄ hs₃ hs₂ hs₁
    obtain ⟨hgap₁, -⟩ := isGap_of_gap_read hg₁ (by simp)
    obtain ⟨hgap₂, -⟩ := isGap_of_gap_read hg₂ (by simp)
    obtain ⟨hgap₃, hsettled⟩ := isGap_of_gap_read hg₃ (by simp)
    obtain ⟨hlaid, haccepts⟩ := (reads_argumentRule i.kind _ _).1 hargs
    exact ⟨rfl, rfl, hword, hgap₁, hgap₂, nameRule_close rest [] hn, hgap₃,
      settled_close_congr hsettled, (laid_congr (by rfl)).1 hlaid, haccepts⟩
  · rintro ⟨rfl, rfl, h⟩
    exact alternative_read_of_parts h.word h.beforeParen h.beforeName
      (nameRule_close [] rest h.name)
      h.afterName (settled_close_congr h.settled) ((laid_congr (by rfl)).1 h.laid) h.accepts

section caseless
variable {α : Type} {f : Char → α} {d : Char}

/-- What does not tell a letter from its capital. -/
def Caseless (f : Char → α) : Prop := ∀ c, f c.toLower = f c

theorem Caseless.eq (hf : Caseless f) (h : c.toLower = d.toLower) : f c = f d := by
  rw [← hf c, h, hf d]

def capitals : Text := (List.range 26).map fun n => Char.ofNat (65 + n)

theorem mem_capitals (h : 'A'.val ≤ c.val ∧ c.val ≤ 'Z'.val) : c ∈ capitals := by
  have hlow : 65 ≤ c.toNat := h.1
  have hhigh : c.toNat ≤ 90 := h.2
  refine List.mem_map.2 ⟨c.toNat - 65, List.mem_range.2 (by omega), ?_⟩
  rw [Nat.add_sub_cancel' hlow, Char.ofNat_toNat]

theorem caseless_of_capitals (h : ∀ c ∈ capitals, f c.toLower = f c) : Caseless f := by
  intro c
  by_cases hc : c.val ≥ 'A'.val ∧ c.val ≤ 'Z'.val
  · exact h c (mem_capitals hc)
  · have hlower : c.toLower = c := dif_neg hc
    rw [hlower]

end caseless

theorem caseless_isIdentifierChar : Caseless isIdentifierChar := caseless_of_capitals (by decide)

theorem isIdentifierChar_of_command (h : x.map Char.toLower = command kind) :
    ∀ c ∈ x, isIdentifierChar c := by
  intro c hc
  rw [← caseless_isIdentifierChar c]
  have hmem : c.toLower ∈ command kind := h ▸ List.mem_map_of_mem hc
  have hcommand : ∀ kind, ∀ d ∈ command kind, isIdentifierChar d := by
    rintro (- | (- | - | - | -)) <;> decide
  exact hcommand _ _ hmem

theorem ne_nil_of_command (h : x.map Char.toLower = command kind) : x ≠ [] := by
  have hne : ∀ kind, command kind ≠ [] := by
    rintro (- | (- | - | - | -)) <;> decide
  rintro rfl
  exact hne kind h.symm

/-- The word before a parenthesis ends where it cannot go on. -/
theorem takeWhile_word (hx : ∀ c ∈ x, isIdentifierChar c) (hg : IsGap g) :
    (x ++ (g ++ '(' :: s)).takeWhile isIdentifierChar = x := by
  have hend : EndsWord (g ++ '(' :: s) := endsWord_gap_append hg (endsWord_cons.2 (by decide))
  rw [List.takeWhile_append_of_pos hx, takeWhile_of_endsWord hend, List.append_nil]

namespace Invocation.WellFormed

theorem isIdentifierChar_word (h : i.WellFormed) : ∀ c ∈ i.word, isIdentifierChar c :=
  isIdentifierChar_of_command h.word

theorem word_ne_nil (h : i.WellFormed) : i.word ≠ [] := ne_nil_of_command h.word

/-- A statement does not begin with a gap. -/
theorem settled_text (h : i.WellFormed) : Settled (i.text ++ rest) := by
  obtain ⟨c, word, hword⟩ := List.exists_cons_of_ne_nil h.word_ne_nil
  have hc : isIdentifierChar c := h.isIdentifierChar_word c (by simp [hword])
  rw [text_append, hword]
  refine settled_cons.2 ⟨(narrow_isIdentifierChar c hc).1, ?_⟩
  intro hhash
  rw [hhash] at hc
  contradiction

theorem takeWhile_text (h : i.WellFormed) (rest : Text) :
    (i.text ++ rest).takeWhile isIdentifierChar = i.word := by
  rw [text_append]
  exact takeWhile_word h.isIdentifierChar_word h.beforeParen

end Invocation.WellFormed

/-- At one place only statements with one command can be read. -/
theorem command_eq_of_read {kind' : Option Kind} {rest' : Text}
    (hi : (alternative kind).read s = some (i, rest))
    (hj : (alternative kind').read s = some (j, rest')) : command kind = command kind' := by
  obtain ⟨rfl, hs, hi⟩ := alternative_read_eq_some.1 hi
  obtain ⟨rfl, hs', hj⟩ := alternative_read_eq_some.1 hj
  rw [← hi.word, ← hj.word, ← hi.takeWhile_text rest, ← hs, hs', hj.takeWhile_text]

theorem alternative_read_eq_none {kind' : Option Kind}
    (h : (alternative kind).read s = some (i, rest)) (hne : command kind' ≠ command kind) :
    (alternative kind').read s = none := by
  rw [Option.eq_none_iff_forall_ne_some]
  rintro ⟨j, rest'⟩ hj
  exact hne (command_eq_of_read hj h)

theorem statement_read_eq_none :
    statement.read s = none ↔ ∀ kind, (alternative kind).read s = none := by
  simp only [statement_read, Option.or_eq_none_iff]
  constructor
  · rintro ⟨h₀, h₁, h₂, h₃, h₄⟩ (- | (- | - | - | -))
    · exact h₀
    · exact h₁
    · exact h₂
    · exact h₃
    · exact h₄
  · intro h
    exact ⟨h _, h _, h _, h _, h _⟩

/-- A statement is read by the rule of its kind, unless it is the setting of an environment
variable. -/
theorem statement_read_eq_some :
    statement.read s = some (i, rest) ↔ (alternative i.kind).read s = some (i, rest) ∧
      (i.kind = some .set → (alternative none).read s = none) := by
  have hkind : ∀ {kind}, (alternative kind).read s = some (i, rest) → i.kind = kind :=
    fun h => (alternative_read_eq_some.1 h).1
  simp only [statement_read, Option.or_eq_some_iff]
  constructor
  · rintro (h | ⟨h₀, h | ⟨-, h | ⟨-, h | ⟨-, h⟩⟩⟩⟩)
    all_goals rw [hkind h]
    · exact ⟨h, by simp⟩
    · exact ⟨h, fun _ => h₀⟩
    all_goals exact ⟨h, by simp⟩
  · rintro ⟨h, henv⟩
    have hnone : ∀ {kind'}, command kind' ≠ command i.kind → (alternative kind').read s = none :=
      alternative_read_eq_none h
    match hk : i.kind with
    | none => exact Or.inl (hk ▸ h)
    | some .set => exact Or.inr ⟨henv hk, Or.inl (hk ▸ h)⟩
    | some .addLibrary =>
      rw [hk] at h hnone
      exact Or.inr ⟨hnone (by decide), Or.inr ⟨hnone (by decide), Or.inl h⟩⟩
    | some .addExecutable =>
      rw [hk] at h hnone
      exact Or.inr ⟨hnone (by decide),
        Or.inr ⟨hnone (by decide), Or.inr ⟨hnone (by decide), Or.inl h⟩⟩⟩
    | some .targetSources =>
      rw [hk] at h hnone
      exact Or.inr ⟨hnone (by decide), Or.inr ⟨hnone (by decide), Or.inr ⟨hnone (by decide),
        Or.inr ⟨hnone (by decide), h⟩⟩⟩⟩

/-- A text that fits together is read as the statement that it is. -/
theorem Invocation.WellFormed.read_text (h : i.WellFormed)
    (henv : i.kind = some .set → (alternative none).read (i.text ++ rest) = none) :
    statement.read (i.text ++ rest) = some (i, rest) :=
  statement_read_eq_some.2 ⟨alternative_read_eq_some.2 ⟨rfl, rfl, h⟩, henv⟩

theorem wellFormed_of_statement (h : statement.read s = some (i, rest)) :
    s = i.text ++ rest ∧ i.WellFormed :=
  (alternative_read_eq_some.1 (statement_read_eq_some.1 h).1).2

end SourceLists.Grammar
