import SourceLists.Proofs.Reading.Head
import SourceLists.Proofs.Reading.Run
import SourceLists.Proofs.Scanning.Prefix

/-! Texts that the scanner passes over without finding a statement. -/

namespace SourceLists.Scan
open Grammar

variable {s x y q word rest : Text} {c : Char} {p r : Option Char} {seg : Segment}
  {start : Nat} {args : List Text}

/-- No parenthesis is opened behind the blanks and comments at the start of the text. -/
def Uncalled (s : Text) : Prop := (takeGap false s).2.head? ≠ some '('

theorem uncalled_cons (hc : ¬ isBlank c ∧ c ≠ '#') (ho : c ≠ '(') : Uncalled (c :: s) := by
  rw [Uncalled, takeGap_of_settled (settled_cons.2 hc)]
  simpa using ho

theorem uncalled_space : Uncalled (' ' :: s) ↔ Uncalled s := Iff.rfl

/-- A statement is a word that is called. -/
theorem statement_read_uncalled (h : Uncalled (s.dropWhile isIdentifierChar)) :
    statement.read s = none := by
  rw [Option.eq_none_iff_forall_ne_some]
  rintro ⟨i, rest⟩ hread
  obtain ⟨rfl, hwf⟩ := wellFormed_of_statement hread
  have hend : EndsWord (i.beforeParen ++ '(' :: (i.beforeName ++ (i.name ++
      (i.afterName ++ (Argument.texts i.arguments ++ ')' :: rest))))) :=
    endsWord_gap_append hwf.beforeParen (endsWord_cons.2 (by decide))
  rw [Invocation.text_append, List.dropWhile_append_of_pos hwf.isIdentifierChar_word,
    dropWhile_of_endsWord hend, Uncalled, takeGap_append_of_gapState hwf.beforeParen] at h
  exact h rfl

/-- Behind `x` the scanner goes on with `rest`, and has found nothing. -/
def Passed (p : Option Char) (x : Text) (r : Option Char) (rest : Text) : Prop :=
  ∀ start, statementsAt start (segments p (x ++ rest)) =
    statementsAt (start + Text.size x) (segments r rest)

theorem passed_nil : Passed p [] p rest := fun _ => rfl

theorem Passed.append {m : Option Char} (hx : Passed p x m (y ++ rest)) (hy : Passed m y r rest) :
    Passed p (x ++ y) r rest := by
  intro start
  rw [List.append_assoc, hx, hy, Text.size_append, Nat.add_assoc]

theorem Step.passed (h : Step p s seg r rest) (hseg : ∀ n, seg.statement? n = none) :
    Passed p seg.text r rest := by
  intro start
  rw [← h.text_append, h.segments_eq, statementsAt, hseg]
  rfl

theorem passed_char (hc : c ≠ '#' ∧ c ≠ '"')
    (hread : mayBegin p c → statement.read (c :: rest) = none) :
    Passed p [c] (some c) rest :=
  (Step.other hc hread).passed fun _ => rfl

/-- A character with which no command begins. -/
theorem passed_of_not_mayBegin (hc : c ≠ '#' ∧ c ≠ '"') (hbegin : ∀ p, ¬ mayBegin p c) :
    Passed p [c] (some c) rest :=
  passed_char hc fun h => absurd h (hbegin p)

/-- No statement begins inside of a word. -/
theorem passed_inside (hx : ∀ c ∈ x, isIdentifierChar c) (hp : p.any isIdentifierChar)
    (rest : Text) :
    ∃ r, Passed p x r rest := by
  induction x generalizing p with
  | nil => exact ⟨p, passed_nil⟩
  | cons c x ih =>
    obtain ⟨hc, hx⟩ := List.forall_mem_cons.1 hx
    obtain ⟨r, hr⟩ := ih (p := some c) hx hc
    obtain ⟨hquote, -, -, hhash⟩ := isQuiet_of_isIdentifierChar hc
    refine ⟨r, (passed_char ⟨hhash, hquote⟩ ?_).append hr⟩
    intro hbegin
    simp [mayBegin, hp] at hbegin

/-- A word is passed if it is not read where it begins. -/
theorem passed_word (hx : ∀ c ∈ x, isIdentifierChar c) (hread : statement.read (x ++ rest) = none) :
    ∃ r, Passed p x r rest := by
  cases x with
  | nil => exact ⟨p, passed_nil⟩
  | cons c x =>
    obtain ⟨hc, hx⟩ := List.forall_mem_cons.1 hx
    obtain ⟨r, hr⟩ := passed_inside (p := some c) hx hc rest
    obtain ⟨hquote, -, -, hhash⟩ := isQuiet_of_isIdentifierChar hc
    exact ⟨r, (passed_char ⟨hhash, hquote⟩ fun _ => hread).append hr⟩

/-- A character without a meaning of its own. -/
def IsPlain (c : Char) : Prop := isBare c ∧ c ≠ '#'

instance : DecidablePred IsPlain := fun c => inferInstanceAs (Decidable (isBare c ∧ c ≠ '#'))

theorem IsPlain.ne_quote (h : IsPlain c) : c ≠ '"' := by
  rintro rfl
  exact absurd h.1 (by decide)

theorem IsPlain.uncalled (h : IsPlain c) : Uncalled (c :: s) := by
  refine uncalled_cons ⟨(narrow_isBare c h.1).1, h.2⟩ ?_
  rintro rfl
  exact absurd h.1 (by decide)

theorem takeString_closes (h : Closes q) : takeString false (q ++ s) = (q, s) := by
  induction h with
  | quote => rfl
  | escaped c h ih => simp [takeString, ih]
  | ordinary hc h ih => simp [takeString, hc, beq_eq_false_iff_ne.2 hc.1, ih]

theorem passed_quoted (hq : Closes q) : Passed p ('"' :: q) (some '"') rest := by
  have hstep : Step p ('"' :: (q ++ rest)) _ _ _ := .quoted (q ++ rest)
  rw [takeString_closes hq] at hstep
  exact hstep.passed fun _ => rfl

/-- A run of quoted strings and of characters without a meaning of their own. -/
inductive IsPlainRun : Text → Prop
  | nil : IsPlainRun []
  | plain {c : Char} {x : Text} (hc : IsPlain c) (h : IsPlainRun x) : IsPlainRun (c :: x)
  | quoted {q x : Text} (hq : Closes q) (h : IsPlainRun x) : IsPlainRun ('"' :: (q ++ x))

theorem isPlainRun_of_isPlain (hx : ∀ c ∈ x, IsPlain c) : IsPlainRun x := by
  induction x with
  | nil => exact .nil
  | cons c x ih =>
    obtain ⟨hc, hx⟩ := List.forall_mem_cons.1 hx
    exact .plain hc (ih hx)

theorem isPlainRun_of_isRun (h : IsRun x) (hsign : '#' ∉ x) : IsPlainRun x := by
  induction h with
  | nil => exact .nil
  | bare hc h ih =>
    obtain ⟨hne, hsign⟩ := not_or.1 (mt List.mem_cons.2 hsign)
    exact .plain ⟨hc, Ne.symm hne⟩ (ih hsign)
  | quoted hq h ih => exact .quoted hq (ih fun hmem => hsign (by simp [hmem]))

namespace IsPlainRun

theorem uncalled (h : IsPlainRun x) (hne : x ≠ []) : Uncalled (x ++ s) := by
  cases h with
  | nil => contradiction
  | plain hc h => exact hc.uncalled
  | quoted hq h => exact uncalled_cons (by decide) (by decide)

theorem uncalled_dropWhile (h : IsPlainRun x) (hend : EndsWord rest) (hrest : Uncalled rest) :
    Uncalled ((x ++ rest).dropWhile isIdentifierChar) := by
  induction h with
  | nil => rwa [List.nil_append, dropWhile_of_endsWord hend]
  | @plain c x hc h ih =>
    by_cases hid : isIdentifierChar c
    · rw [List.cons_append, List.dropWhile_cons_of_pos hid]
      exact ih
    · rw [List.cons_append, List.dropWhile_cons_of_neg hid]
      exact hc.uncalled
  | quoted hq h ih =>
    rw [List.cons_append, List.dropWhile_cons_of_neg (by decide)]
    exact uncalled_cons (by decide) (by decide)

/-- Words are passed that are not called, and so are quoted strings. -/
theorem passed (h : IsPlainRun x) (hend : EndsWord rest) (hrest : Uncalled rest) :
    ∃ r, Passed p x r rest := by
  induction h generalizing p with
  | nil => exact ⟨p, passed_nil⟩
  | @plain c x hc h ih =>
    have hnone : statement.read (c :: x ++ rest) = none :=
      statement_read_uncalled ((IsPlainRun.plain hc h).uncalled_dropWhile hend hrest)
    obtain ⟨r, hr⟩ := ih (p := some c)
    exact ⟨r, (passed_char ⟨hc.2, hc.ne_quote⟩ fun _ => hnone).append hr⟩
  | @quoted q x hq h ih =>
    obtain ⟨r, hr⟩ := ih (p := some '"')
    have hquoted : Passed p ('"' :: q) (some '"') (x ++ rest) := passed_quoted hq
    exact ⟨r, hquoted.append hr⟩

end IsPlainRun

/-- An argument that is a word or a quoted string. -/
def IsArgument (x : Text) : Prop :=
  (x ≠ [] ∧ ∀ c ∈ x, IsPlain c) ∨ ∃ q, Closes q ∧ x = '"' :: q

theorem IsArgument.isPlainRun (h : IsArgument x) : IsPlainRun x ∧ x ≠ [] := by
  rcases h with ⟨hne, hx⟩ | ⟨q, hq, rfl⟩
  · exact ⟨isPlainRun_of_isPlain hx, hne⟩
  · have hrun := IsPlainRun.quoted hq .nil
    rw [List.append_nil] at hrun
    exact ⟨hrun, List.cons_ne_nil '"' q⟩

theorem uncalled_intercalate (h : ∀ x ∈ args, IsPlainRun x ∧ x ≠ []) (hargs : args ≠ []) :
    Uncalled (List.intercalate [' '] args ++ rest) := by
  obtain ⟨x, args, rfl⟩ := List.exists_cons_of_ne_nil hargs
  obtain ⟨hx, hne⟩ := h x List.mem_cons_self
  cases args with
  | nil =>
    rw [List.intercalate_singleton]
    exact hx.uncalled hne
  | cons y args =>
    rw [List.intercalate_cons_cons, List.append_assoc, List.append_assoc]
    exact hx.uncalled hne

theorem passed_arguments (h : ∀ x ∈ args, IsPlainRun x ∧ x ≠ []) (hend : EndsWord rest)
    (hrest : Uncalled rest) : ∃ r, Passed p (List.intercalate [' '] args) r rest := by
  induction args generalizing p with
  | nil => exact ⟨p, passed_nil⟩
  | cons x args ih =>
    obtain ⟨⟨hx, -⟩, hargs⟩ := List.forall_mem_cons.1 h
    cases args with
    | nil =>
      rw [List.intercalate_singleton]
      exact hx.passed hend hrest
    | cons y args =>
      obtain ⟨r, hr⟩ := ih (p := some ' ') hargs
      have hnext : Uncalled (List.intercalate [' '] (y :: args) ++ rest) :=
        uncalled_intercalate hargs (List.cons_ne_nil y args)
      obtain ⟨m, hm⟩ : ∃ m, Passed p x m (' ' :: (List.intercalate [' '] (y :: args) ++ rest)) :=
        hx.passed (endsWord_cons.2 (by decide)) (uncalled_space.2 hnext)
      have hspace : Passed m [' '] (some ' ') (List.intercalate [' '] (y :: args) ++ rest) :=
        passed_of_not_mayBegin (by decide) (by simp [mayBegin])
      rw [List.intercalate_cons_cons]
      exact ⟨r, (hm.append (y := [' ']) hspace).append hr⟩

end SourceLists.Scan
