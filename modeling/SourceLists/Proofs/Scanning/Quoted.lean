import SourceLists.Proofs.Scanning.Passing

/-! A quoted string ends at the same place for the scanner, for the rule of items, and for a
repetition with two choices at a backslash. -/

namespace SourceLists.Grammar
open Rule

variable {s : Text} {c : Char}

def anyChar : Rule Text := char fun _ => true

/-- A backslash with the character behind it, or any character but a quote. The second choice takes
a backslash that ends the text. -/
def quotedChar : Rule Text := exactly ['\\'] ++ anyChar <|> absent (exactly ['"']) *> anyChar

/-- The inside of a quoted string, by repetition, and the quote that closes it. -/
def quotedRest : Rule Text := star quotedChar ++ exactly ['"']

theorem quotedChar_consumes : Consumes quotedChar := by
  have hany : Consumes anyChar := consumes_char
  refine Consumes.orElse ?_ ?_
  · have hnil : LosslessList (fun c => [c]) (exactly []) := LosslessList.pure_nil
    have hslash : Consumes (exactly ['\\']) := consumes_char.append hnil
    exact hslash.append (Lossless.toList Lossless.char)
  · intro s x rest h
    exact hany (absent_seqRight_read_eq_some.1 h).2

theorem quotedChar_escaped : quotedChar.read ('\\' :: c :: s) = some (['\\', c], s) := rfl

theorem quotedChar_quote : quotedChar.read ('"' :: s) = none := rfl

theorem quotedChar_ordinary (hslash : c = '\\' → s = []) (hquote : c ≠ '"') :
    quotedChar.read (c :: s) = some ([c], s) := by
  by_cases hc : c = '\\'
  · rw [hslash hc, hc]
    rfl
  · have hfirst : (exactly ['\\']).read (c :: s) = none := by simp [exactly, read_append, char, hc]
    have hsecond : (exactly ['"']).read (c :: s) = none := by
      simp [exactly, read_append, char, hquote]
    rw [quotedChar, read_orElse, read_append, hfirst]
    exact absent_seqRight_read_eq_some.2 ⟨hsecond, rfl⟩

theorem quotedRest_read : quotedRest.read s =
    ((exactly ['"']).read (readAll quotedChar s).2).map
      fun (x, rest) => ((readAll quotedChar s).1 ++ x, rest) := by
  rw [quotedRest, read_append]
  rfl

/-- A round of the repetition goes before all that follows. -/
theorem quotedRest_of_read {x w : Text} (h : quotedChar.read s = some (x, w)) :
    quotedRest.read s = (quotedRest.read w).map fun (y, rest) => (x ++ y, rest) := by
  rw [quotedRest_read, quotedRest_read, readAll_eq quotedChar_consumes, h]
  cases (exactly ['"']).read (readAll quotedChar w).2 with
  | none => rfl
  | some b => simp

theorem takeQuoted_eq : takeQuoted s = quotedRest.read s := by
  fun_induction takeQuoted s with
  | case1 =>
    rw [quotedRest_read, readAll_of_read_eq_none quotedChar_consumes rfl]
    rfl
  | case2 c s ih =>
    rw [quotedRest_of_read quotedChar_escaped, ih]
    rfl
  | case3 s =>
    rw [quotedRest_read, readAll_of_read_eq_none quotedChar_consumes quotedChar_quote]
    rfl
  | case4 c s hslash hquote ih =>
    have hend : c = '\\' → s = [] := by
      rintro rfl
      cases s with
      | nil => rfl
      | cons d s => exact absurd rfl (hslash d s rfl)
    rw [quotedRest_of_read (quotedChar_ordinary hend hquote), ih]
    rfl

/-- The rule of items reads quoted strings as the repetition does. -/
theorem quotedString_read : quotedString.read s = (exactly ['"'] ++ quotedRest).read s := by
  have hopen : (exactly ['"']).read s = (char (· == '"')).read s := by
    cases s with
    | nil => rfl
    | cons c s => by_cases hc : c = '"' <;> simp [exactly, read_append, char, hc]
  rw [quotedString, read_append, read_append, hopen]
  cases (char (· == '"')).read s with
  | none => rfl
  | some b => simp only [Option.bind_some, takeQuoted_eq]

end SourceLists.Grammar

namespace SourceLists.Scan
open Grammar

variable {s : Text}

theorem takeString_of_unclosed (h : takeQuoted s = none) : takeString false s = (s, []) := by
  fun_induction takeQuoted s with
  | case1 => rfl
  | case2 c s ih =>
    have hs := ih (Option.map_eq_none_iff.1 h)
    simp [takeString, hs]
  | case3 => contradiction
  | case4 c s hslash hquote ih =>
    have hs := ih (Option.map_eq_none_iff.1 h)
    by_cases hc : c = '\\'
    · subst hc
      cases s with
      | nil => rfl
      | cons d s => exact absurd rfl (hslash d s rfl)
    · simp [takeString, hquote, beq_eq_false_iff_ne.2 hc, hs]

/-- Behind an opening quote the scanner takes the string that is read there, or else the whole
text. -/
theorem takeString_eq : takeString false s = (takeQuoted s).getD (s, []) := by
  cases h : takeQuoted s with
  | none => exact takeString_of_unclosed h
  | some b =>
    have hs : b.1 ++ b.2 = s := takeQuoted_append h
    rw [← hs]
    exact takeString_closes (closes_of_takeQuoted h)

end SourceLists.Scan
