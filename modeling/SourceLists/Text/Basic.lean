/-! Text as a list of characters, with offsets counted in UTF-8 bytes. -/

namespace SourceLists

abbrev Text := List Char

namespace Text
variable {s t u : Text} {c : Char} {n : Nat}

-- Only the characters of the text are tried, not every character there is.
instance (priority := 2000) (p : Char → Prop) [DecidablePred p] (s : Text) :
    Decidable (∀ c ∈ s, p c) := List.decidableBAll p s

/-- The number of bytes that the text takes in UTF-8. -/
def size : Text → Nat
  | [] => 0
  | c :: s => c.utf8Size + size s

@[simp] theorem size_nil : size [] = 0 := rfl

@[simp] theorem size_cons : size (c :: s) = c.utf8Size + size s := rfl

@[simp] theorem size_append : size (s ++ t) = size s + size t := by
  induction s with
  | nil => simp
  | cons c s ih =>
    rw [List.cons_append, size_cons, size_cons, ih]
    omega

theorem size_cons_pos : 0 < size (c :: s) := by
  have := Char.utf8Size_pos c
  simp; omega

theorem size_eq_zero : size s = 0 ↔ s = [] := by
  cases s with
  | nil => simp
  | cons c s => simp [Nat.ne_of_gt (Char.utf8Size_pos c)]

/-- Cuts at a byte offset; there is no cut inside a character or beyond the end. -/
def splitAt? : Text → Nat → Option (Text × Text)
  | s, 0 => some ([], s)
  | [], _ + 1 => none
  | c :: s, n + 1 =>
    if c.utf8Size ≤ n + 1 then
      (splitAt? s (n + 1 - c.utf8Size)).map fun (before, after) => (c :: before, after)
    else none

@[simp] theorem splitAt?_zero : splitAt? s 0 = some ([], s) := by cases s <;> rfl

theorem splitAt?_size_append : splitAt? (s ++ t) (size s) = some (s, t) := by
  induction s with
  | nil => simp
  | cons c s ih =>
    obtain ⟨n, hn⟩ := Nat.exists_eq_add_one.2 (@size_cons_pos s c)
    have hc : size (c :: s) = c.utf8Size + size s := size_cons
    rw [hn, List.cons_append, splitAt?, if_pos (by omega),
      show n + 1 - c.utf8Size = size s by omega, ih]
    rfl

theorem splitAt?_eq_some : splitAt? s n = some (t, u) ↔ t ++ u = s ∧ size t = n := by
  refine ⟨fun h => ?_, fun ⟨hs, hn⟩ => hs ▸ hn ▸ splitAt?_size_append⟩
  fun_induction splitAt? s n generalizing t with
  | case1 => simp_all
  | case2 => simp at h
  | case3 c s n hc ih =>
    obtain ⟨⟨b, a⟩, hba, heq⟩ := Option.map_eq_some_iff.1 h
    obtain ⟨rfl, rfl⟩ := Prod.mk.inj heq
    have := ih hba
    simp [this.1]; omega
  | case4 => simp at h

/-- A text can be cut at one offset in one way only. -/
theorem append_inj_of_size {v : Text} (h : s ++ t = u ++ v) (hsize : size s = size u) :
    s = u ∧ t = v := by
  have hsplit := splitAt?_size_append (s := s) (t := t)
  rw [h, hsize, splitAt?_size_append] at hsplit
  obtain ⟨hu, hv⟩ := Prod.mk.inj (Option.some.inj hsplit)
  exact ⟨hu.symm, hv.symm⟩

/-- The part between two byte offsets, if both are cuts and they do not cross. -/
def slice? (s : Text) (start stop : Nat) : Option Text := do
  guard (start ≤ stop)
  let (_, rest) ← splitAt? s start
  let (part, _) ← splitAt? rest (stop - start)
  return part

/-- The text in a message. -/
def shown (s : Text) : String := String.ofList s

/-- The text without the given character at its end. -/
def trimEnd (c : Char) (s : Text) : Text := (s.reverse.dropWhile (· == c)).reverse

/-- The text without the given character at either end. -/
def trim (c : Char) (s : Text) : Text := trimEnd c (s.dropWhile (· == c))

end Text
end SourceLists
