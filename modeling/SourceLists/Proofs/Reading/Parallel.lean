import SourceLists.Grammar.Lossless

/-! One rule on two texts that differ only behind a common beginning. -/

namespace SourceLists.Grammar
open Rule

variable {s t u rest : Text} {c : Char}

/-- What can stand behind an item: a blank, a closing parenthesis or the end. -/
def Delimited (s : Text) : Prop := ∀ c ∈ s.head?, isBlank c ∨ c = ')'

theorem delimited_cons : Delimited (c :: s) ↔ isBlank c ∨ c = ')' := by
  simp [Delimited]

/-- A class of characters that stops before a delimiter. -/
def Narrow (p : Char → Bool) : Prop := ∀ c, p c → ¬ isBlank c ∧ c ≠ ')'

theorem narrow_of_eq_false {p : Char → Bool}
    (hp : ∀ c ∈ [' ', '\t', '\n', '\r', ')'], p c = false) : Narrow p := by
  intro c hc
  constructor
  · intro hb
    simp only [isBlank, Bool.or_eq_true, beq_iff_eq] at hb
    rcases hb with ((rfl | rfl) | rfl) | rfl <;> simp [hp] at hc
  · rintro rfl
    simp [hp] at hc

theorem narrow_isIdentifierChar : Narrow isIdentifierChar := narrow_of_eq_false (by decide)

theorem narrow_isIdentifierStart : Narrow isIdentifierStart := narrow_of_eq_false (by decide)

theorem narrow_isNameChar : Narrow isNameChar := narrow_of_eq_false (by decide)

theorem narrow_isBare : Narrow isBare := by
  intro c h
  simp only [isBare, Bool.not_eq_true', Bool.or_eq_false_iff, beq_eq_false_iff_ne] at h
  simp [h]

theorem Narrow.eq_false {p : Char → Bool} (hp : Narrow p) (h : Delimited (c :: s)) :
    p c = false := by
  cases hc : p c with
  | false => rfl
  | true =>
    have hn := hp c hc
    rcases delimited_cons.1 h with hb | hb
    · exact absurd hb hn.1
    · exact absurd hb hn.2

namespace Rule
variable {α β : Type} {crossing : Prop}

/-- The readings of one rule from `u ++ s` and from `u ++ t`. They fail together, or read the same
and stop inside of `u`, or, where the rule can cross its end, stop at one place behind it. -/
inductive Parallel (s t : Text) (crossing : Prop) :
    Option (α × Text) → Option (α × Text) → Prop
  | none : Parallel s t crossing none none
  | within (x : α) (u : Text) : Parallel s t crossing (some (x, u ++ s)) (some (x, u ++ t))
  | beyond (h : crossing) (x y : α) (rest : Text) :
      Parallel s t crossing (some (x, rest)) (some (y, rest))

def Steady (s t : Text) (crossing : Prop) (r : Rule α) : Prop :=
  ∀ u, Parallel s t crossing (r.read (u ++ s)) (r.read (u ++ t))

/-- Every reading takes at least one character. -/
def Consumes (r : Rule α) : Prop := ∀ ⦃s x rest⦄, r.read s = some (x, rest) → rest.length < s.length

theorem Parallel.isSome_eq {o o' : Option (α × Text)} (h : Parallel s t crossing o o') :
    o.isSome = o'.isSome := by
  cases h <;> rfl

theorem Parallel.map {o o' : Option (α × Text)} (h : Parallel s t crossing o o') (f : α → β) :
    Parallel s t crossing (o.map fun (x, rest) => (f x, rest))
      (o'.map fun (x, rest) => (f x, rest)) := by
  cases h with
  | none => exact .none
  | within x u => exact .within (f x) u
  | beyond h x y rest => exact .beyond h (f x) (f y) rest

/-- What follows in parallel inside of `u` follows in parallel altogether. -/
theorem Parallel.bind {o o' : Option (α × Text)} (h : Parallel s t crossing o o')
    {k : α → Text → Option (β × Text)}
    (hk : ∀ x u, Parallel s t crossing (k x (u ++ s)) (k x (u ++ t)))
    (hs : ∀ x y rest, (k x rest).map Prod.snd = (k y rest).map Prod.snd) :
    Parallel s t crossing (o.bind fun (x, rest) => k x rest)
      (o'.bind fun (x, rest) => k x rest) := by
  cases h with
  | none => exact .none
  | within x u => exact hk x u
  | beyond h x y rest =>
    have hxy := hs x y rest
    simp only [Option.bind_some]
    cases hx : k x rest with
    | none =>
      rw [hx] at hxy
      rw [Option.map_eq_none_iff.1 hxy.symm]
      exact .none
    | some a =>
      rw [hx] at hxy
      obtain ⟨b, hb, hab⟩ := Option.map_eq_some_iff.1 hxy.symm
      obtain ⟨x', rest'⟩ := a
      obtain ⟨y', rest''⟩ := b
      cases hab
      rw [hb]
      exact .beyond h x' y' rest'

namespace Steady

theorem pure {x : α} : Steady s t crossing (pure x : Rule α) := fun u => .within x u

theorem named {r : Rule α} {name : RuleName} (h : Steady s t crossing r) :
    Steady s t crossing (named name r) := h

theorem token {r : Rule α} {name : RuleName} (h : Steady s t crossing r) :
    Steady s t crossing (token name r) := h

theorem map {r : Rule α} {f : α → β} (h : Steady s t crossing r) :
    Steady s t crossing (f <$> r) := fun u => (h u).map f

theorem seqLeft {r : Rule α} {t' : Rule β} (hr : Steady s t crossing r)
    (ht : Steady s t crossing t') : Steady s t crossing (r <* t') := by
  intro u
  rw [read_seqLeft, read_seqLeft]
  apply (hr u).bind (k := fun x rest => (t'.read rest).map fun (_, rest) => (x, rest))
  · intro x u
    exact (ht u).map fun _ => x
  · intro x y rest
    cases t'.read rest <;> rfl

theorem seqRight {t' : Rule β} {r : Rule α} (ht : Steady s t crossing t')
    (hr : Steady s t crossing r) : Steady s t crossing (t' *> r) := by
  intro u
  rw [read_seqRight, read_seqRight]
  exact (ht u).bind (k := fun _ rest => r.read rest) (fun _ u => hr u) fun _ _ _ => rfl

theorem append {r t' : Rule (List α)} (hr : Steady s t crossing r)
    (ht : Steady s t crossing t') : Steady s t crossing (r ++ t') := by
  intro u
  rw [read_append, read_append]
  apply (hr u).bind (k := fun x rest => (t'.read rest).map fun p => (x ++ p.1, p.2))
  · intro x u
    exact (ht u).map (x ++ ·)
  · intro x y rest
    cases t'.read rest <;> rfl

theorem orElse {r t' : Rule α} (hr : Steady s t crossing r) (ht : Steady s t crossing t') :
    Steady s t crossing (r <|> t') := by
  intro u
  rw [read_orElse, read_orElse]
  have h := hr u
  generalize r.read (u ++ s) = o at h ⊢
  generalize r.read (u ++ t) = o' at h ⊢
  cases h with
  | none => exact ht u
  | within x u => exact .within x u
  | beyond h x y rest => exact .beyond h x y rest

theorem char {p : Char → Bool} (hp : Narrow p) (hs : Delimited s) (ht : Delimited t) :
    Steady s t crossing (char p) := by
  -- A delimiter is not in the class, so that nothing is read where `u` is over.
  have hnone : ∀ {v : Text}, Delimited v → (Rule.char p).read v = none := by
    intro v hv
    cases v with
    | nil => rfl
    | cons c v =>
      simp [Rule.char, hp.eq_false hv]
  intro u
  cases u with
  | nil =>
    rw [List.nil_append, List.nil_append, hnone hs, hnone ht]
    exact .none
  | cons c u =>
    simp only [Rule.char, List.cons_append]
    split
    · exact .within [c] u
    · exact .none

theorem chars {p : Char → Bool} (hp : Narrow p) (hs : Delimited s) (ht : Delimited t) :
    Steady s t crossing (chars p) := by
  have hnone : ∀ {v : Text}, Delimited v → v.takeWhile p = [] ∧ v.dropWhile p = v := by
    intro v hv
    cases v with
    | nil => exact ⟨rfl, rfl⟩
    | cons c v =>
      simp [hp.eq_false hv]
  intro u
  induction u with
  | nil =>
    simp only [Rule.chars, List.nil_append, hnone hs, hnone ht]
    exact .within [] []
  | cons c u ih =>
    simp only [Rule.chars, List.cons_append] at ih ⊢
    by_cases hc : p c
    · simp only [List.takeWhile_cons, List.dropWhile_cons, hc, ↓reduceIte]
      exact ih.map (c :: ·)
    · simp only [List.takeWhile_cons, List.dropWhile_cons, hc]
      exact .within [] (c :: u)

theorem exactly {word : Text} (hw : ∀ c ∈ word, ¬ isBlank c ∧ c ≠ ')') (hs : Delimited s)
    (ht : Delimited t) : Steady s t crossing (exactly word) := by
  induction word with
  | nil => exact pure
  | cons c word ih =>
    apply append
    · apply char _ hs ht
      intro d hd
      rw [eq_of_beq hd]
      exact hw c List.mem_cons_self
    · exact ih fun d hd => hw d (List.mem_cons_of_mem c hd)

theorem oneOf {words : List Text} (hw : ∀ word ∈ words, ∀ c ∈ word, ¬ isBlank c ∧ c ≠ ')')
    (hs : Delimited s) (ht : Delimited t) : Steady s t crossing (oneOf words) := by
  induction words with
  | nil => exact fun _ => .none
  | cons word words ih =>
    apply orElse
    · exact exactly (hw word List.mem_cons_self) hs ht
    · exact ih fun w h => hw w (List.mem_cons_of_mem word h)

end Steady

theorem readAll_eq {r : Rule (List α)} (h : Consumes r) :
    readAll r s = match r.read s with
      | none => ([], s)
      | some (x, rest) => (x ++ (readAll r rest).1, (readAll r rest).2) := by
  rw [readAll]
  cases hr : r.read s with
  | none => rfl
  | some a => simp [h hr]

namespace Steady

theorem star {r : Rule (List α)} (hc : Consumes r) (h : Steady s t crossing r) :
    Steady s t crossing (star r) := by
  intro u
  simp only [Rule.star]
  induction hn : u.length using Nat.strongRecOn generalizing u with
  | ind n ih =>
    have hu := h u
    rw [readAll_eq hc (s := u ++ s), readAll_eq hc (s := u ++ t)]
    cases hs : r.read (u ++ s) with
    | none =>
      rw [hs] at hu
      generalize r.read (u ++ t) = o at hu ⊢
      cases hu
      exact .within [] u
    | some a =>
      have hlt := hc hs
      rw [hs] at hu
      generalize r.read (u ++ t) = o at hu ⊢
      cases hu with
      | within x v =>
        simp only [List.length_append] at hlt
        exact (ih v.length (by omega) v rfl).map (x ++ ·)
      | beyond h x y rest => exact .beyond h _ _ _

theorem plus {r : Rule (List α)} (hc : Consumes r) (h : Steady s t crossing r) :
    Steady s t crossing (plus r) := h.append (star hc h)

end Steady

theorem consumes_char {p : Char → Bool} : Consumes (char p) := by
  intro s x rest h
  cases s with
  | nil => contradiction
  | cons c s =>
    simp only [Rule.char] at h
    split at h
    · cases h; simp
    · contradiction

end Rule
end SourceLists.Grammar
