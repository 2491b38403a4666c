import SourceLists.Grammar.Attempts

/-! Grammar rules. A rule reads the start of a text, by ordered choice and greedy repetition, and
can also tell which rules were tried where reading got furthest. -/

namespace SourceLists.Grammar

structure Rule (α : Type) where
  /-- What is read, and the text behind it. -/
  read : Text → Option (α × Text)
  /-- The attempts after reading, inside a negative lookahead or outside of one. -/
  tried : Bool → Text → Attempts → Attempts

namespace Rule
variable {α β : Type} {s rest : Text} {x : α} {y : β} {negative : Bool} {a : Attempts}

instance : Applicative Rule where
  pure x := ⟨fun s => some (x, s), fun _ _ a => a⟩
  map f r := ⟨fun s => (r.read s).map fun (x, rest) => (f x, rest), r.tried⟩
  seq f r :=
    { read := fun s =>
        (f.read s).bind fun (g, rest) => ((r ()).read rest).map fun (x, rest) => (g x, rest)
      tried := fun negative s a =>
        match f.read s with
        | some (_, rest) => (r ()).tried negative rest (f.tried negative s a)
        | none => f.tried negative s a }

instance : Append (Rule (List α)) where
  append r t := (· ++ ·) <$> r <*> t

/-- Ordered choice: the second rule is tried only where the first does not read. -/
instance : OrElse (Rule α) where
  orElse r t :=
    { read := fun s => (r.read s).or ((t ()).read s)
      tried := fun negative s a =>
        if (r.read s).isSome then r.tried negative s a
        else (t ()).tried negative s (r.tried negative s a) }

def optionally (r : Rule (List α)) : Rule (List α) := r <|> pure []

/-- Reads as often as it can. A round that reads nothing is the last. -/
def readAll (r : Rule (List α)) (s : Text) : List α × Text :=
  match r.read s with
  | none => ([], s)
  | some (x, rest) =>
    if rest.length < s.length then
      let (xs, rest) := readAll r rest
      (x ++ xs, rest)
    else ([], s)
termination_by s.length

def triedAll (r : Rule (List α)) (negative : Bool) (s : Text) (a : Attempts) : Attempts :=
  match r.read s with
  | none => r.tried negative s a
  | some (_, rest) =>
    if rest.length < s.length then triedAll r negative rest (r.tried negative s a)
    else r.tried negative s a
termination_by s.length

def star (r : Rule (List α)) : Rule (List α) := ⟨fun s => some (readAll r s), triedAll r⟩

def plus (r : Rule (List α)) : Rule (List α) := r ++ star r

/-- The rule would read here, but takes nothing. -/
def ahead (r : Rule α) : Rule Unit := ⟨fun s => (r.read s).map fun _ => ((), s), r.tried⟩

/-- The rule would not read here. -/
def absent (r : Rule α) : Rule Unit :=
  { read := fun s => if (r.read s).isSome then none else some ((), s)
    tried := fun negative => r.tried !negative }

/-- The rule as one unit, none of whose parts is ever reported. -/
def atomic (r : Rule α) : Rule α := ⟨r.read, fun _ _ a => a⟩

/-- The rule under a name by which it is reported. -/
def named (name : RuleName) (r : Rule α) : Rule α :=
  { read := r.read
    tried := fun negative s a =>
      if (r.read s).isSome = negative then
        (r.tried negative s a).report a (Text.size s) name negative
      else r.tried negative s a }

def token (name : RuleName) (r : Rule α) : Rule α := named name (atomic r)

/-- One character of a class. -/
def char (p : Char → Bool) : Rule Text :=
  { read := fun
      | c :: s => if p c then some ([c], s) else none
      | [] => none
    tried := fun _ _ a => a }

/-- All characters of a class that follow, if any. -/
def chars (p : Char → Bool) : Rule Text :=
  ⟨fun s => some (s.takeWhile p, s.dropWhile p), fun _ _ a => a⟩

/-- A word in exactly this spelling. -/
def exactly : Text → Rule Text
  | [] => pure []
  | c :: word => char (· == c) ++ exactly word

/-- A word in any mixture of upper and lower case ASCII letters. -/
def anyCase : Text → Rule Text
  | [] => pure []
  | c :: word => char (·.toLower == c.toLower) ++ anyCase word

/-- The first of several words that is there. -/
def oneOf : List Text → Rule Text
  | [] => ⟨fun _ => none, fun _ _ a => a⟩
  | word :: words => exactly word <|> oneOf words

def endOfInput : Rule Text :=
  named .endOfInput ⟨fun s => if s.isEmpty then some ([], s) else none, fun _ _ a => a⟩

@[simp] theorem read_pure : (pure x : Rule α).read s = some (x, s) := rfl

@[simp] theorem read_map {f : α → β} {r : Rule α} :
    (f <$> r).read s = (r.read s).map fun (x, rest) => (f x, rest) := rfl

@[simp] theorem read_seq {f : Rule (α → β)} {r : Rule α} :
    (f <*> r).read s =
      (f.read s).bind fun (g, rest) => (r.read rest).map fun (x, rest) => (g x, rest) := rfl

@[simp] theorem read_orElse {r t : Rule α} : (r <|> t).read s = (r.read s).or (t.read s) := rfl

@[simp] theorem read_named {r : Rule α} {name : RuleName} : (named name r).read s = r.read s := rfl

@[simp] theorem read_token {r : Rule α} {name : RuleName} : (token name r).read s = r.read s := rfl

theorem read_seqLeft {r : Rule α} {t : Rule β} :
    (r <* t).read s =
      (r.read s).bind fun (x, rest) => (t.read rest).map fun (_, rest) => (x, rest) := by
  change ((Function.const β <$> r) <*> t).read s = _
  simp only [read_seq, read_map]
  cases r.read s <;> rfl

theorem read_seqRight {r : Rule α} {t : Rule β} :
    (r *> t).read s = (r.read s).bind fun (_, rest) => t.read rest := by
  change ((Function.const α id <$> r) <*> t).read s = _
  simp only [read_seq, read_map]
  cases r.read s with
  | none => rfl
  | some p => simp

theorem read_append {r t : Rule (List α)} :
    (r ++ t).read s =
      (r.read s).bind fun (x, rest) => (t.read rest).map fun (y, rest) => (x ++ y, rest) := by
  change (((· ++ ·) <$> r) <*> t).read s = _
  simp only [read_seq, read_map]
  cases r.read s <;> rfl

theorem read_map_eq_some {f : α → β} {r : Rule α} :
    (f <$> r).read s = some (y, rest) ↔ ∃ x, r.read s = some (x, rest) ∧ f x = y := by
  simp [Option.map_eq_some_iff]

theorem read_seq_eq_some {f : Rule (α → β)} {r : Rule α} :
    (f <*> r).read s = some (y, rest) ↔
      ∃ g s' x, f.read s = some (g, s') ∧ r.read s' = some (x, rest) ∧ g x = y := by
  simp [Option.bind_eq_some_iff, Option.map_eq_some_iff]

theorem read_seqLeft_eq_some {r : Rule α} {t : Rule β} :
    (r <* t).read s = some (x, rest) ↔
      ∃ s' y, r.read s = some (x, s') ∧ t.read s' = some (y, rest) := by
  rw [read_seqLeft, Option.bind_eq_some_iff]
  constructor
  · rintro ⟨⟨x', s'⟩, hx, h⟩
    obtain ⟨⟨y, rest⟩, hy, heq⟩ := Option.map_eq_some_iff.1 h
    cases heq
    exact ⟨s', y, hx, hy⟩
  · rintro ⟨s', y, hx, hy⟩
    exact ⟨_, hx, Option.map_eq_some_iff.2 ⟨_, hy, rfl⟩⟩

theorem read_seqRight_eq_some {r : Rule α} {t : Rule β} :
    (r *> t).read s = some (y, rest) ↔
      ∃ x s', r.read s = some (x, s') ∧ t.read s' = some (y, rest) := by
  simp [read_seqRight, Option.bind_eq_some_iff]

theorem read_append_eq_some {r t : Rule (List α)} {l : List α} :
    (r ++ t).read s = some (l, rest) ↔
      ∃ k s' m, r.read s = some (k, s') ∧ t.read s' = some (m, rest) ∧ k ++ m = l := by
  simp [read_append, Option.bind_eq_some_iff, Option.map_eq_some_iff]

end Rule
end SourceLists.Grammar
