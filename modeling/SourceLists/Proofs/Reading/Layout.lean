import SourceLists.Proofs.Reading.Item

/-! Arguments in their layout: what stands between them, and how one of them is read. -/

namespace SourceLists.Grammar
open Rule

variable {s t u x rest : Text} {c : Char} {tok : Token} {a : Argument} {args more : List Argument}

theorem delimited_congr (h : s.head? = t.head?) : Delimited s ↔ Delimited t := by
  rw [Delimited, Delimited, h]

theorem settled_congr (h : s.head? = t.head?) : Settled s ↔ Settled t := by
  rw [Settled, Settled, h]

theorem head?_append_congr (h : s.head? = t.head?) : (u ++ s).head? = (u ++ t).head? := by
  rw [List.head?_append, List.head?_append, h]

namespace Argument

def texts (args : List Argument) : Text := args.flatMap text

@[simp] theorem texts_nil : texts [] = [] := rfl

@[simp] theorem texts_cons : texts (a :: args) = a.token.text ++ (a.gap ++ texts args) := by
  simp [texts, text]

@[simp] theorem texts_append : texts (args ++ more) = texts args ++ texts more := by
  simp [texts]

/-- The arguments are set apart from each other and from `rest`. -/
def Laid (rest : Text) : List Argument → Prop
  | [] => True
  | a :: args =>
    IsGap a.gap ∧ Delimited (a.gap ++ (texts args ++ rest)) ∧ Settled (texts args ++ rest) ∧
      Laid rest args

theorem laid_append :
    Laid rest (args ++ more) ↔ Laid (texts more ++ rest) args ∧ Laid rest more := by
  induction args with
  | nil => simp [Laid]
  | cons a args ih =>
    simp only [List.cons_append, Laid, texts_append, List.append_assoc, ih, and_assoc]

/-- Of what follows only the first character matters. -/
theorem laid_congr (h : s.head? = t.head?) : Laid s args ↔ Laid t args := by
  induction args with
  | nil => rfl
  | cons a args ih =>
    simp only [Laid]
    have hx := head?_append_congr (u := texts args) h
    rw [delimited_congr (head?_append_congr hx), settled_congr hx, ih]

/-- No argument begins with what belongs to the gap before it. -/
theorem Laid.settled_text (hlaid : Laid rest args) (hs : Settled (texts args ++ rest)) :
    ∀ a ∈ args, a.token.text ≠ [] → Settled a.token.text := by
  induction args with
  | nil => intro a ha; contradiction
  | cons a args ih =>
    obtain ⟨-, -, hsettled, hlaid⟩ := hlaid
    refine List.forall_mem_cons.2 ⟨?_, ih hlaid hsettled⟩
    intro hne
    rw [texts_cons, List.append_assoc] at hs
    exact (settled_append hne).1 hs

end Argument

open Argument

theorem argument_read_eq_some {r : Rule Token} :
    (argument r).read s = some (args, rest) ↔
      ∃ tok g s', r.read s = some (tok, s') ∧ gap.read s' = some (g, rest) ∧ args = [⟨tok, g⟩] := by
  rw [argument, read_seq_eq_some]
  constructor
  · rintro ⟨_, s', g, hfront, hg, rfl⟩
    obtain ⟨tok, htok, rfl⟩ := read_map_eq_some.1 hfront
    exact ⟨tok, g, s', htok, hg, rfl⟩
  · rintro ⟨tok, g, s', htok, hg, rfl⟩
    exact ⟨_, s', g, read_map_eq_some.2 ⟨tok, htok, rfl⟩, hg, rfl⟩

/-- A token with the gap behind it reads where the token reads. -/
theorem argument_read_eq_none {r : Rule Token} : (argument r).read s = none ↔ r.read s = none := by
  constructor
  · intro h
    rw [Option.eq_none_iff_forall_not_mem]
    rintro ⟨tok, s'⟩ htok
    have := argument_read_eq_some.2 ⟨tok, _, s', htok, rfl, rfl⟩
    rw [h] at this
    contradiction
  · intro h
    rw [Option.eq_none_iff_forall_not_mem]
    rintro ⟨x, s'⟩ hx
    obtain ⟨tok, g, s'', htok, -⟩ := argument_read_eq_some.1 hx
    rw [h] at htok
    contradiction

theorem argument_read_append {r : Rule Token}
    (h : r.read (a.token.text ++ (a.gap ++ rest)) = some (a.token, a.gap ++ rest))
    (hg : IsGap a.gap) (hs : Settled rest) :
    (argument r).read (a.token.text ++ (a.gap ++ rest)) = some ([a], rest) :=
  argument_read_eq_some.2 ⟨a.token, a.gap, a.gap ++ rest, h, gap_read_append hg hs, rfl⟩

theorem not_isBare_of_literalEnd (h : LiteralEnd (c :: s)) : ¬ isBare c := by
  intro hc
  have hread : literalPiece.read (c :: s) = some ([c], s) :=
    literalPiece_read_eq_some.2 (Or.inr ⟨c, hc, rfl, rfl⟩)
  rw [show literalPiece.read (c :: s) = none from h] at hread
  contradiction

/-- A gap that stands where a literal has ended begins with a blank. -/
theorem delimited_of_gap (hend : LiteralEnd s) (h : gap.read s = some (u, rest))
    (hr : u = [] → Delimited rest) : Delimited s := by
  have hs := gap_lossless h
  cases u with
  | nil => exact hs ▸ hr rfl
  | cons c u =>
    have hc : isBlank c ∨ c = '#' := by
      cases s with
      | nil => contradiction
      | cons d s =>
        simp only [gap, takeGap, Option.some.injEq] at h
        split at h
        · contradiction
        · split at h
          · next hd =>
            cases h
            simpa using hd
          · cases h
    subst hs
    have hnb := not_isBare_of_literalEnd hend
    rcases hc with hc | rfl
    · exact delimited_cons.2 (Or.inl hc)
    · exact absurd rfl hnb

theorem exactly_read_eq_some {word : Text} :
    (exactly word).read s = some (x, rest) ↔ x = word ∧ s = word ++ rest := by
  constructor
  · intro h
    have hx := exactly_read h
    exact ⟨hx, by rw [← Lossless.exactly h, hx]; rfl⟩
  · rintro ⟨rfl, rfl⟩
    induction x with
    | nil => rfl
    | cons c x ih =>
      simp [exactly, read_append, Rule.char, ih]

theorem oneOf_read {words : List Text} (h : (oneOf words).read s = some (x, rest)) :
    x ∈ words ∧ s = x ++ rest := by
  induction words with
  | nil => contradiction
  | cons word words ih =>
    rw [oneOf, read_orElse, Option.or_eq_some_iff] at h
    rcases h with h | ⟨-, h⟩
    · obtain ⟨rfl, hs⟩ := exactly_read_eq_some.1 h
      exact ⟨List.mem_cons_self, hs⟩
    · exact ⟨List.mem_cons_of_mem word (ih h).1, (ih h).2⟩

theorem keyword_read {name : RuleName} {words : List String}
    (h : (keyword name words).read s = some (tok, rest)) :
    ∃ w ∈ words.map String.toList, tok = .keyword w ∧ s = w ++ rest ∧ Delimited rest := by
  rw [keyword, read_map_eq_some] at h
  obtain ⟨w, hword, rfl⟩ := h
  rw [read_token, read_seqLeft_eq_some] at hword
  obtain ⟨s', _, hw, hend⟩ := hword
  obtain rfl := ahead_takesNothing hend
  exact ⟨_, (oneOf_read hw).1, rfl, (oneOf_read hw).2, delimited_of_ahead_itemEnd hend⟩

/-- No delimiter is left over behind a beginning of identifier characters. -/
def IsWhole (x : Text) : Prop :=
  ∀ w y, x = w ++ y → w ≠ [] → (∀ c ∈ w, isIdentifierChar c) → Delimited y → y = []

theorem not_delimited_append (h : u ≠ []) (hu : ∀ c ∈ u, isIdentifierChar c) :
    ¬ Delimited (u ++ s) := by
  obtain ⟨c, u, rfl⟩ := List.exists_cons_of_ne_nil h
  have hc := narrow_isIdentifierChar c (hu c List.mem_cons_self)
  intro hd
  rcases delimited_cons.1 hd with hb | hb
  · exact hc.1 hb
  · exact hc.2 hb

theorem isWhole_of_identifier (h : ∀ c ∈ x, isIdentifierChar c) : IsWhole x := by
  rintro w y rfl - - hy
  by_cases hne : y = []
  · exact hne
  · refine absurd ?_ (not_delimited_append (s := []) hne
      fun c hc => h c (List.mem_append_right w hc))
    rwa [List.append_nil]

theorem readAll_literalPiece_of_bare (h : readAll literalPiece (x ++ s) = (u, rest))
    (hx : ∀ c ∈ x, isBare c) : ∃ v, u = x ++ v ∧ readAll literalPiece s = (v, rest) := by
  induction x generalizing u with
  | nil => exact ⟨u, rfl, h⟩
  | cons c x ih =>
    have hc : literalPiece.read (c :: x ++ s) = some ([c], x ++ s) :=
      literalPiece_read_eq_some.2 (Or.inr ⟨c, hx c List.mem_cons_self, rfl, rfl⟩)
    rw [readAll_eq literalPiece_consumes, hc] at h
    obtain ⟨hu, hrest⟩ := Prod.mk.inj h
    obtain ⟨v, hv, hs⟩ := ih (u := (readAll literalPiece (x ++ s)).1)
      (by rw [← hrest]) (fun d hd => hx d (List.mem_cons_of_mem c hd))
    exact ⟨v, by rw [← hu, hv]; rfl, hs⟩

theorem isBare_of_isIdentifierChar (h : isIdentifierChar c) : isBare c := by
  have hn := narrow_isIdentifierChar c h
  have hq : c ≠ '"' := by rintro rfl; contradiction
  have ho : c ≠ '(' := by rintro rfl; contradiction
  simp_all [isBare]

theorem literalItem_of_isItem (h : (Token.literal x).IsItem) :
    literalItem.read x = some (.literal x, []) := by
  obtain ⟨-, hr | ⟨-, hr | ⟨-, hr⟩⟩⟩ := listItem_read_eq_some.1 h
  · obtain ⟨-, name, hn, -⟩ := variableForm_read hr
    contradiction
  · obtain ⟨-, name, hn, -⟩ := variableForm_read hr
    contradiction
  · exact hr

theorem readAll_of_isItem (h : (Token.literal x).IsItem) : readAll literalPiece x = (x, []) := by
  obtain ⟨z, hz, hp⟩ := literalItem_read_eq_some.1 (literalItem_of_isItem h)
  cases hz
  obtain ⟨p, q, s', hpiece, hq, hpq⟩ := plus_read_eq_some_append.1 hp
  have hall := readAll_of_read literalPiece_consumes hpiece hq
  rwa [← hpq] at hall

theorem isWhole_of_isItem (h : tok.IsItem) : IsWhole tok.text := by
  intro w y hx hw hid hy
  rcases h.literal_or_reference with ⟨x, rfl⟩ | ⟨quoted, name, rfl⟩
  · -- The identifier characters are parts of the literal, and so is what follows them.
    have hall : readAll literalPiece (w ++ y) = (w ++ y, []) := by
      rw [← show x = w ++ y from hx]
      exact readAll_of_isItem h
    obtain ⟨v, hv, hs⟩ := readAll_literalPiece_of_bare hall
      fun c hc => isBare_of_isIdentifierChar (hid c hc)
    rw [readAll_eq literalPiece_consumes, show literalPiece.read y = none from
      literalEnd_of_delimited hy] at hs
    exact (Prod.mk.inj hs).2
  · obtain ⟨c, w, rfl⟩ := List.exists_cons_of_ne_nil hw
    have hc := hid c List.mem_cons_self
    cases quoted with
    | false =>
      rw [← (List.cons.inj hx).1] at hc
      contradiction
    | true =>
      rw [← (List.cons.inj hx).1] at hc
      contradiction

/-- No word of the list begins another one. -/
def PrefixFree (words : List String) : Prop :=
  ∀ w ∈ words.map String.toList, ∀ w' ∈ words.map String.toList, w <+: w' → w = w'

instance (words : List String) : Decidable (PrefixFree words) :=
  inferInstanceAs (Decidable
    (∀ w ∈ words.map String.toList, ∀ w' ∈ words.map String.toList, w <+: w' → w = w'))

theorem oneOf_read_append {words : List Text} (hx : x ∈ words)
    (hp : ∀ w ∈ words, w <+: x → w = x) (hid : ∀ w ∈ words, ∀ c ∈ w, isIdentifierChar c)
    (ht : Delimited rest) : (oneOf words).read (x ++ rest) = some (x, rest) := by
  induction words with
  | nil => contradiction
  | cons w words ih =>
    rw [oneOf, read_orElse]
    by_cases hwx : w = x
    · rw [exactly_read_eq_some.2 ⟨hwx.symm, by rw [hwx]⟩]
      rfl
    · have hnone : (exactly w).read (x ++ rest) = none := by
        rw [Option.eq_none_iff_forall_not_mem]
        rintro ⟨y, r⟩ hy
        obtain ⟨-, heq⟩ := exactly_read_eq_some.1 hy
        rcases List.append_eq_append_iff.1 heq with ⟨z, hz, hrest⟩ | ⟨z, hz, -⟩
        · by_cases hnil : z = []
          · exact hwx (by rw [hz, hnil, List.append_nil])
          · refine not_delimited_append (s := r) hnil (fun c hc => ?_) (hrest ▸ ht)
            exact hid w List.mem_cons_self c (hz ▸ List.mem_append_right x hc)
        · exact hwx (hp w List.mem_cons_self ⟨z, hz.symm⟩)
      rw [hnone, Option.none_or]
      refine ih ?_ (fun w' hw' => hp w' (List.mem_cons_of_mem w hw'))
        fun w' hw' => hid w' (List.mem_cons_of_mem w hw')
      rcases List.mem_cons.1 hx with h | h
      · exact absurd h.symm hwx
      · exact h

theorem keyword_read_append {name : RuleName} {words : List String} (hw : PlainWords words)
    (hp : PrefixFree words) (hx : x ∈ words.map String.toList) (ht : Delimited rest) :
    (keyword name words).read (x ++ rest) = some (.keyword x, rest) := by
  have hone := oneOf_read_append hx (fun w hw' => hp w hw' x hx) (fun w hw' => (hw w hw').2) ht
  simp [keyword, read_seqLeft, hone, ahead_itemEnd_read ht]

/-- A whole token that is not one of the words is not taken for one. -/
theorem keyword_read_eq_none {name : RuleName} {words : List String} (hw : PlainWords words)
    (hx : x ∉ words.map String.toList) (hwhole : IsWhole x) (ht : Delimited rest) :
    (keyword name words).read (x ++ rest) = none := by
  rw [Option.eq_none_iff_forall_not_mem]
  rintro ⟨tok, r⟩ htok
  obtain ⟨w, hmem, -, heq, hr⟩ := keyword_read htok
  rcases List.append_eq_append_iff.1 heq with ⟨z, hz, hrest⟩ | ⟨z, hz, hrest⟩
  · by_cases hnil : z = []
    · rw [hnil, List.append_nil] at hz
      exact hx (hz ▸ hmem)
    · exact not_delimited_append (s := r) hnil
        (fun c hc => (hw w hmem).2 c (hz ▸ List.mem_append_right x hc)) (hrest ▸ ht)
  · have hnil : z = [] := by
      by_cases hnil : z = []
      · exact hnil
      · refine hwhole w z hz (hw w hmem).1 (hw w hmem).2 ?_
        obtain ⟨c, z, rfl⟩ := List.exists_cons_of_ne_nil hnil
        rw [hrest] at hr
        exact delimited_cons.2 (delimited_cons.1 hr)
    rw [hnil, List.append_nil] at hz
    exact hx (hz ▸ hmem)

end SourceLists.Grammar
