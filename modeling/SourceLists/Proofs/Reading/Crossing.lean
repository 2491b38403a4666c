import SourceLists.Proofs.Reading.Cut
import SourceLists.Proofs.Reading.Following
import SourceLists.Proofs.Reading.Head
import SourceLists.Proofs.Reading.Payload

/-! A statement that is read across an inserted item is read without it, too. -/

namespace SourceLists.Grammar
open Rule Argument

variable {s t u v x g rest rest' : Text} {kind : Option Kind} {args front more : List Argument}
  {a : Argument} {j : Invocation}

/-- A text ends in an item, behind which the list of a statement is closed. -/
structure Place (u v : Text) : Prop where
  edge : EndsInEdge u
  opened : '(' ∈ u
  unscoped : ∀ y c, ∀ w ∈ ["PRIVATE", "PUBLIC", "INTERFACE"].map String.toList, isBlank c →
    u ≠ y ++ c :: w
  closed : ∃ g tail rest, v = g ++ (texts tail ++ ')' :: rest) ∧ IsGap g ∧ Delimited v ∧
    Settled (texts tail ++ ')' :: rest) ∧ Laid (')' :: rest) tail ∧
    (tail = [] ∨ ∃ p, tail = [p] ∧ p.token = .keyword "PARENT_SCOPE".toList)

theorem Place.delimited (h : Place u v) : Delimited v := by
  obtain ⟨g, tail, rest, -, -, hd, -⟩ := h.closed
  exact hd

theorem delimited_space : Delimited (' ' :: s) := delimited_cons.2 (Or.inl (by decide))

/-- Of the arguments behind a place in a list only their beginning matters in front of it. -/
theorem laid_replace (h : Laid rest (front ++ args))
    (hhead : (texts args ++ rest).head? = (texts more ++ rest').head?) (hmore : Laid rest' more) :
    Laid rest' (front ++ more) := by
  obtain ⟨hfront, -⟩ := laid_append.1 h
  exact laid_append.2 ⟨(laid_congr hhead).1 hfront, hmore⟩

theorem head?_append_of_ne_nil {z : Text} (h : z ≠ []) : (z ++ s).head? = (z ++ t).head? := by
  obtain ⟨c, z, rfl⟩ := List.exists_cons_of_ne_nil h
  rfl

theorem head?_texts {b : Argument} (ha : a.token.text ≠ []) (hb : b.token.text = a.token.text) :
    (texts (a :: args) ++ s).head? = (texts (b :: more) ++ t).head? := by
  simp only [texts_cons, hb, List.append_assoc]
  exact head?_append_of_ne_nil ha

theorem gap_of_read {g' t' : Text} (hg : IsGap g) (ht : Settled t) (hg' : IsGap g')
    (ht' : Settled t') (h : g ++ t = g' ++ t') : g = g' ∧ t = t' := by
  have hread := gap_read_append hg ht
  rw [h, gap_read_append hg' ht'] at hread
  obtain ⟨h₁, h₂⟩ := Prod.mk.inj (Option.some.inj hread)
  exact ⟨h₁.symm, h₂.symm⟩

/-- A blank stands right before every argument but the first. -/
theorem exists_blank {b : Argument} (hlaid : Laid rest (front ++ b :: a :: more))
    (ha : a.token.Sound) :
    ∃ y c, b.gap = y ++ [c] ∧ isBlank c := by
  have hlaid' := hlaid.of_append
  obtain ⟨y, c, hy⟩ := (List.eq_nil_or_concat' _).resolve_left (gap_ne_nil hlaid' ha)
  exact ⟨y, c, hy, isBlank_of_mem_getLast? hlaid'.1 (by simp [hy])⟩

/-- Arguments stand here, and the parenthesis behind them. -/
def ArgumentsAt (kind : Option Kind) (s : Text) : Prop :=
  ∃ args rest, s = texts args ++ ')' :: rest ∧ Laid (')' :: rest) args ∧
    Accepts kind (args.map Argument.token)

/-- An item behind which the text is cut ends the list, as the one does that stands there. -/
theorem arguments_behind (hp : Place u v) (hlaid : Laid rest (front ++ a :: more))
    (haccepts : Accepts kind ((front ++ a :: more).map Argument.token)) (ha : a.token.IsItem)
    (hfirst : kind = some .set → a.token = .literal "PARENT_SCOPE".toList → front ≠ []) :
    ArgumentsAt kind (texts front ++ (a.token.text ++ v)) := by
  obtain ⟨g, tail, rest', rfl, hg, hd, hsettled, htail, hshape⟩ := hp.closed
  rw [List.map_append, List.map_cons] at haccepts
  -- With its tokens taken as they are accepted, the tail is laid out as before.
  have hbuild : ∀ tok toks, tok.text = a.token.text →
      toks.map Argument.text = tail.map Argument.text →
      Laid (')' :: rest') toks →
        Accepts kind (front.map Argument.token ++ tok :: toks.map Argument.token) →
      ArgumentsAt kind (texts front ++ (a.token.text ++ (g ++ (texts tail ++ ')' :: rest')))) := by
    intro tok toks htok htoks hlaid' haccepts'
    have htexts : texts toks = texts tail := by
      rw [texts, texts, List.flatMap_def, List.flatMap_def, htoks]
    refine ⟨front ++ ⟨tok, g⟩ :: toks, rest', by simp [htok, htexts], ?_, by simpa using haccepts'⟩
    exact laid_replace hlaid (head?_texts ha.ne_nil htok)
      ⟨hg, by rwa [htexts], by rwa [htexts], hlaid'⟩
  rcases hshape with rfl | ⟨p, rfl, hp'⟩
  · obtain ⟨tok, toks, htok, htoks, haccepts'⟩ :=
      accepts_of_cut haccepts ha (by simpa using hfirst) isItem_parentScope [] (Or.inl rfl)
    obtain rfl := List.map_eq_nil_iff.1 htoks
    exact hbuild tok [] htok rfl trivial haccepts'
  · obtain ⟨tok, toks, htok, htoks, haccepts'⟩ := accepts_of_cut haccepts ha (by simpa using hfirst)
      isItem_parentScope [p.token] (Or.inr (by rw [hp']))
    obtain ⟨q, rfl, hq⟩ := List.map_eq_singleton_iff.1 htoks
    exact hbuild tok [⟨q, p.gap⟩] htok (by simp [Argument.text, hq]) htail haccepts'

/-- Only literals have blanks in them. -/
theorem literal_of_isBlank {tok : Token} {c : Char} (h : tok.Sound) (hblank : isBlank c)
    (hc : c ∈ tok.text) : tok = .literal tok.text ∧ (Token.literal tok.text).IsItem := by
  rcases h with hi | ⟨w, rfl, -, hid⟩
  · rcases hi.literal_or_reference with ⟨x, rfl⟩ | ⟨quoted, name, rfl⟩
    · exact ⟨rfl, hi⟩
    · have hname : c ∉ name := fun h =>
        (narrow_isIdentifierChar c (identifier_of_reference hi c h)).1 hblank
      have hmarks : c ≠ '$' ∧ c ≠ '\x7b' ∧ c ≠ '\x7d' ∧ c ≠ '"' := by
        refine ⟨?_, ?_, ?_, ?_⟩ <;> rintro rfl <;> contradiction
      cases quoted <;> simp [Token.text, Token.referenceText, hname, hmarks] at hc
  · exact absurd hblank (narrow_isIdentifierChar c (hid c hc)).1

/-- What is put in behind an item begins with its space. -/
theorem gap_of_insert (hx : Payload x) (hg : IsGap a.gap) (hs : Settled (texts args ++ rest))
    (h : (' ' :: x) ++ v = a.gap ++ (texts args ++ rest)) :
    a.gap = [' '] ∧ texts args ++ rest = x ++ v := by
  have hx' : Settled (x ++ v) := (settled_append hx.item.ne_nil).2 hx.settled
  have hspace : IsGap [' '] := rfl
  obtain ⟨hgap, htexts⟩ := gap_of_read hg hs hspace hx' h.symm
  exact ⟨hgap, htexts⟩

section crossing
variable (hx : Payload x) (hlaid : Laid (')' :: rest) (front ++ a :: more))
  (haccepts : Accepts kind ((front ++ a :: more).map Argument.token))
include hx hlaid haccepts

/-- In a gap an insertion is a part of a comment. -/
theorem argumentsAt_of_gap {g' : Text} (hg : a.gap = g ++ g') (hg' : g' ≠ []) (hedge : EndsInEdge g)
    (hs : (' ' :: x) ++ v = g' ++ (texts more ++ ')' :: rest)) :
    ArgumentsAt kind (texts front ++ (a.token.text ++ g) ++ v) := by
  have hsound := sound_of_accepts haccepts
  obtain ⟨hgap, hd, hsettled, hmore⟩ := (laid_append.1 hlaid).2
  rw [hg] at hgap hd
  obtain ⟨g'', rfl, rfl, hgap'⟩ := gap_cut hgap hg' hedge hs hx.bare
  refine ⟨front ++ ⟨a.token, g ++ g''⟩ :: more, rest, by simp, ?_, by simpa using haccepts⟩
  refine laid_replace hlaid (head?_texts (hsound a.token (by simp)).ne_nil rfl)
    ⟨hgap', ?_, hsettled, hmore⟩
  rw [List.append_assoc] at hd ⊢
  exact (delimited_congr (head?_append_of_ne_nil hedge.ne_nil)).1 hd

/-- In a token an insertion is in quotes, which are closed behind it. -/
theorem argumentsAt_of_token {y z : Text} (hy : y ≠ []) (hz : z ≠ [])
    (htoken : a.token.text = y ++ z)
    (hs : (' ' :: x) ++ v = z ++ (a.gap ++ (texts more ++ ')' :: rest))) (hd : Delimited v) :
    ArgumentsAt kind (texts front ++ y ++ v) := by
  have hsound := sound_of_accepts haccepts
  obtain ⟨-, hgap, hsettled, hmore⟩ := (laid_append.1 hlaid).2
  obtain ⟨z', rfl⟩ : ∃ z', z = ' ' :: z' := by
    obtain ⟨c, z', rfl⟩ := List.exists_cons_of_ne_nil hz
    exact ⟨z', by rw [(List.cons.inj hs).1]⟩
  have hspace : ' ' ∈ a.token.text := by simp [htoken]
  obtain ⟨hitem, hi⟩ := literal_of_isBlank (hsound a.token (by simp)) (by decide) hspace
  rw [htoken] at hitem hi
  have hquote := quote_of_isItem hi (by unfold IsEdge; decide)
  have hclean : '"' ∉ ' ' :: x := by
    intro hmem
    rcases List.mem_cons.1 hmem with h | h
    · contradiction
    · exact absurd (hx.bare _ h) (by decide)
  obtain ⟨z'', rfl, rfl⟩ : ∃ z'', z' = x ++ z'' ∧
      v = z'' ++ (a.gap ++ (texts more ++ ')' :: rest)) := by
    rcases List.append_eq_append_iff.1 (List.cons.inj hs).2 with h | ⟨e, rfl, -⟩
    · exact h
    · exact absurd (List.mem_cons_of_mem ' ' (List.mem_append_left e hquote)) hclean
  have hquote' : '"' ∈ z'' := by
    rcases List.mem_append.1 hquote with h | h
    · exact absurd (List.mem_cons_of_mem ' ' h) hclean
    · exact h
  have hz'' : Delimited z'' := by
    obtain ⟨c, z, rfl⟩ := List.exists_cons_of_ne_nil (List.ne_nil_of_mem hquote')
    exact delimited_cons.2 (delimited_cons.1 hd)
  have hi' : (Token.literal (y ++ z'')).IsItem :=
    isItem_of_skip (w := ' ' :: x) hi hclean delimited_space hz'' (by simp)
  refine ⟨front ++ ⟨.literal (y ++ z''), a.gap⟩ :: more, rest, by simp [Token.text], ?_, ?_⟩
  · refine laid_replace hlaid ?_ ⟨hlaid.of_append.1, hgap, hsettled, hmore⟩
    have htexts : ∀ r, texts (a :: more) ++ r =
        y ++ (' ' :: (x ++ z'') ++ (a.gap ++ (texts more ++ r))) := by
      intro r
      rw [texts_cons, htoken]
      simp
    rw [htexts, texts_cons, Token.text]
    simp only [List.append_assoc]
    exact head?_append_of_ne_nil hy
  · rw [List.map_append, List.map_cons, hitem] at haccepts
    rw [List.map_append, List.map_cons]
    exact accepts_of_quoted haccepts hi hi' (by simp [Token.text, hquote'])
      (by simp [Token.text, hquote'])

omit hx in
/-- Where a list can be closed behind a flag, there are only flags before that one, or it is the
last. -/
theorem flags_of_place {w : Text} (hp : Place (t ++ (texts front ++ w)) v)
    (hw : a.token = .keyword w) (hne : more ≠ []) : ∀ b ∈ front, b.token.IsKeyword := by
  have hsound := sound_of_accepts haccepts
  rw [List.map_append, List.map_cons, hw] at haccepts
  rcases flags_of_accepts haccepts (by simpa using hne) with h | hscope
  · exact fun b hb => h _ (List.mem_map_of_mem hb)
  · -- The scope would stand behind a blank.
    by_cases hfront : front = []
    · simp [hfront]
    · obtain ⟨f, b, rfl⟩ := (List.eq_nil_or_concat' _).resolve_left hfront
      rw [List.append_assoc] at hlaid
      obtain ⟨y, c, hy, hblank⟩ := exists_blank hlaid (hsound a.token (by simp))
      refine absurd ?_ (hp.unscoped (t ++ texts f ++ b.token.text ++ y) c w hscope hblank)
      simp [hy]

/-- Behind a token an insertion is the next item, in the place of which the list can end. -/
theorem argumentsAt_of_behind (hp : Place (t ++ (texts front ++ a.token.text)) v)
    (hs : (' ' :: x) ++ v = a.gap ++ (texts more ++ ')' :: rest))
    (hflags : kind ≠ none → (∀ b ∈ front, b.token.IsKeyword) →
      ¬ ∀ c ∈ a.token.text, isIdentifierChar c) :
    ArgumentsAt kind (texts front ++ a.token.text ++ v) := by
  obtain ⟨hgap, -, hsettled, -⟩ := (laid_append.1 hlaid).2
  obtain ⟨-, htexts⟩ := gap_of_insert hx hgap hsettled hs
  have hne : more ≠ [] := by
    rintro rfl
    obtain ⟨c, x, rfl⟩ := List.exists_cons_of_ne_nil hx.item.ne_nil
    have hc := hx.bare c List.mem_cons_self
    rw [← (List.cons.inj htexts).1] at hc
    contradiction
  rcases sound_of_accepts haccepts a.token (by simp) with hi | ⟨w, hw, -, hid⟩
  · rw [List.append_assoc]
    apply arguments_behind hp hlaid haccepts hi
    rintro rfl hword rfl
    refine hflags (by simp) (by simp) ?_
    rw [hword]
    decide
  · have hkind : kind ≠ none := by
      rintro rfl
      exact absurd hw (haccepts a.token (by simp)).ne_keyword
    have htext : a.token.text = w := by rw [hw]; rfl
    rw [htext] at hp hflags
    exact absurd hid (hflags hkind (flags_of_place hlaid haccepts hp hw hne))

end crossing

/-- A list that is read across an insertion is read without it, if no flag ends there. -/
theorem arguments_crossing (hp : Place (t ++ u) v) (hu : EndsInEdge u) (hx : Payload x)
    (htext : u ++ ((' ' :: x) ++ v) = texts args ++ ')' :: rest) (hlaid : Laid (')' :: rest) args)
    (haccepts : Accepts kind (args.map Argument.token))
    (hflags : kind ≠ none → ∀ front a more, args = front ++ a :: more →
      u = texts front ++ a.token.text → (∀ b ∈ front, b.token.IsKeyword) →
      ¬ ∀ c ∈ a.token.text, isIdentifierChar c) : ArgumentsAt kind (u ++ v) := by
  cases cut_cases hlaid htext hu with
  | behind u' hu hrest =>
    exact ⟨args, u' ++ v, by simp [hu], (laid_congr (by rfl)).1 hlaid, haccepts⟩
  | inGap front a more g g' hargs hu hg hg' hedge hs =>
    subst hargs hu
    exact argumentsAt_of_gap hx hlaid haccepts hg hg' hedge hs
  | inToken front a more y z hargs hu hy hz htoken hs =>
    subst hargs hu
    exact argumentsAt_of_token hx hlaid haccepts hy hz htoken hs hp.delimited
  | behindToken front a more hargs hu hs =>
    subst hargs hu
    exact argumentsAt_of_behind hx hlaid haccepts hp hs fun hkind =>
      hflags hkind front a more rfl rfl

theorem Argument.Laid.isGap (h : Laid rest args) : ∀ a ∈ args, IsGap a.gap := by
  induction args with
  | nil => simp
  | cons a args ih =>
    intro b hb
    rcases List.mem_cons.1 hb with rfl | hb
    · exact h.1
    · exact ih h.2.2.2 b hb

/-- The name of an environment variable that is open across the insertion. -/
theorem envName_cut {name z b : Text} (h : envName.read (name ++ s) = some (name, s))
    (hname : name = u ++ z) (hz : z ≠ []) (hs : (' ' :: x) ++ v = z ++ b)
    (hbrace : '\x7d' ∈ x → ∀ y, u = "ENV\x7b".toList ++ y → '\x7d' ∈ y) :
    ∃ z', v = z' ++ b ∧ ∀ t, envName.read (u ++ (z' ++ t)) = some (u ++ z', t) := by
  obtain ⟨-, y, hy, hchars⟩ := envName_read_eq_some.1 h
  rw [hname, List.append_assoc] at hy
  rcases append_cases hy with ⟨u', hu, hz'⟩ | ⟨a, ha, henv, hz'⟩
  · -- The brace that closes the name closes what is behind the insertion.
    obtain ⟨z₀, c, rfl⟩ := (List.eq_nil_or_concat' _).resolve_left hz
    rw [← List.append_assoc] at hz'
    obtain ⟨rfl, hc⟩ := List.append_inj' hz' rfl
    obtain rfl := (List.cons.inj hc).1
    have hclean : '\x7d' ∉ ' ' :: x := by
      intro hmem
      have hmem' : '\x7d' ∈ x := by simpa using hmem
      exact (hchars _ (List.mem_append_left z₀ (hbrace hmem' u' hu))).1 rfl
    rcases List.append_eq_append_iff.1 hs with ⟨z', hz', hv⟩ | ⟨e, he, -⟩
    · have hne : z' ≠ [] := by
        rintro rfl
        rw [List.append_nil] at hz'
        exact hclean (by simp [← hz'])
      obtain ⟨z'', d, rfl⟩ := (List.eq_nil_or_concat' _).resolve_left hne
      rw [← List.append_assoc] at hz'
      obtain ⟨rfl, hd⟩ := List.append_inj' hz' rfl
      obtain rfl := (List.cons.inj hd).1
      refine ⟨z'' ++ ['\x7d'], hv, fun t => envName_read_eq_some.2 ⟨by simp, u' ++ z'', ?_, ?_⟩⟩
      · simp [hu]
      · intro c hc
        apply hchars c
        rcases List.mem_append.1 hc with hc | hc
        · exact List.mem_append_left _ hc
        · exact List.mem_append_right u' (List.mem_append_right _ hc)
    · exact absurd (by simp [he]) hclean
  · -- The insertion does not begin in the word that opens the name.
    obtain ⟨c, a, rfl⟩ := List.exists_cons_of_ne_nil ha
    rw [hz'] at hs
    have hc : c ∈ "ENV\x7b".toList := by simp [henv]
    rw [← (List.cons.inj hs).1] at hc
    contradiction

/-- A name that is open across the insertion is that of an environment variable. -/
theorem name_cut {name z b : Text} (h : (nameRule kind).read (name ++ s) = some (name, s))
    (hname : name = u ++ z) (hz : z ≠ []) (hs : (' ' :: x) ++ v = z ++ b)
    (hbrace : kind = none → '\x7d' ∈ x → ∀ y, u = "ENV\x7b".toList ++ y → '\x7d' ∈ y) :
    ∃ z', v = z' ++ b ∧ ∀ t, (nameRule kind).read (u ++ (z' ++ t)) = some (u ++ z', t) := by
  cases kind with
  | none => exact envName_cut h hname hz hs (hbrace rfl)
  | some kind =>
    obtain ⟨c, z, rfl⟩ := List.exists_cons_of_ne_nil hz
    obtain rfl := (List.cons.inj hs).1
    exact absurd rfl (isNamePart_of_declaredName h ' ' (by simp [hname])).ne_space

/-- A list and its closing parenthesis stand here. -/
def ListAt (kind : Option Kind) (s : Text) : Prop :=
  ∃ g args rest, s = g ++ (texts args ++ ')' :: rest) ∧ IsGap g ∧
    Settled (texts args ++ ')' :: rest) ∧ Laid (')' :: rest) args ∧
    Accepts kind (args.map Argument.token)

/-- A name stands here, and the list behind it. -/
def NameAt (kind : Option Kind) (s : Text) : Prop :=
  ∃ g name s', s = g ++ (name ++ s') ∧ IsGap g ∧
    (nameRule kind).read (name ++ s') = some (name, s') ∧ ListAt kind s'

theorem isSome_alternative_iff :
    ((alternative kind).read s).isSome ↔ ∃ word g s', s = word ++ (g ++ '(' :: s') ∧
      word.map Char.toLower = command kind ∧ IsGap g ∧ NameAt kind s' := by
  rw [Option.isSome_iff_exists]
  constructor
  · rintro ⟨⟨i, rest⟩, h⟩
    obtain ⟨rfl, rfl, hwf⟩ := alternative_read_eq_some.1 h
    exact ⟨i.word, i.beforeParen, _, Invocation.text_append, hwf.word, hwf.beforeParen,
      i.beforeName, i.name, _, rfl, hwf.beforeName, nameRule_close [] rest hwf.name, i.afterName,
      i.arguments, rest, rfl, hwf.afterName, settled_close_congr hwf.settled,
      (laid_congr (by rfl)).1 hwf.laid, hwf.accepts⟩
  · rintro ⟨word, g₁, _, rfl, hword, hg₁, g₂, name, _, rfl, hg₂, hname, g₃, args, rest,
      rfl, hg₃, hs, hlaid, haccepts⟩
    exact ⟨_, alternative_read_of_parts hword hg₁ hg₂ hname hg₃ hs hlaid haccepts⟩

open HeadState in
theorem run_inside_flags {w : Text} (hg : IsGap g) (hlaid : Laid rest (front ++ a :: more))
    (hsound : ∀ tok ∈ (front ++ a :: more).map Argument.token, tok.Sound)
    (hfront : ∀ b ∈ front, b.token.IsKeyword) (hw : ∀ c ∈ w, isIdentifierChar c) :
    (inside false).run (g ++ (texts front ++ w)) = some (inside false) := by
  have hquiet : ∀ b ∈ front, ∀ c ∈ b.token.text, IsQuiet c := by
    intro b hb c hc
    obtain ⟨w', hw'⟩ := hfront b hb
    rcases hsound b.token (by simp [List.mem_map_of_mem hb]) with hi | ⟨w'', hw'', -, hid⟩
    · exact absurd hw' hi.ne_keyword
    · rw [hw''] at hc
      exact isQuiet_of_isIdentifierChar (hid c hc)
  rw [run_append, run_inside hg, Option.bind_some, run_append,
    run_flags (laid_append.1 hlaid).1.isGap hquiet, Option.bind_some,
    run_quiet fun c hc => isQuiet_of_isIdentifierChar (hw c hc)]

theorem listAt_of_crossing (hp : Place (t ++ u) v) (hu : EndsInEdge u) (hx : Payload x)
    (hrun : kind ≠ none → (HeadState.inside false).run u = none)
    (h : ListAt kind (u ++ ((' ' :: x) ++ v))) : ListAt kind (u ++ v) := by
  obtain ⟨g, args, rest, htext, hg, hs, hlaid, haccepts⟩ := h
  rcases append_cases htext with ⟨u', rfl, h'⟩ | ⟨a, ha, hgap, hv⟩
  · have hne : u' ≠ [] := by
      rintro rfl
      rw [List.append_nil] at hu
      exact hu.not_isGap hg
    have hflags : kind ≠ none → ∀ front a more, args = front ++ a :: more →
        u' = texts front ++ a.token.text → (∀ b ∈ front, b.token.IsKeyword) →
        ¬ ∀ c ∈ a.token.text, isIdentifierChar c := by
      rintro hkind front a more rfl rfl hfront hid
      rw [run_inside_flags hg hlaid (sound_of_accepts haccepts) hfront hid] at hrun
      exact absurd (hrun hkind) (by simp)
    obtain ⟨args', rest', htext', hlaid', haccepts'⟩ :=
      arguments_crossing (t := t ++ g) (by rwa [List.append_assoc]) (hu.of_append hne) hx h'.symm
        hlaid haccepts hflags
    refine ⟨g, args', rest', by rw [List.append_assoc, htext'], hg, ?_, hlaid', haccepts'⟩
    rw [h', settled_append hne] at hs
    rw [← htext', settled_append hne]
    exact hs
  · obtain ⟨a', -, rfl, hgap'⟩ := gap_cut (hgap ▸ hg) ha hu hv hx.bare
    exact ⟨u ++ a', args, rest, by rw [List.append_assoc], hgap', hs, hlaid, haccepts⟩

/-- What closes the list of the statement is a list of its own. -/
theorem Place.listAt (hp : Place u v) : ListAt none v := by
  obtain ⟨g, tail, rest, rfl, hg, -, hs, hlaid, rfl | ⟨p, rfl, htoken⟩⟩ := hp.closed
  · exact ⟨g, [], rest, rfl, hg, hs, hlaid, by simp [Accepts]⟩
  · have htext : p.token.text = "PARENT_SCOPE".toList := by
      rw [htoken]
      rfl
    refine ⟨g, [⟨.literal "PARENT_SCOPE".toList, p.gap⟩], rest, ?_, hg, ?_, hlaid, ?_⟩
    · rw [texts_cons, texts_cons, htext]
      rfl
    · exact settled_cons.2 (by decide)
    · simpa [Accepts] using isItem_parentScope

open HeadState in
theorem run_inside_name {name : Text} {k : Kind} (hg : IsGap g)
    (hname : (nameRule (some k)).read (name ++ s) = some (name, s)) :
    (inside false).run (g ++ (name ++ t)) = (inside false).run t := by
  rw [run_append, run_inside hg, Option.bind_some, run_append,
    run_quiet (isQuiet_of_declaredName hname), Option.bind_some]

theorem nameAt_of_crossing (hp : Place (t ++ u) v) (hu : EndsInEdge u) (hx : Payload x)
    (hrun : kind ≠ none → (HeadState.inside false).run u = none)
    (hbrace : kind = none → '\x7d' ∈ x → ∀ g y, IsGap g → u = g ++ ("ENV\x7b".toList ++ y) →
      '\x7d' ∈ y)
    (h : NameAt kind (u ++ ((' ' :: x) ++ v))) : NameAt kind (u ++ v) := by
  obtain ⟨g, name, s, htext, hg, hname, hlist⟩ := h
  rcases append_cases htext with ⟨u', rfl, h'⟩ | ⟨a, ha, hgap, hv⟩
  swap
  · obtain ⟨a', -, rfl, hgap'⟩ := gap_cut (hgap ▸ hg) ha hu hv hx.bare
    exact ⟨u ++ a', name, s, by rw [List.append_assoc], hgap', hname, hlist⟩
  have hne : u' ≠ [] := by
    rintro rfl
    rw [List.append_nil] at hu
    exact hu.not_isGap hg
  rcases append_cases h'.symm with ⟨u'', rfl, rfl⟩ | ⟨z, hz, hname', hv⟩
  swap
  · obtain ⟨z', rfl, hread⟩ := name_cut hname hname' hz hv
      fun hkind hmem y hy => hbrace hkind hmem g y hg (by rw [hy])
    exact ⟨g, u' ++ z', s, by simp, hg, by simpa using hread s, hlist⟩
  have hread : (nameRule kind).read (name ++ (u'' ++ v)) = some (name, u'' ++ v) :=
    nameRule_congr hname delimited_space hp.delimited
  by_cases hnil : u'' = []
  · -- The name ends where the item does.
    subst hnil
    cases kind with
    | none => exact ⟨g, name, v, by simp, hg, by simpa using hread, hp.listAt⟩
    | some kind =>
      have hrun' := hrun (by simp)
      rw [run_inside_name hg hname] at hrun'
      contradiction
  · have hu'' : EndsInEdge u'' := by
      rw [← List.append_assoc] at hu
      exact hu.of_append hnil
    refine ⟨g, name, u'' ++ v, by simp, hg, hread, ?_⟩
    refine listAt_of_crossing (t := t ++ g ++ name) (by simpa using hp) hu'' hx ?_ hlist
    intro hkind
    obtain ⟨k, rfl⟩ := Option.ne_none_iff_exists'.1 hkind
    rw [← run_inside_name hg hname]
    exact hrun hkind

/-- A word and a parenthesis, with the gaps behind them. -/
def IsOpening (s : Text) : Prop :=
  ∃ word g g', s = word ++ (g ++ '(' :: g') ∧ (∀ c ∈ word, isIdentifierChar c) ∧ IsGap g ∧ IsGap g'

theorem IsOpening.isHead (h : IsOpening s) : IsHead s := by
  obtain ⟨word, g, g', rfl, hid, hg, hg'⟩ := h
  rw [IsHead, HeadState.run_open hid hg, HeadState.run_inside hg']
  rfl

/-- A statement that is read across an insertion is read without it, if its beginning has ended
before. -/
theorem isSome_of_crossing (hp : Place u v) (hx : Payload x) (hhead : kind ≠ none → ¬ IsHead u)
    (hbrace : kind = none → '\x7d' ∈ x → ∀ r y, u = r ++ ("ENV\x7b".toList ++ y) → IsOpening r →
      '\x7d' ∈ y)
    (h : ((alternative kind).read (u ++ ((' ' :: x) ++ v))).isSome) :
    ((alternative kind).read (u ++ v)).isSome := by
  rw [isSome_alternative_iff] at h ⊢
  obtain ⟨word, g, s, htext, hword, hg, hname⟩ := h
  have hid := isIdentifierChar_of_command hword
  have hopened : '(' ∉ word := fun h => absurd (hid _ h) (by decide)
  rcases append_cases htext with ⟨u₁, rfl, h₁⟩ | ⟨a, -, ha, -⟩
  swap
  · exact absurd (by simp [ha, hp.opened]) hopened
  have hne₁ : u₁ ≠ [] := by
    rintro rfl
    exact hopened (by simpa using hp.opened)
  have hedge₁ := hp.edge.of_append hne₁
  rcases append_cases h₁.symm with ⟨u₂, rfl, h₂⟩ | ⟨a, ha, hgap, hv⟩
  swap
  · obtain ⟨a', -, rfl, hgap'⟩ := gap_cut (hgap ▸ hg) ha hedge₁ hv hx.bare
    exact ⟨word, u₁ ++ a', s, by simp, hword, hgap', hname⟩
  obtain ⟨u₃, rfl⟩ : ∃ u₃, u₂ = '(' :: u₃ := by
    cases u₂ with
    | nil => exact absurd (List.cons.inj h₂).1 (by decide)
    | cons c u₃ => exact ⟨u₃, by rw [(List.cons.inj h₂).1]⟩
  obtain rfl := (List.cons.inj h₂).2
  have hedge₂ : EndsInEdge ('(' :: u₃) := hedge₁.of_append (List.cons_ne_nil _ _)
  have hne₃ : u₃ ≠ [] := by
    rintro rfl
    obtain ⟨y, c, hy, hc⟩ := hedge₂
    cases y with
    | nil => exact hc.ne_open (List.cons.inj hy).1.symm
    | cons d y => simp at hy
  have hedge₃ : EndsInEdge u₃ := EndsInEdge.of_append (a := ['(']) hedge₂ hne₃
  refine ⟨word, g, u₃ ++ v, by simp, hword, hg, ?_⟩
  refine nameAt_of_crossing (t := word ++ (g ++ ['('])) (by simpa using hp) hedge₃ hx ?_ ?_ hname
  · intro hkind
    have hhead' := hhead hkind
    rw [IsHead, HeadState.run_open hid hg] at hhead'
    exact Option.not_isSome_iff_eq_none.1 hhead'
  · rintro hkind hmem g' y hg' rfl
    exact hbrace hkind hmem (word ++ (g ++ '(' :: g')) y (by simp) ⟨word, g, g', rfl, hid, hg, hg'⟩

end SourceLists.Grammar
