import SourceLists.Proofs.Reading.Crossing

/-! Statements whose list goes on behind its last item. -/

namespace SourceLists.Grammar
open Rule Argument

variable {s t g x rest : Text} {c : Char} {i : Invocation} {front tail more mid : List Argument}
  {a : Argument} {kind : Kind} {new : Token}

/-- The last item of a statement, with what stands before and behind it. -/
structure LastItem (i : Invocation) (front : List Argument) (a : Argument) (tail : List Argument) :
    Prop where
  arguments : i.arguments = front ++ a :: tail
  item : a.token.IsItem
  tail : IsTail i.kind (tail.map Argument.token)

theorem Invocation.WellFormed.exists_lastItem (h : i.WellFormed) (hkind : i.kind = some kind) :
    ∃ front a tail, LastItem i front a tail := by
  have haccepts := h.accepts
  rw [hkind] at haccepts
  obtain ⟨toks, tok, toks', heq, ht, htail⟩ := exists_last_of_accepts haccepts
  obtain ⟨front, args, hargs, rfl, hmap⟩ := List.map_eq_append_iff.1 heq
  obtain ⟨a, tail, rfl, rfl, rfl⟩ := List.map_eq_cons_iff.1 hmap
  exact ⟨front, a, tail, hargs, ht, hkind ▸ htail⟩

/-- All that is written up to the end of the last item. -/
def Invocation.upTo (i : Invocation) (front : List Argument) (a : Argument) : Text :=
  i.head ++ (texts front ++ a.token.text)

theorem LastItem.text_append (hl : LastItem i front a tail) :
    i.text ++ rest = i.upTo front a ++ (a.gap ++ (texts tail ++ ')' :: rest)) := by
  simp [Invocation.text, Invocation.body, Invocation.upTo, hl.arguments, Argument.text, texts]

theorem LastItem.laid (hl : LastItem i front a tail) (h : i.WellFormed) :
    Laid [')'] (front ++ a :: tail) := hl.arguments ▸ h.laid

/-- The arguments behind one of them can be others. -/
theorem Invocation.WellFormed.replace (h : i.WellFormed) (hargs : i.arguments = front ++ a :: tail)
    (hne : a.token.text ≠ []) (hg : IsGap g) (hd : Delimited (g ++ (texts more ++ [')'])))
    (hs : Settled (texts more ++ [')'])) (hmore : Laid [')'] more)
    (haccepts : Accepts i.kind (front.map Argument.token ++ a.token :: more.map Argument.token)) :
    Invocation.WellFormed { i with arguments := front ++ Argument.mk a.token g :: more } := by
  have hlaid : Laid [')'] (front ++ a :: tail) := hargs ▸ h.laid
  have hdelimited : Delimited (a.gap ++ (texts tail ++ [')'])) := hlaid.of_append.2.1
  have hold : ∀ r, texts i.arguments ++ r =
      (texts front ++ a.token.text) ++ (a.gap ++ (texts tail ++ r)) := by
    intro r
    simp [hargs]
  have hnew : ∀ r, texts (front ++ Argument.mk a.token g :: more) ++ r =
      (texts front ++ a.token.text) ++ (g ++ (texts more ++ r)) := by
    intro r
    simp
  refine ⟨h.word, h.beforeParen, h.beforeName, ?_, h.afterName, ?_, ?_, by simpa using haccepts⟩
  · have hname := h.name
    simp only [hold, ← List.append_assoc i.afterName] at hname
    have hread := nameRule_congr (u := i.afterName ++ (texts front ++ a.token.text))
      (by simpa only [List.append_assoc] using hname) hdelimited hd
    simp only [hnew]
    simpa only [List.append_assoc] using hread
  · have hfilled : texts front ++ a.token.text ≠ [] := by simp [hne]
    have hsettled := h.settled
    rw [hold, settled_append hfilled] at hsettled
    simp only [hnew]
    rwa [settled_append hfilled]
  · exact laid_replace hlaid (head?_texts hne rfl) ⟨hg, hd, hs, hmore⟩

theorem IsTail.isTail_kind {toks : List Token} (h : IsTail (some kind) toks) (hkind : kind ≠ .set) :
    toks = [] := by
  rcases h with h | ⟨h, -⟩
  · exact h
  · exact absurd (Option.some.inj h) hkind

/-- Behind the last item there is room for another one. -/
theorem accepts_push {front tail : List Token} {tok : Token}
    (h : Accepts (some kind) (front ++ tok :: tail)) (ht : tok.IsItem)
    (htail : IsTail (some kind) tail) (hnew : new.IsItem)
    (hne : new ≠ .literal "PARENT_SCOPE".toList) :
    Accepts (some kind) (front ++ tok :: new :: tail) := by
  obtain ⟨-, hgrow⟩ := follows_of_accepts h ht
  apply hgrow tok _ alike_refl ht
  match kind with
  | .set =>
    rcases htail with rfl | ⟨-, rfl⟩
    · exact Or.inl ⟨⟨by simp, by simpa using ⟨ht, hnew⟩⟩, by simpa using hne⟩
    · exact Or.inr ⟨[tok, new], ⟨by simp, by simpa using ⟨ht, hnew⟩⟩, rfl⟩
  | .addLibrary | .addExecutable =>
    obtain rfl := htail.isTail_kind (by simp)
    simpa [Follows] using hnew
  | .targetSources =>
    obtain rfl := htail.isTail_kind (by simp)
    exact ⟨[new], [], rfl, by simpa using hnew, Or.inl rfl⟩

theorem not_isNameChar_of_declaredName {name : Text}
    (h : declaredName.read (name ++ c :: s) = some (name, c :: s)) : ¬ isNameChar c := by
  intro hc
  obtain ⟨y, z, s', -, hz, -⟩ := declaredName_read_eq_some.1 h
  have hend := read_readAll namePiece_consumes (s := s')
  rw [hz] at hend
  have hsome : (char isNameChar).read (c :: s) = some ([c], s) :=
    char_read_eq_some.2 ⟨c, hc, rfl, rfl⟩
  rw [namePiece, read_orElse, hsome, Option.or_eq_none_iff] at hend
  exact absurd hend.2 (by simp)

theorem not_isIdentifierChar_of_isBlank (h : isBlank c) : ¬ isIdentifierChar c :=
  fun hid => (narrow_isIdentifierChar c hid).1 h

/-- No item begins inside of a word. -/
theorem LastItem.endsWord (hl : LastItem i front a tail) (h : i.WellFormed) (hkind : i.kind ≠ none)
    (ha : ∀ c ∈ a.token.text.head?, isIdentifierChar c) :
    ∀ c ∈ (i.head ++ texts front).getLast?, ¬ isIdentifierChar c := by
  intro c hc
  by_cases hfront : front = []
  · subst hfront
    rw [texts_nil, List.append_nil, Invocation.head, List.getLast?_append] at hc
    cases hg : i.afterName.getLast? with
    | some d =>
      rw [hg] at hc
      obtain rfl : d = c := by simpa using hc
      exact not_isIdentifierChar_of_isBlank (isBlank_of_mem_getLast? h.afterName hg)
    | none =>
      -- The name would go on with the item.
      obtain ⟨k, hk⟩ := Option.ne_none_iff_exists'.1 hkind
      have hnil : i.afterName = [] := List.getLast?_eq_none_iff.1 hg
      have hname := h.name
      obtain ⟨d, y, hy⟩ := List.exists_cons_of_ne_nil hl.item.ne_nil
      rw [hk, hnil, hl.arguments, List.nil_append, List.nil_append, texts_cons, hy] at hname
      have hd : isIdentifierChar d := ha d (by simp [hy])
      exact absurd (isNameChar_of_isIdentifierChar hd) (not_isNameChar_of_declaredName hname)
  · obtain ⟨f, b, rfl⟩ := (List.eq_nil_or_concat' _).resolve_left hfront
    have hlaid := hl.laid h
    rw [List.append_assoc] at hlaid
    obtain ⟨y, d, hy, hblank⟩ := exists_blank hlaid (Or.inl hl.item)
    obtain rfl : d = c := by simpa [hy] using hc
    exact not_isIdentifierChar_of_isBlank hblank

/-- No item is written like a scope. -/
theorem Token.IsItem.text_not_scope {tok : Token} (h : tok.IsItem) :
    tok.text ∉ ["PRIVATE", "PUBLIC", "INTERFACE"].map String.toList := by
  intro hmem
  have hread : scopeKeyword.read (tok.text ++ []) = some (.keyword tok.text, []) :=
    keyword_read_append plainWords_scopeKeyword prefixFree_scopeKeyword hmem delimited_nil
  rw [List.append_nil, (listItem_read_eq_some.1 h).1] at hread
  contradiction

/-- No scope stands behind a blank at the end of the last item. -/
theorem LastItem.unscoped (hl : LastItem i front a tail) (h : i.WellFormed) (hkind : i.kind ≠ none)
    {z w : Text} (hw : w ∈ ["PRIVATE", "PUBLIC", "INTERFACE"].map String.toList) (hc : isBlank c) :
    s ++ i.upTo front a ≠ z ++ c :: w := by
  intro heq
  have hid := (plainWords_scopeKeyword w hw).2
  rw [Invocation.upTo, ← List.append_assoc i.head, ← List.append_assoc] at heq
  rcases List.append_eq_append_iff.1 heq.symm with ⟨e, he, htoken⟩ | ⟨e, -, htoken⟩
  · cases e with
    | nil =>
      -- The item would begin with the blank.
      obtain ⟨⟨d, y, hy, hd⟩, -⟩ := listItem_edges hl.item
      rw [hy] at htoken
      exact hd.not_isBlank ((List.cons.inj htoken).1 ▸ hc)
    | cons b e =>
      obtain ⟨rfl, hw'⟩ := List.cons.inj htoken
      by_cases hnil : e = []
      · subst hnil
        obtain rfl : w = a.token.text := hw'
        exact hl.item.text_not_scope hw
      · have hword : ∀ c ∈ a.token.text.head?, isIdentifierChar c := by
          intro b hb
          exact hid b (hw' ▸ List.mem_append_right e (List.mem_of_mem_head? hb))
        obtain ⟨f, b, rfl⟩ := (List.eq_nil_or_concat' _).resolve_left hnil
        have hne : i.head ++ texts front ≠ [] := by simp [Invocation.head]
        have hb : (i.head ++ texts front).getLast? = some b := by
          have hlast := congrArg List.getLast? he
          rwa [List.getLast?_append_of_ne_nil _ hne, ← List.cons_append, ← List.append_assoc,
            List.getLast?_concat] at hlast
        exact hl.endsWord h hkind hword b hb (hid b (by simp [hw']))
  · -- The blank would be in the quotes of the item.
    have hmem : c ∈ a.token.text := by simp [htoken]
    obtain ⟨-, hi⟩ := literal_of_isBlank (Or.inl hl.item) hc hmem
    rw [htoken] at hi
    have hquote := quote_of_isItem hi fun hedge => hedge.not_isBlank hc
    exact absurd (hid _ hquote) (by decide)

/-- Where the last item of a statement ends, the list of the statement is closed. -/
theorem LastItem.place (hl : LastItem i front a tail) (h : i.WellFormed) (hkind : i.kind ≠ none)
    (s rest : Text) : Place (s ++ i.upTo front a) (a.gap ++ (texts tail ++ ')' :: rest)) := by
  obtain ⟨-, hlast⟩ := listItem_edges hl.item
  obtain ⟨hgap, hdelimited, hsettled, htail⟩ := (hl.laid h).of_append
  have hedge : EndsInEdge (s ++ i.upTo front a) := by
    obtain ⟨z, c, hz⟩ := (List.eq_nil_or_concat' _).resolve_left hl.item.ne_nil
    exact ⟨s ++ (i.head ++ (texts front ++ z)), c, by simp [Invocation.upTo, hz],
      hlast c (by simp [hz])⟩
  have hshape : tail = [] ∨ ∃ p, tail = [p] ∧ p.token = .keyword "PARENT_SCOPE".toList := by
    rcases hl.tail with h | ⟨-, h⟩
    · exact Or.inl (List.map_eq_nil_iff.1 h)
    · obtain ⟨p, rfl, hp⟩ := List.map_eq_singleton_iff.1 h
      exact Or.inr ⟨p, rfl, hp⟩
  exact {
    edge := hedge
    opened := by simp [Invocation.upTo, Invocation.head]
    unscoped := fun _ _ _ hw hc => hl.unscoped h hkind hw hc
    closed := ⟨a.gap, tail, rest, rfl, hgap,
      (delimited_congr (head?_append_congr (head?_append_congr (by rfl)))).1 hdelimited,
      settled_close_congr hsettled, (laid_congr (by rfl)).1 htail, hshape⟩ }

/-- A new item behind the last one, with a gap between them in which `mid` may stand. -/
def Invocation.grown (i : Invocation) (front : List Argument) (a : Argument) (tail : List Argument)
    (g : Text) (mid : List Argument) (x : Text) : Invocation :=
  { i with arguments := front ++ ⟨a.token, g⟩ :: (mid ++ ⟨.literal x, a.gap⟩ :: tail) }

theorem Invocation.grown_text_append :
    (i.grown front a tail g mid x).text ++ rest =
      i.upTo front a ++ ((g ++ (texts mid ++ x)) ++ (a.gap ++ (texts tail ++ ')' :: rest))) := by
  simp [Invocation.grown, Invocation.text, Invocation.body, Invocation.head, Invocation.upTo,
    Argument.text, Token.text, texts]

theorem LastItem.wellFormed_grown (hl : LastItem i front a tail) (h : i.WellFormed)
    (hlaid : Laid [')'] (⟨a.token, g⟩ :: (mid ++ ⟨.literal x, a.gap⟩ :: tail)))
    (haccepts : Accepts i.kind (front.map Argument.token ++
      a.token :: (mid.map Argument.token ++ .literal x :: tail.map Argument.token))) :
    (i.grown front a tail g mid x).WellFormed := by
  obtain ⟨hg, hd, hs, hmore⟩ := hlaid
  exact h.replace hl.arguments hl.item.ne_nil hg hd hs hmore (by simpa using haccepts)

/-- A new item behind the last one, with a space between them. -/
def Invocation.pushed (i : Invocation) (front : List Argument) (a : Argument) (tail : List Argument)
    (x : Text) : Invocation := i.grown front a tail [' '] [] x

theorem Invocation.pushed_text_append :
    (i.pushed front a tail x).text ++ rest =
      i.upTo front a ++ ((' ' :: x) ++ (a.gap ++ (texts tail ++ ')' :: rest))) :=
  grown_text_append

theorem LastItem.laid_pushed (hl : LastItem i front a tail) (h : i.WellFormed) (hx : Entry x) :
    Laid [')'] (⟨a.token, [' ']⟩ :: ⟨.literal x, a.gap⟩ :: tail) := by
  obtain ⟨hgap, hd, hs, htail⟩ := (hl.laid h).of_append
  refine ⟨rfl, delimited_space, ?_, hgap, hd, hs, htail⟩
  rw [texts_cons, List.append_assoc]
  exact (settled_append hx.item.ne_nil).2 hx.settled

theorem LastItem.wellFormed_pushed (hl : LastItem i front a tail) (h : i.WellFormed)
    (hkind : i.kind ≠ none) (hx : Entry x) : (i.pushed front a tail x).WellFormed := by
  obtain ⟨kind, hk⟩ := Option.ne_none_iff_exists'.1 hkind
  refine hl.wellFormed_grown h (hl.laid_pushed h hx) ?_
  have haccepts := h.accepts
  rw [hl.arguments, List.map_append, List.map_cons, hk] at haccepts
  rw [hk]
  exact accepts_push haccepts hl.item (hk ▸ hl.tail) hx.item (by simpa using hx.ne_parentScope)

/-- The opening of a statement can be read in one way only. -/
theorem Invocation.WellFormed.opening_unique {r : Text} (h : i.WellFormed) (hr : IsOpening r)
    (ht : Settled t) (heq : r ++ t = i.text ++ rest) :
    r = i.word ++ (i.beforeParen ++ '(' :: i.beforeName) := by
  obtain ⟨word, g, g', rfl, hid, hg, hg'⟩ := hr
  have hname := nameRule_close [] rest h.name
  rw [Invocation.text_append] at heq
  simp only [List.append_assoc, List.cons_append] at heq
  have hword : word = i.word := by
    rw [← takeWhile_word hid hg, heq, takeWhile_word h.isIdentifierChar_word h.beforeParen]
  subst hword
  have heq' := List.append_cancel_left heq
  obtain ⟨rfl, heq''⟩ := gap_of_read hg (settled_cons.2 (by decide)) h.beforeParen
    (settled_cons.2 (by decide)) heq'
  obtain ⟨rfl, -⟩ := gap_of_read hg' ht h.beforeName (settled_of_nameRule hname)
    (List.cons.inj heq'').2
  rfl

/-- Only a name before a brace could be that of an environment variable. -/
theorem Invocation.WellFormed.env_of_alternative (h : i.WellFormed) (hkind : i.kind ≠ none)
    {j : Invocation} {rest' : Text}
    (hread : (alternative none).read (i.text ++ rest) = some (j, rest')) :
    i.name = "ENV".toList ∧
      ∃ y, i.afterName ++ (texts i.arguments ++ ')' :: rest) = '\x7b' :: y := by
  obtain ⟨hj, heq, hwf⟩ := alternative_read_eq_some.1 hread
  obtain ⟨kind, hk⟩ := Option.ne_none_iff_exists'.1 hkind
  have hjname := nameRule_close [] rest' hwf.name
  have hiname := nameRule_close [] rest h.name
  have hopening : IsOpening (j.word ++ (j.beforeParen ++ '(' :: j.beforeName)) :=
    ⟨j.word, j.beforeParen, j.beforeName, rfl, hwf.isIdentifierChar_word, hwf.beforeParen,
      hwf.beforeName⟩
  have hunique := h.opening_unique hopening (settled_of_nameRule hjname)
    (by rw [heq, Invocation.text_append]; simp)
  -- Behind the same opening both names begin at one place.
  have hsame : j.name ++ (j.afterName ++ (texts j.arguments ++ ')' :: rest')) =
      i.name ++ (i.afterName ++ (texts i.arguments ++ ')' :: rest)) := by
    have heq' := heq
    rw [Invocation.text_append, Invocation.text_append] at heq'
    have hassoc :
        ∀ (a b c d : Text), a ++ (b ++ '(' :: (c ++ d)) = (a ++ (b ++ '(' :: c)) ++ d := by
      simp
    rw [hassoc, hassoc, hunique] at heq'
    exact (List.append_cancel_left heq').symm
  rw [hj] at hjname
  obtain ⟨-, y, hy, -⟩ := envName_read_eq_some.1 hjname
  rw [hk, ← hsame, hy, List.append_assoc, List.append_assoc, nameRule,
    declaredName_read_env] at hiname
  obtain ⟨hname, hbehind⟩ := Prod.mk.inj (Option.some.inj hiname)
  exact ⟨hname.symm, _, hbehind.symm⟩

theorem Invocation.WellFormed.alternative_none (h : i.WellFormed) (hkind : i.kind ≠ none)
    (hname : i.name ≠ "ENV".toList) : (alternative none).read (i.text ++ rest) = none := by
  rw [Option.eq_none_iff_forall_ne_some]
  rintro ⟨j, rest'⟩ hread
  exact hname (h.env_of_alternative hkind hread).1

end SourceLists.Grammar
