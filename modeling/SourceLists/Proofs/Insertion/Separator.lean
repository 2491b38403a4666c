import SourceLists.Insertion.Separator
import SourceLists.Proofs.Insertion.Moved
import SourceLists.Proofs.Location
import SourceLists.Proofs.Reading.Repeat

/-! An insertion that repeats the separator of a list is read back, with that separator. -/

namespace SourceLists
open Grammar Grammar.Argument

variable {s s' t x : Text} {st : Statement} {ins : Insertion} {items : List Item} {item : Item}

namespace Grammar
variable {i : Invocation} {front mid tail args : List Argument} {a b : Argument} {start : Nat}
  {g rest : Text}

theorem itemsAt_keywords (h : ∀ b ∈ args, b.token.IsKeyword) : itemsAt start args = [] := by
  induction args generalizing start with
  | nil => rfl
  | cons b args ih =>
    obtain ⟨w, hw⟩ := h b List.mem_cons_self
    simp only [itemsAt, hw, Token.item?, Option.toList_none, List.nil_append]
    exact ih fun c hc => h c (List.mem_cons_of_mem b hc)

theorem Token.eq_literal_of_content {tok : Token} (h : tok.item? start = some item)
    (hc : item.content = .literal t) : tok = .literal t := by
  cases tok with
  | keyword w => contradiction
  | reference quoted name =>
    cases h
    contradiction
  | literal x =>
    cases h
    cases hc
    rfl

/-- A list of items with one literal has nothing before it. -/
theorem LastItem.eq_of_content (hl : LastItem i front a tail)
    (hfront : ∀ tok ∈ front.map Argument.token, tok.IsItem)
    (h : (itemsAt start i.arguments).map Item.content = [.literal t]) :
    front = [] ∧ a.token = .literal t := by
  obtain ⟨item, hitem⟩ := hl.item.exists_item? (start + Text.size (texts front))
  rw [hl.itemsAt_arguments, itemsAt_append] at h
  simp only [itemsAt, hitem, Option.toList_some, List.append_nil, List.map_append, List.map_cons,
    List.map_nil] at h
  cases front with
  | nil => exact ⟨rfl, Token.eq_literal_of_content hitem (List.cons.inj h).1⟩
  | cons b front =>
    obtain ⟨first, hfirst⟩ := (hfront b.token (by simp)).exists_item? start
    have hlength := congrArg List.length h
    simp [itemsAt, hfirst] at hlength

/-- What begins with `set(` sets a variable. -/
theorem Invocation.WellFormed.kind_eq_set (hwf : i.WellFormed) (hkind : i.kind ≠ none)
    (hs : "set(x ".toList ++ t ++ [')'] = i.text ++ rest) :
    i.kind = some .set ∧ i.word = "set".toList := by
  have hword : i.word = "set".toList := by
    rw [← hwf.takeWhile_text rest, ← hs]
    rfl
  obtain ⟨kind, hk⟩ := Option.ne_none_iff_exists'.1 hkind
  have hcommand := hwf.word
  rw [hword, hk] at hcommand
  refine ⟨?_, hword⟩
  rw [hk]
  revert hcommand
  cases kind <;> decide

/-- The one item of a variable is not the word that is a flag. -/
theorem LastItem.ne_parentScope (hl : LastItem i [] a tail) (hwf : i.WellFormed)
    (hk : i.kind = some .set) (ha : a.token = .literal t)
    (hs : "set(x ".toList ++ t ++ [')'] = i.text ++ rest) : t ≠ "PARENT_SCOPE".toList := by
  intro hscope
  have haccepts := hwf.accepts
  rw [hk, hl.arguments, List.map_append, List.map_cons] at haccepts
  obtain ⟨-, hmore, -⟩ := rest_of_variableItems haccepts hl.item
  obtain ⟨-, hword⟩ := hwf.kind_eq_set (by simp [hk]) hs
  have htail := hl.tail
  rw [hk] at htail
  rcases htail with htail | ⟨-, htail⟩
  · rw [htail, ha] at hmore
    rcases hmore with ⟨-, hlast⟩ | ⟨items, ⟨hne, -⟩, heq⟩
    · exact hlast (by rw [hscope]; rfl)
    · have hlength := congrArg List.length heq
      exact hne (by simpa using hlength)
  · -- There is no room for a second word.
    obtain ⟨p, rfl, hp⟩ := List.map_eq_singleton_iff.1 htail
    have hlength := congrArg List.length hs
    rw [hl.text_append] at hlength
    simp [Invocation.upTo, Invocation.head, hword, ha, hp, Token.text] at hlength
    omega

/-- What `set(x …)` takes for its one item is an entry. -/
theorem entry_of_parse (h : parse ("set(x ".toList ++ t ++ [')']) = .ok [st])
    (hitems : st.items.map Item.content = [.literal t]) : Entry t := by
  obtain ⟨g, i, rest, hs, hg, hi, hst⟩ := parse_eq_singleton.1 h
  have hwf := (wellFormed_of_statement hi).2
  obtain ⟨rfl, hs'⟩ := gap_of_read isGap_nil (settled_cons.2 (by decide)) hg hwf.settled_text hs
  obtain ⟨kind, hkind, rfl⟩ := Option.map_eq_some_iff.1 hst
  obtain ⟨hk, -⟩ := hwf.kind_eq_set (by simp [hkind]) hs'
  obtain ⟨front, a, tail, hl⟩ := hwf.exists_lastItem hk
  have haccepts := hwf.accepts
  rw [hk, hl.arguments, List.map_append, List.map_cons] at haccepts
  obtain ⟨hfront, -⟩ := rest_of_variableItems haccepts hl.item
  obtain ⟨rfl, hatoken⟩ := hl.eq_of_content hfront hitems
  have hitem := hl.item
  have hsettled := hwf.settled
  rw [hatoken] at hitem
  rw [hl.arguments, List.nil_append, texts_cons, List.append_assoc, hatoken] at hsettled
  exact ⟨hitem, (settled_append hitem.ne_nil).1 hsettled, hl.ne_parentScope hwf hk hatoken hs'⟩

/-- Between the last two items stands the gap behind the first of them, with the flags that follow
it. -/
theorem LastItem.slice?_separator {first second : Item} {before after : Text}
    (hl : LastItem i (front ++ b :: mid) a tail) (hs : s = before ++ (i.text ++ after))
    (hfirst : b.token.item? (Text.size before + Text.size i.head + Text.size (texts front)) =
      some first)
    (hsecond : a.token.item?
      (Text.size before + Text.size i.head + Text.size (texts (front ++ b :: mid))) = some second) :
    Text.slice? s first.span.stop second.span.start = some (b.gap ++ texts mid) := by
  have hs' : s = (before ++ (i.head ++ (texts front ++ b.token.text))) ++
      ((b.gap ++ texts mid) ++ (a.token.text ++ (a.gap ++ (texts tail ++ ')' :: after)))) := by
    rw [hs, hl.text_append, Invocation.upTo]
    simp
  have hcut : Text.slice? s (Text.size (before ++ (i.head ++ (texts front ++ b.token.text))))
      (Text.size (before ++ (i.head ++ (texts front ++ b.token.text))) +
        Text.size (b.gap ++ texts mid)) = some (b.gap ++ texts mid) := by
    rw [hs']
    exact Text.slice?_append
  rw [Token.span_of_item? hfirst, Token.span_of_item? hsecond]
  simp only [texts_append, texts_cons, Text.size_append, ← Nat.add_assoc] at hcut ⊢
  exact hcut

theorem LastItem.itemsAt_concat {first second : Item} (hl : LastItem i (front ++ b :: mid) a tail)
    (hmid : ∀ c ∈ mid, c.token.IsKeyword)
    (hfirst : b.token.item? (start + Text.size (texts front)) = some first)
    (hsecond : a.token.item? (start + Text.size (texts (front ++ b :: mid))) = some second) :
    itemsAt start i.arguments = itemsAt start front ++ [first, second] := by
  have hmid' : ∀ n, itemsAt n mid = [] := fun n => itemsAt_keywords hmid
  have hlast : ∀ n, itemsAt n [⟨a.token, []⟩] = (a.token.item? n).toList :=
    fun n => by simp [itemsAt]
  rw [hl.itemsAt_arguments, itemsAt_append, itemsAt_append, hlast, hsecond]
  simp [itemsAt, hfirst, hmid']

end Grammar

theorem separatorOf_singleton : separatorOf s [item] = .error (.tooFewItems 1) := rfl

theorem separatorOf_concat {first second : Item} {separator : Text}
    (h : Text.slice? s first.span.stop second.span.start = some separator) :
    separatorOf s (items ++ [first, second]) = .ok separator := by
  have hreverse : (items ++ [first, second]).reverse = second :: first :: items.reverse := by simp
  rw [separatorOf, hreverse]
  simp only [h]

/-- The gap and the keywords that go before a new item are those between the last two items; where
there are no two items, they are a space. -/
inductive Grammar.Repeats (front : List Argument) : Text → List Argument → Prop
  | space : Repeats front [' '] []
  | between {rest mid : List Argument} {b : Argument} (h : front = rest ++ b :: mid) :
    Repeats front b.gap mid

theorem Grammar.Repeats.suffix {front mid : List Argument} {g : Text} (h : Repeats front g mid) :
    mid <:+ front := by
  cases h with
  | space => exact List.nil_suffix
  | @between rest _ b hfront =>
    rw [hfront]
    exact (List.suffix_cons b mid).trans (List.suffix_append rest _)

/-- The separator of a list is what stands before its last item: a gap, and perhaps the keywords of
a group. Every entry can follow it behind the last item. -/
theorem exists_repeated {i : Invocation} {front tail : List Argument} {a : Argument}
    {before after : Text} (hl : LastItem i front a tail) (hwf : i.WellFormed)
    (hst : i.statement? (Text.size before) = some st) (hs : s = before ++ (i.text ++ after)) :
    ∃ g mid, Repeats front g mid ∧ (∀ c ∈ mid, c.token.IsKeyword) ∧
      (∀ x, Entry x → (i.grown front a tail g mid x).WellFormed) ∧
      (Spacing.matching s).separator st.items = .ok (g ++ texts mid) := by
  obtain ⟨kind, hk, rfl⟩ := Option.map_eq_some_iff.1 hst
  have hkind : i.kind ≠ none := by simp [hk]
  by_cases hfront : ∀ b ∈ front, b.token.IsKeyword
  · refine ⟨[' '], [], .space, by simp, fun x hx => hl.wellFormed_pushed hwf hkind hx, ?_⟩
    obtain ⟨item, hitem⟩ := hl.item.exists_item?
      (Text.size before + Text.size i.head + Text.size (texts front))
    simp [hl.itemsAt_arguments, itemsAt_append, itemsAt_keywords hfront, itemsAt, hitem,
      Spacing.separator, separatorOf_singleton]
  · obtain ⟨front, b, mid, rfl, hb, hmid⟩ := exists_last_of_not_keywords hfront
    refine ⟨b.gap, mid, .between rfl, hmid,
      fun x hx => hl.wellFormed_repeated hwf hkind hb hmid hx, ?_⟩
    have hsound := sound_of_accepts hwf.accepts
    have hbitem : b.token.IsItem := (hsound b.token (by simp [hl.arguments])).isItem hb
    obtain ⟨first, hfirst⟩ := hbitem.exists_item?
      (Text.size before + Text.size i.head + Text.size (texts front))
    obtain ⟨second, hsecond⟩ := hl.item.exists_item?
      (Text.size before + Text.size i.head + Text.size (texts (front ++ b :: mid)))
    have hslice := hl.slice?_separator hs hfirst hsecond
    simp only [hl.itemsAt_concat hmid hfirst hsecond, Spacing.separator, separatorOf_concat hslice]

/-- The separator of a list goes on behind its last item. -/
theorem exists_separator {i : Invocation} {front tail : List Argument} {a : Argument}
    {before after : Text} (hl : LastItem i front a tail) (hwf : i.WellFormed) (hx : Entry x)
    (hst : i.statement? (Text.size before) = some st) (hs : s = before ++ (i.text ++ after)) :
    ∃ g mid, (∀ c ∈ mid, c.token.IsKeyword) ∧ (i.grown front a tail g mid x).WellFormed ∧
      (Spacing.matching s).separator st.items = .ok (g ++ texts mid) := by
  obtain ⟨g, mid, -, hmid, hgrown, hseparator⟩ := exists_repeated hl hwf hst hs
  exact ⟨g, mid, hmid, hgrown x hx, hseparator⟩

theorem Insertion.slice?_apply (h : ins.apply s = .ok s') :
    Text.slice? s' ins.position (ins.position + Text.size ins.separator) = some ins.separator := by
  rw [Insertion.apply] at h
  split at h
  · next before after hsplit =>
    obtain ⟨-, hsize⟩ := Text.splitAt?_eq_some.1 hsplit
    cases h
    rw [← hsize, Insertion.content, List.append_assoc, List.append_assoc]
    exact Text.slice?_append
  · contradiction

/-- The separator of an insertion is that of the list which it makes longer. -/
theorem separatorOf_push (hend : st.listEnd? = some ins.position) (happly : ins.apply s = .ok s') :
    separatorOf s'
      ((st.moved ins).push (.literal x (ins.position + Text.size ins.separator))).items =
      .ok ins.separator := by
  obtain ⟨item, hitem, hstop⟩ := Option.map_eq_some_iff.1 hend
  obtain ⟨items, hitems⟩ := List.getLast?_eq_some_iff.1 hitem
  have hstop' : (item.moved ins).span.stop = ins.position := by
    rw [Item.stop_moved (Nat.le_of_eq hstop), hstop]
  have hitems' : ((st.moved ins).push (.literal x (ins.position + Text.size ins.separator))).items =
      items.map (Item.moved ins) ++
        [item.moved ins, .literal x (ins.position + Text.size ins.separator)] := by
    simp [Statement.push, Statement.moved, hitems]
  rw [hitems']
  apply separatorOf_concat
  rw [hstop']
  exact Insertion.slice?_apply happly

/-- A statement to which an entry is added with the separator of its list is read with that entry,
and its list has that separator again. -/
theorem parse_insert_matching {entry : Statement} (h : parse s = .ok [st])
    (hname : st.name ≠ "ENV".toList) (ht : parse ("set(x ".toList ++ t ++ [')']) = .ok [entry])
    (hitems : entry.items.map Item.content = [.literal t]) :
    ∃ position separator s' new, st.listEnd? = some position ∧
      (Spacing.matching s).separator st.items = .ok separator ∧
      (Insertion.mk position separator t).apply s = .ok s' ∧ parse s' = .ok [new] ∧
      new.kind = st.kind ∧ new.name = st.name ∧
      new.items.map Item.content = st.items.map Item.content ++ [.literal t] ∧
      separatorOf s' new.items = .ok separator := by
  have hx := entry_of_parse ht hitems
  obtain ⟨g, i, rest, hs, hg, hi, hst⟩ := parse_eq_singleton.1 h
  have hwf := (wellFormed_of_statement hi).2
  obtain ⟨kind, hk, hst'⟩ := Option.map_eq_some_iff.1 hst
  have hkind : i.kind ≠ none := by simp [hk]
  obtain ⟨front, a, tail, hl⟩ := hwf.exists_lastItem hk
  obtain ⟨gap, mid, hmid, hgrown, hseparator⟩ := exists_separator hl hwf hx hst hs
  have hend := hl.listEnd?_eq hst
  have hread : statement.read ((i.grown front a tail gap mid t).text ++ rest) =
      some (i.grown front a tail gap mid t, rest) := by
    refine statement_read_eq_some.2 ⟨alternative_read_eq_some.2 ⟨rfl, rfl, hgrown⟩, fun _ => ?_⟩
    apply hgrown.alternative_none hkind
    rw [← hst'] at hname
    exact hname
  have hnew : (i.grown front a tail gap mid t).statement? (Text.size g) = _ :=
    hl.statement?_grown (fun _ => itemsAt_keywords hmid) hst rfl
  have hs' : s = (g ++ i.upTo front a) ++ (a.gap ++ (texts tail ++ ')' :: rest)) := by
    rw [hs, hl.text_append, List.append_assoc]
  have happly :
      (Insertion.mk (Text.size g + Text.size (i.upTo front a)) (gap ++ texts mid) t).apply s =
      .ok (g ++ ((i.grown front a tail gap mid t).text ++ rest)) := by
    rw [Insertion.apply, ← Text.size_append, hs', Text.splitAt?_size_append]
    simp [Insertion.content, Invocation.grown_text_append]
  refine ⟨_, _, _, _, hend, hseparator, happly,
    parse_eq_singleton.2 ⟨g, _, rest, rfl, hg, hread, hnew⟩, rfl, rfl, ?_, ?_⟩
  · simp only [Statement.push, Statement.moved, List.map_append, Item.map_content_moved]
    rfl
  · exact separatorOf_push hend happly

/-- The comment and the scope between two files go with a third one. -/
theorem parse_insert_behind_scope :
    let s := "target_sources(core PRIVATE a.cpp # 1\n PUBLIC b.cpp)".toList
    let s' := "target_sources(core PRIVATE a.cpp # 1\n PUBLIC b.cpp # 1\n PUBLIC c.cpp)".toList
    let items : List Item := [.literal "a.cpp".toList 28, .literal "b.cpp".toList 46]
    (Statement.mk .targetSources "core".toList items ⟨0, 52⟩).listEnd? = some 51 ∧
      (Spacing.matching s).separator items = .ok " # 1\n PUBLIC ".toList ∧
      (Insertion.mk 51 " # 1\n PUBLIC ".toList "c.cpp".toList).apply s = .ok s' ∧
      ∃ new, parse s' = .ok [new] ∧ new.kind = .targetSources ∧ new.name = "core".toList ∧
        new.items.map Item.content =
          [.literal "a.cpp".toList, .literal "b.cpp".toList, .literal "c.cpp".toList] ∧
        separatorOf s' new.items = .ok " # 1\n PUBLIC ".toList := by
  intro s s' items
  have h : parse s = .ok [⟨.targetSources, "core".toList, items, ⟨0, 52⟩⟩] := by decide +kernel
  have ht : parse ("set(x ".toList ++ "c.cpp".toList ++ [')']) =
      .ok [⟨.set, "x".toList, [.literal "c.cpp".toList 6], ⟨0, 12⟩⟩] := by decide +kernel
  obtain ⟨position, separator, text, new, hend, hseparator, happly, hparse, hkind, hname, hitems,
    hagain⟩ := parse_insert_matching h (by decide) ht rfl
  obtain rfl : 51 = position := Option.some.inj hend
  obtain rfl : " # 1\n PUBLIC ".toList = separator := Except.ok.inj hseparator
  obtain rfl : s' = text := Except.ok.inj happly
  exact ⟨hend, hseparator, happly, new, hparse, hkind, hname, hitems, hagain⟩

end SourceLists
