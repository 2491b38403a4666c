import SourceLists.Proofs.Insertion.Lookup
import SourceLists.Proofs.Insertion.Scope

/-! The comments of a statement before and after an insertion that repeats the separator of the
list. None is lost, and those between the last two items are there twice. -/

namespace SourceLists
open Grammar Grammar.Argument

variable {s s' t x : Text} {anchor : Anchor} {ins : Insertion}

namespace Grammar

/-- The comments of a text of blanks and comments, where `comment` is what has been read of an open
one. Each goes from its number sign to the end of its line. -/
def commentsFrom : Option Text → Text → List Text
  | comment, [] => comment.toList
  | none, c :: g => commentsFrom (if c = '#' then some [c] else none) g
  | some x, c :: g =>
    if c = '\n' ∨ c = '\r' then x :: commentsFrom none g else commentsFrom (some (x ++ [c])) g

def commentsIn (g : Text) : List Text := commentsFrom none g

/-- The comments behind some arguments. -/
def Argument.comments (args : List Argument) : List Text := args.flatMap fun a => commentsIn a.gap

namespace Invocation

/-- The comments before the first argument. -/
def headComments (i : Invocation) : List Text :=
  commentsIn i.beforeParen ++ commentsIn i.beforeName ++ commentsIn i.afterName

def comments (i : Invocation) : List Text := i.headComments ++ Argument.comments i.arguments

end Invocation

variable {g h w rest : Text} {comment : Option Text} {args more front mid tail : List Argument}
  {a : Argument} {i j : Invocation}

/-- Where no comment is open, the comments behind a text are found by themselves. -/
theorem commentsFrom_append (hg : gapState comment.isSome g = some false) :
    commentsFrom comment (g ++ h) = commentsFrom comment g ++ commentsIn h := by
  induction g generalizing comment with
  | nil =>
    cases comment with
    | none => rfl
    | some x => exact absurd hg (by simp [gapState])
  | cons c g ih =>
    cases comment with
    | none =>
      have hopen : (if c = '#' then some [c] else none).isSome = (c == '#') := by
        by_cases hc : c = '#' <;> simp [hc]
      rw [List.cons_append, commentsFrom, commentsFrom]
      apply ih
      rw [gapState, Option.isSome_none, if_neg (by simp)] at hg
      split at hg
      · rwa [hopen]
      · contradiction
    | some x =>
      rw [List.cons_append, commentsFrom, commentsFrom]
      rw [gapState, Option.isSome_some, if_pos rfl] at hg
      by_cases hc : c = '\n' ∨ c = '\r'
      · have hend : (c != '\n' && c != '\r') = false := by
          rcases hc with rfl | rfl <;> rfl
        rw [hend] at hg
        have hclosed : commentsFrom none (g ++ h) = commentsFrom none g ++ commentsIn h := ih hg
        rw [if_pos hc, if_pos hc, hclosed, List.cons_append]
      · have hline : (c != '\n' && c != '\r') = true := by simpa [not_or] using hc
        rw [hline] at hg
        rw [if_neg hc, if_neg hc]
        exact ih hg

theorem commentsIn_append (hg : IsGap g) : commentsIn (g ++ h) = commentsIn g ++ commentsIn h :=
  commentsFrom_append hg

example :
    commentsIn (" # a\n\t".toList ++ "#b\r # \n".toList) =
      ["# a".toList, "#b".toList, "# ".toList] := by
  decide

theorem commentsIn_word (hx : '#' ∉ x) : commentsIn (x ++ h) = commentsIn h := by
  induction x with
  | nil => rfl
  | cons c x ih =>
    obtain ⟨hc, hx⟩ := not_or.1 (mt List.mem_cons.2 hx)
    rw [commentsIn, List.cons_append, commentsFrom, if_neg (Ne.symm hc)]
    exact ih hx

namespace Argument

@[simp] theorem comments_nil : Argument.comments [] = [] := rfl

@[simp] theorem comments_cons :
    Argument.comments (a :: args) = commentsIn a.gap ++ Argument.comments args := rfl

@[simp] theorem comments_append :
    Argument.comments (args ++ more) = Argument.comments args ++ Argument.comments more :=
  List.flatMap_append

end Argument

/-- In front of an item there are comments, but none in the keywords that may stand there, too. -/
theorem commentsIn_texts (hgaps : ∀ a ∈ args, IsGap a.gap)
    (hsigns : ∀ a ∈ args, '#' ∉ a.token.text) :
    commentsIn (texts args) = Argument.comments args := by
  induction args with
  | nil => rfl
  | cons a args ih =>
    obtain ⟨hgap, hgaps⟩ := List.forall_mem_cons.1 hgaps
    obtain ⟨hsign, hsigns⟩ := List.forall_mem_cons.1 hsigns
    rw [texts_cons, commentsIn_word hsign, commentsIn_append hgap, ih hgaps hsigns,
      Argument.comments_cons]

/-- A new item has before it the comments of its separator. -/
theorem Invocation.comments_grown :
    (i.grown front a tail g mid x).comments =
      i.headComments ++ Argument.comments front ++ (commentsIn g ++ Argument.comments mid) ++
        Argument.comments (a :: tail) := by
  simp [Invocation.comments, Invocation.grown, Invocation.headComments]

theorem LastItem.comments_eq (hl : LastItem i front a tail) :
    i.comments = i.headComments ++ Argument.comments front ++ Argument.comments (a :: tail) := by
  simp [Invocation.comments, hl.arguments]

theorem Repeats.comments_suffix (h : Repeats front g mid) :
    commentsIn g ++ Argument.comments mid <:+ Argument.comments front := by
  cases h with
  | space => exact List.nil_suffix
  | @between rest _ b hfront =>
    rw [hfront, Argument.comments_append, Argument.comments_cons]
    exact List.suffix_append _ _

/-- What lists sources at the beginning of a text is one statement. -/
theorem Invocation.WellFormed.eq_of_read (h : i.WellFormed) (hkind : i.kind ≠ none)
    (hj : j.kind ≠ none) (hread : statement.read (i.text ++ w) = some (j, rest)) : j = i := by
  have hown : (alternative i.kind).read (i.text ++ w) = some (i, w) :=
    alternative_read_eq_some.2 ⟨rfl, rfl, h⟩
  obtain ⟨hother, -⟩ := statement_read_eq_some.1 hread
  have hsame : j.kind = i.kind := by
    rcases Scan.kind_of_command (command_eq_of_read hother hown) with heq | ⟨hnone, -⟩ | ⟨-, hnone⟩
    · exact heq
    · exact absurd hnone hj
    · exact absurd hnone hkind
  rw [hsame, hown] at hother
  exact (Prod.mk.inj (Option.some.inj hother)).1.symm

end Grammar

namespace Scan.Found
variable {k : Nat} {st : Statement} {pre post : List Segment} {i j : Invocation}
  {front tail mid : List Argument} {a : Argument} {g : Text}

/-- The comments of a separator are those of its gaps. -/
theorem comments_separator (h : Found s k st pre i post front a tail) (hsuffix : mid <:+ front)
    (hmid : ∀ c ∈ mid, c.token.IsKeyword) (hgrown : (i.grown front a tail g mid x).WellFormed) :
    commentsIn (g ++ texts mid) = commentsIn g ++ Argument.comments mid := by
  have hlaid := hgrown.laid.isGap
  have hargs : (i.grown front a tail g mid x).arguments =
      front ++ ⟨a.token, g⟩ :: (mid ++ ⟨.literal x, a.gap⟩ :: tail) := rfl
  rw [hargs] at hlaid
  have hgap : IsGap g := hlaid ⟨a.token, g⟩ (by simp)
  rw [commentsIn_append hgap, commentsIn_texts fun b hb => hlaid b (by simp [hb])]
  intro b hb hsign
  have hmem : b ∈ i.arguments := h.last.arguments ▸ List.mem_append_left _ (hsuffix.subset hb)
  rcases sound_of_accepts h.wellFormed.accepts b.token (List.mem_map_of_mem hmem) with
    hitem | ⟨w, hw, -, hword⟩
  · exact hitem.not_isKeyword (hmid b hb)
  · rw [hw] at hsign
    exact absurd (hword '#' hsign) (by decide)

end Scan.Found

/-- Only a search for a reference matches an item, and that one is in the list of the statement. -/
theorem Anchor.Lookup.matched_mem {script : Script} {lookup : Lookup}
    (h : lookup.find script = .ok anchor) :
    ∀ item ∈ anchor.matched, item ∈ anchor.statement.items := by
  have hnone : anchor.matched = none → ∀ item ∈ anchor.matched, item ∈ anchor.statement.items := by
    intro hnone item hitem
    rw [hnone] at hitem
    contradiction
  cases lookup with
  | ofTarget target => exact hnone ((ofTarget_exact.ok anchor).1 h).2
  | ofVariable name => exact hnone ((ofVariable_exact.ok anchor).1 h).2
  | ofVariableInTarget target name =>
    obtain ⟨declaration, -, huses⟩ := bind_eq_ok.1 h
    split at huses
    · exact hnone ((ofVariable_exact.ok anchor).1 huses).2
    · contradiction
  | nextTo reference =>
    obtain ⟨-, text, start, hmatched, hitem⟩ := mem_of_searchStages h
    intro item hmem
    rw [hmatched] at hmem
    cases hmem
    exact hitem

/-- What goes behind a list is an item if it is plain, and what it stands next to has no quotes. -/
theorem Scan.Found.entry {k : Nat} {pre post : List Segment} {i : Invocation}
    {front tail : List Argument} {a : Argument} {payload : Text}
    (h : Found s k anchor.statement pre i post front a tail) (ht : Plain t)
    (hmatched : ∀ item ∈ anchor.matched, item ∈ anchor.statement.items)
    (hquote : ∀ text start, anchor.matched = some (.literal text start) → '"' ∉ text)
    (hpayload : anchor.payload t = .ok payload) : Entry payload := by
  rw [Anchor.payload] at hpayload
  cases hitem : anchor.matched with
  | none =>
    rw [hitem] at hpayload
    cases hpayload
    exact ht.payload.toEntry
  | some item =>
    rw [hitem] at hpayload
    cases item with
    | reference name span => contradiction
    | literal text start =>
      obtain ⟨hi, hsettled⟩ := settled_item_of_mem_items h.wellFormed h.statement (hmatched _ hitem)
      have hnone := hquote text start hitem
      have hpath : .ok (Anchor.inDirectoryOf (Text.trim '"' text) t) = Except.ok payload := hpayload
      rw [Text.trim_of_not_mem hnone] at hpath
      cases hpath
      exact ht.entry_payload hi hsettled hnone

/-- An insertion that repeats the separator of a list loses no comment. Those between the last two
items are there once more behind the last one, and so nothing has changed exactly if there are
none. -/
theorem comments_insert {lookup : Anchor.Lookup} (hfound : lookup.find (scan s) = .ok anchor)
    (ht : Plain t) :
    ∃ ins s' i front a tail, anchor.insert t (.matching s) = .ok ins ∧ ins.apply s = .ok s' ∧
      invocationAt? s anchor.statement.span.start = some i ∧ LastItem i front a tail ∧
      commentsIn ins.separator <:+ Argument.comments front ∧
      ((∀ text start, anchor.matched = some (.literal text start) → '"' ∉ text) →
        Entry ins.payload) ∧
      (Entry ins.payload →
        (∀ j, invocationAt? s' anchor.statement.span.start = some j → j.kind ≠ none →
          j.statement? anchor.statement.span.start = some ((anchor.statement.moved ins).push
            (.literal ins.payload (ins.position + Text.size ins.separator))) ∧
          j.comments = i.headComments ++ Argument.comments front ++ commentsIn ins.separator ++
            Argument.comments (a :: tail) ∧
          (j.comments = i.comments ↔ commentsIn ins.separator = [])) ∧
        ((anchor.statement.kind = .set → anchor.statement.name ≠ "ENV".toList) →
          ∃ j, invocationAt? s' anchor.statement.span.start = some j ∧ j.kind ≠ none)) := by
  have hsearched := lookup.searched (scan s)
  rw [hfound] at hsearched
  obtain ⟨ins, s', hins, happly⟩ := hsearched.exists_insert (Or.inr rfl) t
  obtain ⟨hend, hpayload, hseparator⟩ := Anchor.insert_eq_ok.1 hins
  obtain ⟨k, hk⟩ := List.mem_iff_getElem?.1 hsearched.mem
  obtain ⟨pre, i, post, front, a, tail, h⟩ := Scan.exists_found hk
  obtain ⟨g, mid, hrepeats, hmid, hgrown, hrepeated⟩ :=
    exists_repeated h.last h.wellFormed h.statement h.text_eq
  have hbetween : ins.separator = g ++ texts mid := Except.ok.inj (hseparator.symm.trans hrepeated)
  have hcomments : commentsIn ins.separator = commentsIn g ++ Argument.comments mid := by
    rw [hbetween]
    exact h.comments_separator hrepeats.suffix hmid (hgrown ['x'] entry_letter)
  refine ⟨ins, s', i, front, a, tail, hins, happly, h.invocationAt?_eq, h.last,
    hcomments ▸ hrepeats.comments_suffix,
    fun hquote => h.entry ht (Anchor.Lookup.matched_mem hfound) hquote hpayload,
    fun hentry => ⟨fun j hj hkind => ?_, fun hname => ?_⟩⟩
  · rw [h.invocationAt?_apply hend hbetween happly] at hj
    obtain ⟨⟨j, rest⟩, hread, rfl⟩ := Option.map_eq_some_iff.1 hj
    obtain rfl : j = i.grown front a tail g mid ins.payload :=
      (hgrown _ hentry).eq_of_read h.kind hkind hread
    refine ⟨h.statement?_grown hmid hend hbetween,
      by rw [hcomments]; exact Invocation.comments_grown, ?_⟩
    rw [Invocation.comments_grown, h.last.comments_eq, ← hcomments,
      List.append_assoc _ (commentsIn _), List.append_cancel_left_eq, List.append_left_eq_self]
  · obtain ⟨j, hj, hstatement⟩ :=
      h.exists_invocationAt? hname hmid (hgrown _ hentry) hend hbetween happly
    refine ⟨j, hj, fun hnone => ?_⟩
    rw [Invocation.statement?, hnone] at hstatement
    contradiction

/-- Comments before and behind the last two items stay as they are. -/
theorem comments_insert_between :
    ∃ ins s' j,
      (Anchor.mk ⟨.set, "S".toList,
        [.literal "a.cpp".toList 13, .literal "b.cpp".toList 19], ⟨0, 32⟩⟩
        none).insert "c.cpp".toList (.matching "set(S # one\n a.cpp b.cpp # two\n)".toList) =
          .ok ins ∧
      ins.apply "set(S # one\n a.cpp b.cpp # two\n)".toList = .ok s' ∧ invocationAt? s' 0 = some j ∧
      j.comments = ["# one".toList, "# two".toList] := by
  have hfound :
      Anchor.Lookup.find (scan "set(S # one\n a.cpp b.cpp # two\n)".toList)
        (.ofVariable "S".toList) =
      .ok ⟨⟨.set, "S".toList, [.literal "a.cpp".toList 13, .literal "b.cpp".toList 19], ⟨0, 32⟩⟩,
        none⟩ := by
    decide +kernel
  have hseparator : (Spacing.matching "set(S # one\n a.cpp b.cpp # two\n)".toList).separator
      [.literal "a.cpp".toList 13, .literal "b.cpp".toList 19] = .ok " ".toList := by decide +kernel
  have hcomments :
      (invocationAt? "set(S # one\n a.cpp b.cpp # two\n)".toList 0).map Invocation.comments =
      some ["# one".toList, "# two".toList] := by decide +kernel
  have hplain : Plain "c.cpp".toList := ⟨by decide, by decide, by decide, by decide⟩
  obtain ⟨ins, s', i, front, a, tail, hins, happly, hi, -, -, hentry, hread⟩ :=
    comments_insert hfound hplain
  obtain ⟨hbehind, hexists⟩ := hread (hentry fun text start h => by contradiction)
  obtain ⟨j, hj, hkind⟩ := hexists fun _ => by decide
  obtain ⟨-, -, hsame⟩ := hbehind j hj hkind
  have hspace : " ".toList = ins.separator :=
    Except.ok.inj (hseparator.symm.trans (Anchor.insert_eq_ok.1 hins).2.2)
  rw [hi, Option.map_some, Option.some.injEq] at hcomments
  exact ⟨ins, s', j, hins, happly, hj, (hsame.2 (by rw [← hspace]; decide)).trans hcomments⟩

/-- A comment between the last two items is copied. -/
theorem comments_insert_copied :
    Anchor.ofVariable (scan "set(S a.cpp # one\n b.cpp)".toList) "S".toList =
        .ok ⟨⟨.set, "S".toList, [.literal "a.cpp".toList 6, .literal "b.cpp".toList 19], ⟨0, 25⟩⟩,
          none⟩ ∧
      (Anchor.mk ⟨.set, "S".toList,
        [.literal "a.cpp".toList 6, .literal "b.cpp".toList 19], ⟨0, 25⟩⟩
        none).insert "c.cpp".toList (.matching "set(S a.cpp # one\n b.cpp)".toList) =
          .ok ⟨24, " # one\n ".toList, "c.cpp".toList⟩ ∧
      (Insertion.mk 24 " # one\n ".toList "c.cpp".toList).apply
        "set(S a.cpp # one\n b.cpp)".toList =
        .ok "set(S a.cpp # one\n b.cpp # one\n c.cpp)".toList ∧
      (invocationAt? "set(S a.cpp # one\n b.cpp)".toList 0).map Invocation.comments =
        some ["# one".toList] ∧
      (invocationAt? "set(S a.cpp # one\n b.cpp # one\n c.cpp)".toList 0).map Invocation.comments =
        some ["# one".toList, "# one".toList] ∧
      (invocationAt? "set(S a.cpp # one\n b.cpp # one\n c.cpp)".toList 0).map Invocation.comments ≠
        (invocationAt? "set(S a.cpp # one\n b.cpp)".toList 0).map Invocation.comments := by
  decide +kernel

end SourceLists
