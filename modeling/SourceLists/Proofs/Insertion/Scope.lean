import SourceLists.Proofs.Insertion.Interleaving
import SourceLists.Proofs.Insertion.Success
import SourceLists.Proofs.Reading.Alike
import SourceLists.Proofs.Scanning.Division

/-! A new item in a list with groups has the scope of the last item there, and no other item changes
its scope. -/

namespace SourceLists
open Grammar Grammar.Argument

variable {s s' x reference : Text} {anchor : Anchor} {spacing : Spacing} {w : Text}
  {place start m n : Nat}

/-- The invocation that is read at an offset of a text. -/
def invocationAt? (s : Text) (start : Nat) : Option Invocation :=
  (Text.splitAt? s start).bind fun (_, behind) => (statement.read behind).map Prod.fst

section words
variable {words later : List (Nat × Text)}

end words

namespace Grammar
variable {i j : Invocation} {front mid tail args : List Argument} {a : Argument}
  {g before after : Text}

theorem invocationAt?_append :
    invocationAt? (before ++ after) (Text.size before) = (statement.read after).map Prod.fst := by
  rw [invocationAt?, Text.splitAt?_size_append]
  rfl

theorem entry_letter : Entry ['x'] :=
  (Plain.payload ⟨by decide, by decide, by decide, by decide⟩).toEntry

end Grammar

namespace Scan.Found
variable {k : Nat} {st : Statement} {pre post : List Segment} {i : Invocation}
  {front tail : List Argument} {a : Argument}

/-- Each way to choose a separator repeats what stands before the last item, or puts a space. -/
theorem exists_separator (h : Found s k st pre i post front a tail)
    (hspacing : spacing = .single ∨ spacing = .matching s) :
    ∃ g mid, mid <:+ front ∧ (∀ c ∈ mid, c.token.IsKeyword) ∧
      (∀ x, Entry x → (i.grown front a tail g mid x).WellFormed) ∧
      spacing.separator st.items = .ok (g ++ texts mid) := by
  rcases hspacing with rfl | rfl
  · exact ⟨[' '], [], List.nil_suffix, by simp,
      fun x hx => h.last.wellFormed_pushed h.wellFormed h.kind hx, rfl⟩
  · obtain ⟨g, mid, hrepeats, hmid, hgrown, hseparator⟩ :=
      exists_repeated h.last h.wellFormed h.statement h.text_eq
    exact ⟨g, mid, hrepeats.suffix, hmid, hgrown, hseparator⟩

variable {ins : Insertion} {g : Text} {mid : List Argument} {j : Invocation}

theorem position_eq (h : Found s k st pre i post front a tail) (hend : st.listEnd? = some m) :
    m = st.span.start + Text.size i.head + Text.size (texts front) + Text.size a.token.text := by
  rw [h.listEnd?_eq, Option.some.injEq] at hend
  rw [← hend, h.start_eq]
  simp only [Invocation.upTo, Text.size_append, Nat.add_assoc]

theorem invocationAt?_eq (h : Found s k st pre i post front a tail) :
    invocationAt? s st.span.start = some i := by
  have hat : invocationAt? s (Text.size (pre.flatMap Segment.text)) = _ :=
    congrArg (invocationAt? · _) h.text_eq
  rw [h.start_eq, hat, invocationAt?_append, statement_read_of_segments h.segments_eq]
  rfl

/-- An insertion behind the list of a statement leaves alone what stands before that place. -/
theorem apply_eq_append (h : Found s k st pre i post front a tail)
    (hend : st.listEnd? = some ins.position) :
    ins.apply s = .ok (pre.flatMap Segment.text ++ (i.upTo front a ++ (ins.separator ++
      (ins.payload ++ (a.gap ++ (texts tail ++ ')' :: post.flatMap Segment.text)))))) := by
  rw [h.listEnd?_eq, Option.some.injEq] at hend
  rw [h.text_append, Insertion.apply_append hend]
  simp [Insertion.content]

/-- A list that goes on with an entry is that of the statement with a new item. -/
theorem statement?_grown (h : Found s k st pre i post front a tail)
    (hmid : ∀ c ∈ mid, c.token.IsKeyword) (hend : st.listEnd? = some ins.position)
    (hseparator : ins.separator = g ++ texts mid) :
    (i.grown front a tail g mid ins.payload).statement? st.span.start =
      some ((st.moved ins).push
        (.literal ins.payload (ins.position + Text.size ins.separator))) := by
  have hst := h.statement
  rw [h.listEnd?_eq, Option.some.injEq, Text.size_append] at hend
  rw [← h.start_eq] at hst hend
  exact h.last.statement?_grown (fun _ => itemsAt_keywords hmid) hst (by rw [hend, ← hseparator])

/-- What is read at the place of the statement after an insertion, begins with the longer
statement. -/
theorem invocationAt?_apply (h : Found s k st pre i post front a tail)
    (hend : st.listEnd? = some ins.position) (hseparator : ins.separator = g ++ texts mid)
    (happly : ins.apply s = .ok s') :
    invocationAt? s' st.span.start = (Grammar.statement.read
      ((i.grown front a tail g mid ins.payload).text ++ post.flatMap Segment.text)).map
        Prod.fst := by
  rw [h.apply_eq_append hend, Except.ok.injEq] at happly
  rw [← happly, h.start_eq, invocationAt?_append, hseparator, Invocation.grown_text_append]
  simp only [List.append_assoc]

/-- Where the list has a new entry, the statement is read with it. -/
theorem exists_invocationAt? (h : Found s k st pre i post front a tail)
    (hname : st.kind = .set → st.name ≠ "ENV".toList) (hmid : ∀ c ∈ mid, c.token.IsKeyword)
    (hgrown : (i.grown front a tail g mid ins.payload).WellFormed)
    (hend : st.listEnd? = some ins.position) (hseparator : ins.separator = g ++ texts mid)
    (happly : ins.apply s = .ok s') :
    ∃ j, invocationAt? s' st.span.start = some j ∧ j.statement? st.span.start =
      some ((st.moved ins).push
        (.literal ins.payload (ins.position + Text.size ins.separator))) := by
  refine ⟨i.grown front a tail g mid ins.payload, ?_, h.statement?_grown hmid hend hseparator⟩
  rw [h.invocationAt?_apply hend hseparator happly, hgrown.read_text]
  · rfl
  · intro hset
    rw [show (i.grown front a tail g mid ins.payload).kind = some st.kind from h.kind_eq,
      Option.some.injEq] at hset
    exact hgrown.alternative_none h.kind (h.name_eq.trans_ne (hname hset))

end Scan.Found

end SourceLists
