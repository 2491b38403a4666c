import SourceLists.Insertion.ClassFiles
import SourceLists.Proofs.Insertion.Reference
import SourceLists.Proofs.Insertion.Separator

/-! In a script that was scanned only a search can fail. Where a place is found, the insertion can
be made and applied. -/

namespace SourceLists

variable {s : Text} {n m : Nat} {script : Script} {st : Statement} {anchor : Anchor}
  {spacing : Spacing}

namespace Text

theorem IsBoundary.exists_splitAt? (h : IsBoundary s n) :
    ∃ before after, splitAt? s n = some (before, after) := by
  obtain ⟨before, after, rfl, rfl⟩ := h
  exact ⟨before, after, splitAt?_size_append⟩

theorem IsBoundary.exists_slice? (hn : IsBoundary s n) (hm : IsBoundary s m) (hle : n ≤ m) :
    ∃ t, slice? s n m = some t := by
  obtain ⟨x, y, rfl, rfl⟩ := hn
  obtain ⟨z, w, hs, rfl⟩ := hm
  rcases List.append_eq_append_iff.1 hs with ⟨t, rfl, rfl⟩ | ⟨t, rfl, rfl⟩
  · exact ⟨t, by rw [size_append]; exact slice?_append⟩
  · have ht : t = [] := by
      rw [size_append] at hle
      exact size_eq_zero.1 (by omega)
    rw [ht, List.append_nil]
    exact ⟨[], slice?_append (t := [])⟩

end Text

section results

variable {α β ε ε' : Type} {x : Except ε α} {f : α → Except ε β} {g : ε → ε'} {a : α} {b : β}
  {e : ε}

theorem bind_eq_ok : x >>= f = .ok b ↔ ∃ a, x = .ok a ∧ f a = .ok b := by
  cases x with
  | error e => exact ⟨fun h => by contradiction, fun ⟨_, h, _⟩ => by contradiction⟩
  | ok a => exact ⟨fun h => ⟨a, rfl, h⟩, fun ⟨_, h, hf⟩ => Except.ok.inj h ▸ hf⟩

theorem bind_eq_error : x >>= f = .error e ↔ x = .error e ∨ ∃ a, x = .ok a ∧ f a = .error e := by
  cases x with
  | error cause =>
    refine ⟨fun h => Or.inl (congrArg _ (Except.error.inj h)), ?_⟩
    rintro (h | ⟨_, h, _⟩)
    · exact congrArg _ (Except.error.inj h)
    · contradiction
  | ok a =>
    refine ⟨fun h => Or.inr ⟨a, rfl, h⟩, ?_⟩
    rintro (h | ⟨_, h, hf⟩)
    · contradiction
    · exact Except.ok.inj h ▸ hf

theorem mapError_eq_ok : x.mapError g = .ok a ↔ x = .ok a := by
  cases x with
  | error e => exact ⟨fun h => by contradiction, fun h => by contradiction⟩
  | ok a => exact ⟨fun h => congrArg _ (Except.ok.inj h), fun h => congrArg _ (Except.ok.inj h)⟩

end results

theorem scan_located (s : Text) : (scan s).LocatedIn s := by
  have hs : s = [] ++ ((Scan.segments none s).flatMap Scan.Segment.text ++ []) := by
    rw [Scan.flatMap_segments, List.append_nil, List.nil_append]
  exact Scan.statementsAt_located hs fun i => Scan.wellFormed_of_mem_segments

namespace Statement.LocatedIn

/-- A list ends where something can be inserted. -/
theorem exists_listEnd (h : st.LocatedIn s) :
    ∃ position, st.listEnd? = some position ∧ Text.IsBoundary s position := by
  obtain ⟨item, hitem⟩ := Option.ne_none_iff_exists'.1 (mt List.getLast?_eq_none_iff.1 h.nonempty)
  have hinside := (h.items item (List.mem_of_getLast? hitem)).1
  exact ⟨item.span.stop, by rw [listEnd?, hitem]; rfl, hinside.stop⟩

/-- Two items that follow each other are apart, with a text between them. -/
theorem exists_between {items : List Item} {previous last : Item} (h : st.LocatedIn s)
    (hitems : st.items = items ++ [previous, last]) :
    ∃ t, Text.slice? s previous.span.stop last.span.start = some t := by
  have hapart : previous.span.stop < last.span.start := by
    have hpairwise := h.apart
    rw [hitems, List.pairwise_append] at hpairwise
    exact List.rel_of_pairwise_cons hpairwise.2.1 (List.mem_singleton_self last)
  have hprevious := (h.items previous (by simp [hitems])).1
  have hlast := (h.items last (by simp [hitems])).1
  exact hprevious.stop.exists_slice? hlast.start (Nat.le_of_lt hapart)

/-- A list has a separator in its own script. -/
theorem exists_separator (h : st.LocatedIn s)
    (hspacing : spacing = .single ∨ spacing = .matching s) :
    ∃ separator, spacing.separator st.items = .ok separator := by
  rcases hspacing with rfl | rfl
  · exact ⟨[' '], rfl⟩
  · rcases List.eq_nil_or_concat st.items with hitems | ⟨front, last, hitems⟩
    · exact absurd hitems h.nonempty
    · rcases List.eq_nil_or_concat front with rfl | ⟨items, previous, rfl⟩
      · rw [hitems]
        exact ⟨[' '], rfl⟩
      · have hitems' : st.items = items ++ [previous, last] := by rw [hitems]; simp
        obtain ⟨separator, hslice⟩ := h.exists_between hitems'
        refine ⟨separator, ?_⟩
        simp only [Spacing.separator, hitems', separatorOf_concat hslice]

end Statement.LocatedIn

namespace Anchor

/-- The anchor is a statement of the script; an item by which it was found is a literal. -/
structure FoundIn (script : Script) (anchor : Anchor) : Prop where
  mem : anchor.statement ∈ script
  literal : ∀ item ∈ anchor.matched, ∃ text start, item = .literal text start

/-- What a search in a script comes to: a place in it, or that there is none, or more than one. -/
def Searched (script : Script) : Except InsertError Anchor → Prop
  | .ok anchor => anchor.FoundIn script
  | .error e => e.category ≠ .structural

/-- The ways to look for a place. -/
inductive Lookup
  | ofTarget (target : Text)
  | ofVariable (name : Text)
  | ofVariableInTarget (target name : Text)
  | nextTo (reference : Text)

def Lookup.find (script : Script) : Lookup → Except InsertError Anchor
  | ofTarget target => Anchor.ofTarget script target
  | ofVariable name => Anchor.ofVariable script name
  | ofVariableInTarget target name => Anchor.ofVariableInTarget script target name
  | nextTo reference => Anchor.nextTo script reference

/-- A search for the one statement of a kind. -/
theorem searched_filter (script : Script) (p : Statement → Bool) {missing : InsertError}
    {several : List Statement → InsertError} (hmissing : missing.category ≠ .structural)
    (hseveral : ∀ found, (several found).category ≠ .structural) :
    Searched script (match script.filter p with
      | [] => .error missing
      | [st] => .ok ⟨st, none⟩
      | found => .error (several found)) := by
  split
  · exact hmissing
  · next st hst =>
    refine ⟨List.mem_of_mem_filter (hst ▸ List.mem_singleton_self st), fun item hitem => ?_⟩
    contradiction
  · exact hseveral _

theorem foundIn_of_findIn (script : Script) (reference : Text) (stage : Stage) :
    ∀ anchor ∈ findIn script reference stage, anchor.FoundIn script := by
  intro anchor hanchor
  obtain ⟨hmem, text, start, hmatched, -⟩ := mem_of_findIn hanchor
  refine ⟨hmem, fun item hitem => ⟨text, start, ?_⟩⟩
  rw [hmatched] at hitem
  exact (Option.some.inj hitem).symm

theorem searched_ofTarget (script : Script) (target : Text) :
    Searched script (ofTarget script target) :=
  searched_filter script _ (by simp [InsertError.category]) (by simp [InsertError.category])

theorem searched_ofVariable (script : Script) (name : Text) :
    Searched script (ofVariable script name) :=
  searched_filter script _ (by simp [InsertError.category]) (by simp [InsertError.category])

theorem searched_ofVariableInTarget (script : Script) (target name : Text) :
    Searched script (ofVariableInTarget script target name) := by
  rw [ofVariableInTarget]
  have htarget := searched_ofTarget script target
  cases hdeclaration : ofTarget script target with
  | error e => rwa [hdeclaration] at htarget
  | ok declaration =>
    change Searched script (if declaration.statement.refersTo name then ofVariable script name
      else .error (.variableNotUsed name target))
    split
    · exact searched_ofVariable script name
    · simp [Searched, InsertError.category]

theorem searched_searchStages (script : Script) (reference : Text) (stages : List Stage) :
    Searched script (searchStages script reference stages) := by
  induction stages with
  | nil => simp [searchStages, Searched, InsertError.category]
  | cons stage later ih =>
    have hfound := foundIn_of_findIn script reference stage
    rw [searchStages]
    generalize findIn script reference stage = found at hfound ⊢
    rcases found with - | ⟨anchor, - | ⟨second, more⟩⟩
    · exact ih
    · exact hfound anchor (List.mem_singleton_self anchor)
    · simp [Searched, InsertError.category]

theorem Lookup.searched (lookup : Lookup) (script : Script) :
    Searched script (lookup.find script) := by
  cases lookup with
  | ofTarget target => exact searched_ofTarget script target
  | ofVariable name => exact searched_ofVariable script name
  | ofVariableInTarget target name => exact searched_ofVariableInTarget script target name
  | nextTo reference => exact searched_searchStages script reference _

theorem FoundIn.exists_payload (h : anchor.FoundIn script) (item : Text) :
    ∃ payload, anchor.payload item = .ok payload := by
  rw [payload]
  cases hmatched : anchor.matched with
  | none => exact ⟨item, rfl⟩
  | some reference =>
    obtain ⟨text, start, rfl⟩ := h.literal reference hmatched
    exact ⟨_, rfl⟩

/-- An insertion has its place, its payload and its separator, if there are all three. -/
theorem insert_eq_ok {item : Text} {ins : Insertion} :
    anchor.insert item spacing = .ok ins ↔
      anchor.statement.listEnd? = some ins.position ∧ anchor.payload item = .ok ins.payload ∧
        spacing.separator anchor.statement.items = .ok ins.separator := by
  rw [insert]
  cases anchor.statement.listEnd? with
  | none => exact ⟨fun h => by contradiction, fun h => by simp at h⟩
  | some position =>
    change ((anchor.payload item).mapError InsertError.path >>= fun payload =>
      (spacing.separator anchor.statement.items).mapError InsertError.separator >>= fun separator =>
        pure (Insertion.mk position separator payload)) = .ok ins ↔ _
    simp only [bind_eq_ok, mapError_eq_ok]
    constructor
    · rintro ⟨payload, hpayload, separator, hseparator, h⟩
      cases h
      exact ⟨rfl, hpayload, hseparator⟩
    · rintro ⟨hposition, hpayload, hseparator⟩
      cases hposition
      exact ⟨_, hpayload, _, hseparator, rfl⟩

/-- Where a place is found in a script, the insertion is made and can be applied. -/
theorem FoundIn.exists_insert (h : anchor.FoundIn (scan s))
    (hspacing : spacing = .single ∨ spacing = .matching s) (item : Text) :
    ∃ ins s', anchor.insert item spacing = .ok ins ∧ ins.apply s = .ok s' := by
  have hlocated := (scan_located s).statements anchor.statement h.mem
  obtain ⟨position, hend, hboundary⟩ := hlocated.exists_listEnd
  obtain ⟨payload, hpayload⟩ := h.exists_payload item
  obtain ⟨separator, hseparator⟩ := hlocated.exists_separator hspacing
  obtain ⟨before, after, hsplit⟩ := hboundary.exists_splitAt?
  refine ⟨⟨position, separator, payload⟩, _, ?_, by rw [Insertion.apply, hsplit]⟩
  exact insert_eq_ok.2 ⟨hend, hpayload, hseparator⟩

end Anchor

/-- What keeps a class from being added: a file of the other class that is nowhere, or in several
places. -/
inductive ClassError.OfSearch (extensions : Extensions) (reference : Text) : ClassError → Prop
  | notFound (role : FileRole) :
    OfSearch extensions reference (.notFound role reference (extensions.ofRole role))
  | ambiguous (role : FileRole) {extension : Text} {cause : InsertError}
      (mem : extension ∈ extensions.ofRole role) (category : cause.category = .ambiguous) :
      OfSearch extensions reference (.insert role (reference ++ extension) cause)

namespace ClassInsertions

/-- One extension after the other: the file is found, or the search ends, or it goes on. -/
theorem findReference_cases (script : Script) (extensions : Extensions) (reference : Text)
    (role : FileRole) {later : List Text} (hlater : ∀ x ∈ later, x ∈ extensions.ofRole role) :
    (∃ anchor extension, findReference script reference role (extensions.ofRole role) later =
      .ok (anchor, extension) ∧ anchor.FoundIn script) ∨
    ∃ e, findReference script reference role (extensions.ofRole role) later = .error e ∧
      e.OfSearch extensions reference := by
  induction later with
  | nil => exact Or.inr ⟨_, rfl, .notFound role⟩
  | cons extension later ih =>
    obtain ⟨hextension, hlater⟩ := List.forall_mem_cons.1 hlater
    have hsearched : Anchor.Searched script (Anchor.nextTo script (reference ++ extension)) :=
      Anchor.searched_searchStages script _ _
    rw [findReference]
    cases hnext : Anchor.nextTo script (reference ++ extension) with
    | ok anchor =>
      rw [hnext] at hsearched
      exact Or.inl ⟨anchor, extension, rfl, hsearched⟩
    | error cause =>
      have hstructural : cause.category ≠ .structural := by rwa [hnext] at hsearched
      by_cases hnone : cause.category = .notFound
      · simpa only [hnone, if_true] using ih hlater
      · refine Or.inr ⟨_, if_neg hnone, .ambiguous role hextension ?_⟩
        cases hcategory : cause.category with
        | notFound => exact absurd hcategory hnone
        | ambiguous => rfl
        | structural => exact absurd hcategory hstructural

variable (extensions : Extensions) (name reference : Text) (role : FileRole)

theorem insertFile_cases (hspacing : spacing = .single ∨ spacing = .matching s) :
    (∃ ins s', insertFile (scan s) extensions name reference spacing role = .ok ins ∧
      ins.apply s = .ok s') ∨
    ∃ e, insertFile (scan s) extensions name reference spacing role = .error e ∧
      e.OfSearch extensions reference := by
  rw [insertFile]
  rcases findReference_cases (scan s) extensions reference role fun _ hx => hx with
    ⟨anchor, extension, hfound, hanchor⟩ | ⟨e, herror, he⟩
  · obtain ⟨ins, s', hins, happly⟩ := hanchor.exists_insert hspacing (name ++ extension)
    refine Or.inl ⟨ins, s', ?_, happly⟩
    rw [hfound]
    change (anchor.insert (name ++ extension) spacing).mapError _ = _
    rw [hins]
    rfl
  · refine Or.inr ⟨e, ?_, he⟩
    rw [herror]
    rfl

/-- A class is added with both of its files, unless the search for one of the other class fails. -/
theorem nextTo_cases (hspacing : spacing = .single ∨ spacing = .matching s) :
    (∃ c header implementation, nextTo (scan s) extensions name reference spacing = .ok c ∧
      c.header.apply s = .ok header ∧ c.implementation.apply s = .ok implementation) ∨
    ∃ e, nextTo (scan s) extensions name reference spacing = .error e ∧
      e.OfSearch extensions reference := by
  rw [nextTo]
  rcases insertFile_cases extensions name reference .header hspacing with
    ⟨header, h, hheader, happlyh⟩ | ⟨e, herror, he⟩
  · rw [hheader]
    rcases insertFile_cases extensions name reference .implementation hspacing with
      ⟨implementation, m, himplementation, happlym⟩ | ⟨e, herror, he⟩
    · rw [himplementation]
      exact Or.inl ⟨⟨header, implementation⟩, h, m, rfl, happlyh, happlym⟩
    · rw [herror]
      exact Or.inr ⟨e, rfl, he⟩
  · rw [herror]
    exact Or.inr ⟨e, rfl, he⟩

end ClassInsertions

/-- In a script that was scanned an insertion fails only if nothing is found, or too much. A place
that is found takes any item, and a class is added unless the search for a file of the other class
fails. -/
theorem insert_into_scan (hspacing : spacing = .single ∨ spacing = .matching s) :
    (∀ (lookup : Anchor.Lookup) (anchor : Anchor) (item : Text), lookup.find (scan s) = .ok anchor →
        ∃ ins s', anchor.insert item spacing = .ok ins ∧ ins.apply s = .ok s') ∧
      (∀ (lookup : Anchor.Lookup) (e : InsertError), lookup.find (scan s) = .error e →
        e.category ≠ .structural) ∧
      ∀ (extensions : Extensions) (name reference : Text),
        (∃ c header implementation, ClassInsertions.nextTo
          (scan s) extensions name reference spacing = .ok c ∧
          c.header.apply s = .ok header ∧ c.implementation.apply s = .ok implementation) ∨
        ∃ e, ClassInsertions.nextTo (scan s) extensions name reference spacing = .error e ∧
          e.OfSearch extensions reference := by
  refine ⟨fun lookup anchor item h => ?_, fun lookup e h => ?_, fun extensions name reference => ?_⟩
  · have hsearched := lookup.searched (scan s)
    rw [h] at hsearched
    exact hsearched.exists_insert hspacing item
  · have hsearched := lookup.searched (scan s)
    rwa [h] at hsearched
  · exact ClassInsertions.nextTo_cases extensions name reference hspacing

/-- The comment between two files is copied to where a third one goes. -/
theorem insert_into_scan_commented :
    ∃ ins s',
      (Anchor.mk ⟨.set, "A".toList, [.literal "b.h".toList 6, .literal "b.c".toList 16], ⟨0, 20⟩⟩
        (some (.literal "b.h".toList 6))).insert "d.h".toList
          (.matching "set(A b.h # e\n  b.c)".toList) =
          .ok ins ∧
      ins.apply "set(A b.h # e\n  b.c)".toList = .ok s' := by
  have hfound : Anchor.nextTo (scan "set(A b.h # e\n  b.c)".toList) "b.h".toList =
      .ok ⟨⟨.set, "A".toList, [.literal "b.h".toList 6, .literal "b.c".toList 16], ⟨0, 20⟩⟩,
        some (.literal "b.h".toList 6)⟩ := by decide +kernel
  exact (insert_into_scan (Or.inr rfl)).1 (.nextTo "b.h".toList) _ "d.h".toList hfound

end SourceLists
