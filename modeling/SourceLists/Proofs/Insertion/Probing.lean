import SourceLists.Proofs.Insertion.ClassFiles
import SourceLists.Proofs.Insertion.Lookup

/-! The file of a class is looked for with one extension after the other. The first lookup that does
not come to nothing decides, whether it succeeds or not. -/

namespace SourceLists

variable {script : Script} {name reference extension : Text} {spacing : Spacing} {anchor : Anchor}

namespace Anchor

/-- The reference is nowhere. -/
def Missing (script : Script) (reference : Text) : Prop :=
  ∃ cause, nextTo script reference = .error cause ∧ cause.category = .notFound

theorem missing_iff : Missing script reference ↔
    ∀ st ∈ script, ∀ item ∈ st.items, ¬ item.Matches reference := by
  rw [← nextTo_eq_notFound_iff]
  refine ⟨?_, fun h => ⟨_, h, rfl⟩⟩
  rintro ⟨cause, hcause, hcategory⟩
  by_cases hsome : ∃ st ∈ script, ∃ item ∈ st.items, item.Matches reference
  · have hnot : ∀ anchor, nextTo script reference ≠ .ok anchor := by
      intro anchor hok
      rw [hok] at hcause
      contradiction
    obtain ⟨stage, -, hambiguous⟩ := exists_ambiguous hsome hnot
    rw [hambiguous] at hcause
    cases hcause
    contradiction
  · push Not at hsome
    exact nextTo_of_not hsome

instance : DecidablePred (Missing script) := fun _ => decidable_of_iff _ missing_iff.symm

theorem not_missing_of_ok (h : nextTo script reference = .ok anchor) :
    ¬ Missing script reference := by
  rintro ⟨cause, hcause, -⟩
  rw [h] at hcause
  contradiction

/-- A lookup that fails with something found has found too much. -/
theorem category_eq_ambiguous {cause : InsertError} (h : nextTo script reference = .error cause)
    (hfound : ¬ Missing script reference) : cause.category = .ambiguous := by
  have hsearched : Searched script (nextTo script reference) :=
    searched_searchStages script reference _
  rw [h] at hsearched
  cases hcategory : cause.category with
  | notFound => exact absurd ⟨cause, h, hcategory⟩ hfound
  | ambiguous => rfl
  | structural => exact absurd hcategory hsearched

end Anchor

namespace ClassInsertions
open Anchor (Missing)

variable {extensions : Extensions} {role : FileRole} {candidates tried later : List Text}
  {result : Except ClassError Insertion} {e : ClassError} {c : ClassInsertions}

/-- The first candidate with which the reference is not missing. -/
def Decisive (script : Script) (reference : Text) (candidates : List Text)
    (extension : Text) : Prop :=
  FirstIn (fun x => ¬ Missing script (reference ++ x)) candidates extension

/-- What looking for one file of a class comes to. The extension that decides is that of the new
file. -/
inductive Probed (script : Script) (name reference : Text) (spacing : Spacing) (role : FileRole)
    (candidates : List Text) : Except ClassError Insertion → Prop
  | notFound (missing : ∀ x ∈ candidates, Missing script (reference ++ x)) :
      Probed script name reference spacing role candidates
        (.error (.notFound role reference candidates))
  | ambiguous {extension : Text} {cause : InsertError}
      (decisive : Decisive script reference candidates extension)
      (lookup : Anchor.nextTo script (reference ++ extension) = .error cause)
      (category : cause.category = .ambiguous) :
      Probed script name reference spacing role candidates
        (.error (.insert role (reference ++ extension) cause))
  | refused {extension : Text} {anchor : Anchor} {cause : InsertError}
      (decisive : Decisive script reference candidates extension)
      (lookup : Anchor.nextTo script (reference ++ extension) = .ok anchor)
      (insert : anchor.insert (name ++ extension) spacing = .error cause) :
      Probed script name reference spacing role candidates
        (.error (.insert role (reference ++ extension) cause))
  | placed {extension : Text} {anchor : Anchor} {ins : Insertion}
      (decisive : Decisive script reference candidates extension)
      (lookup : Anchor.nextTo script (reference ++ extension) = .ok anchor)
      (insert : anchor.insert (name ++ extension) spacing = .ok ins) :
      Probed script name reference spacing role candidates (.ok ins)

theorem missing_or_decisive (script : Script) (reference : Text) (candidates : List Text) :
    (∀ x ∈ candidates, Missing script (reference ++ x)) ∨
      ∃ extension, Decisive script reference candidates extension := by
  by_cases h : ∃ x ∈ candidates, ¬ Missing script (reference ++ x)
  · exact Or.inr (exists_firstIn h)
  · push Not at h
    exact Or.inl h

/-- A candidate with which the reference is missing does not count. -/
theorem findReference_append {before : List Text}
    (h : ∀ x ∈ before, Missing script (reference ++ x)) :
    findReference script reference role tried (before ++ later) =
      findReference script reference role tried later := by
  induction before with
  | nil => rfl
  | cons x before ih =>
    obtain ⟨⟨cause, hcause, hcategory⟩, hbefore⟩ := List.forall_mem_cons.1 h
    rw [List.cons_append, findReference, hcause]
    simp only [hcategory, if_true]
    exact ih hbefore

theorem findReference_of_missing (h : ∀ x ∈ later, Missing script (reference ++ x)) :
    findReference script reference role tried later = .error (.notFound role reference tried) := by
  rw [← List.append_nil later, findReference_append h, findReference]

theorem Decisive.findReference_of_ok (h : Decisive script reference candidates extension)
    (hlookup : Anchor.nextTo script (reference ++ extension) = .ok anchor) :
    findReference script reference role tried candidates = .ok (anchor, extension) := by
  obtain ⟨before, after, rfl, -, hmissing⟩ := h
  rw [findReference_append fun x hx => not_not.1 (hmissing x hx), findReference, hlookup]

theorem Decisive.findReference_of_error {cause : InsertError}
    (h : Decisive script reference candidates extension)
    (hlookup : Anchor.nextTo script (reference ++ extension) = .error cause) :
    findReference script reference role tried candidates =
      .error (.insert role (reference ++ extension) cause) := by
  obtain ⟨before, after, rfl, hfound, hmissing⟩ := h
  rw [findReference_append fun x hx => not_not.1 (hmissing x hx), findReference, hlookup]
  exact if_neg fun hcategory => hfound ⟨cause, hlookup, hcategory⟩

theorem findReference_eq_ok_iff :
    findReference script reference role tried candidates = .ok (anchor, extension) ↔
      Decisive script reference candidates extension ∧
        Anchor.nextTo script (reference ++ extension) = .ok anchor := by
  refine ⟨fun h => ?_, fun h => h.1.findReference_of_ok h.2⟩
  rcases missing_or_decisive script reference candidates with hmissing | ⟨x, hdecisive⟩
  · rw [findReference_of_missing hmissing] at h
    contradiction
  · cases hlookup : Anchor.nextTo script (reference ++ x) with
    | error cause =>
      rw [hdecisive.findReference_of_error hlookup] at h
      contradiction
    | ok found =>
      rw [hdecisive.findReference_of_ok hlookup] at h
      cases h
      exact ⟨hdecisive, hlookup⟩

theorem Probed.insertFile_eq
    (h : Probed script name reference spacing role (extensions.ofRole role) result) :
    insertFile script extensions name reference spacing role = result := by
  rw [insertFile]
  cases h with
  | notFound hmissing => rw [findReference_of_missing hmissing]; rfl
  | ambiguous hdecisive hlookup => rw [hdecisive.findReference_of_error hlookup]; rfl
  | refused hdecisive hlookup hinsert | placed hdecisive hlookup hinsert =>
    rw [hdecisive.findReference_of_ok hlookup]
    change (Anchor.insert _ _ _).mapError _ = _
    rw [hinsert]
    rfl

/-- Each role comes to something. -/
theorem exists_probed (script : Script) (name reference : Text) (spacing : Spacing)
    (role : FileRole) (candidates : List Text) :
    ∃ result, Probed script name reference spacing role candidates result := by
  rcases missing_or_decisive script reference candidates with hmissing | ⟨extension, hdecisive⟩
  · exact ⟨_, .notFound hmissing⟩
  · have hfound : ¬ Missing script (reference ++ extension) := by
      obtain ⟨-, -, -, hfound, -⟩ := hdecisive
      exact hfound
    cases hlookup : Anchor.nextTo script (reference ++ extension) with
    | error cause =>
      exact ⟨_, .ambiguous hdecisive hlookup (Anchor.category_eq_ambiguous hlookup hfound)⟩
    | ok anchor =>
      cases hinsert : anchor.insert (name ++ extension) spacing with
      | error cause => exact ⟨_, .refused hdecisive hlookup hinsert⟩
      | ok ins => exact ⟨_, .placed hdecisive hlookup hinsert⟩

theorem insertFile_eq_iff : insertFile script extensions name reference spacing role = result ↔
    Probed script name reference spacing role (extensions.ofRole role) result := by
  refine ⟨?_, Probed.insertFile_eq⟩
  rintro rfl
  obtain ⟨result, hprobed⟩ :=
    exists_probed script name reference spacing role (extensions.ofRole role)
  rwa [hprobed.insertFile_eq]

theorem nextTo_eq_ok_iff : nextTo script extensions name reference spacing = .ok c ↔
    insertFile script extensions name reference spacing .header = .ok c.header ∧
      insertFile script extensions name reference spacing .implementation =
        .ok c.implementation := by
  refine ⟨nextTo_eq_ok, ?_⟩
  rintro ⟨hheader, himplementation⟩
  rw [nextTo, hheader, himplementation]
  rfl

/-- The header is looked for first. -/
theorem nextTo_eq_error_iff : nextTo script extensions name reference spacing = .error e ↔
    insertFile script extensions name reference spacing .header = .error e ∨
      (∃ ins, insertFile script extensions name reference spacing .header = .ok ins) ∧
        insertFile script extensions name reference spacing .implementation = .error e := by
  simp only [nextTo, bind_eq_error]
  constructor
  · rintro (h | ⟨header, hheader, h | ⟨implementation, -, h⟩⟩)
    · exact Or.inl h
    · exact Or.inr ⟨⟨header, hheader⟩, h⟩
    · contradiction
  · rintro (h | ⟨⟨header, hheader⟩, h⟩)
    · exact Or.inl h
    · exact Or.inr ⟨header, hheader, Or.inl h⟩

/-- A class is added if both of its files find their place, and with just these two insertions.
Otherwise it is the failure of the header that is told, or else that of the implementation. -/
theorem nextTo_probes (script : Script) (extensions : Extensions) (name reference : Text)
    (spacing : Spacing) :
    (∀ role result, insertFile script extensions name reference spacing role = result ↔
      Probed script name reference spacing role (extensions.ofRole role) result) ∧
    (∀ c, nextTo script extensions name reference spacing = .ok c ↔
      Probed script name reference spacing .header extensions.header (.ok c.header) ∧
        Probed script name reference spacing .implementation extensions.implementation
          (.ok c.implementation)) ∧
    ∀ e, nextTo script extensions name reference spacing = .error e ↔
      Probed script name reference spacing .header extensions.header (.error e) ∨
        (∃ ins, Probed script name reference spacing .header extensions.header (.ok ins)) ∧
          Probed script name reference spacing .implementation extensions.implementation
            (.error e) := by
  refine ⟨fun role result => insertFile_eq_iff, fun c => ?_, fun e => ?_⟩
  · rw [nextTo_eq_ok_iff, insertFile_eq_iff, insertFile_eq_iff]
    rfl
  · rw [nextTo_eq_error_iff, insertFile_eq_iff, insertFile_eq_iff]
    simp only [insertFile_eq_iff]
    rfl

-- An ambiguity is not passed over for an extension that would be found.
example : (insertFile (scan "set(A a.h)\nset(B x/a.h)\nset(C a.hh)".toList)
    ⟨[".h".toList, ".hh".toList], []⟩ "b".toList "a".toList .single .header).mapError
      ClassError.code = .error "cmake::class::insert_failed" := by decide +kernel

end ClassInsertions
end SourceLists
