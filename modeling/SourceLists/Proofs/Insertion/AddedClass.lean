import SourceLists.Proofs.Insertion.ListEnd
import SourceLists.Proofs.Insertion.Probing

/-! A class that was added is found like the class next to which it was put: each file with the
extension and in the list of the file of the other class. -/

namespace SourceLists

variable {script : Script} {extensions : Extensions} {name next reference d p t x : Text}
  {st : Statement} {item : Item} {role : FileRole} {c : ClassInsertions} {anchor : Anchor}
  {ins : Insertion} {n : Nat}

namespace Path

/-- A file name, or a part of one. There are no quotes in it. -/
def Component (t : Text) : Prop := separator ∉ t ∧ '"' ∉ t

instance : DecidablePred Component := fun _ => inferInstanceAs (Decidable (_ ∧ _))

theorem Component.append (ht : Component t) (hx : Component x) : Component (t ++ x) := by
  simp only [Component, List.mem_append, not_or]
  exact ⟨⟨ht.1, hx.1⟩, ht.2, hx.2⟩

theorem Component.trim_eq (ht : Component t) : Text.trim '"' t = t := Text.trim_of_not_mem ht.2

/-- What stands before a file name: nothing, or a text with one separator at its end. -/
def IsDirectory (d : Text) : Prop :=
  d = [] ∨ ∃ w, d = w ++ [separator] ∧ withoutTrailingSeparators w = w

namespace IsDirectory

theorem fileName_append (hd : IsDirectory d) (ht : separator ∉ t) : fileName (d ++ t) = t := by
  rcases hd with rfl | ⟨w, rfl, -⟩
  · exact fileName_of_not_mem ht
  · rw [List.append_assoc]
    exact Path.fileName_append ht

theorem parent_append (hd : IsDirectory d) (ht : separator ∉ t) : parent (d ++ t) = d := by
  rcases hd with rfl | ⟨w, rfl, -⟩
  · exact parent_of_not_mem ht
  · rw [List.append_assoc]
    exact Path.parent_append ht

theorem inDirectoryOf_append (hd : IsDirectory d) (ht : separator ∉ t) :
    Anchor.inDirectoryOf (d ++ t) x = d ++ x := by
  rw [Anchor.inDirectoryOf, hd.parent_append ht]
  rcases hd with rfl | ⟨w, rfl, hw⟩
  · rfl
  · rw [withoutTrailingSeparators_concat, hw]
    simp

theorem trim_append (hd : IsDirectory d) (hquote : '"' ∉ d.head?) (ht : Component t) :
    Text.trim '"' (d ++ t) = d ++ t := by
  rcases hd with rfl | ⟨w, rfl, -⟩
  · exact ht.trim_eq
  · apply Text.trim_of_ne
    · rintro a ha rfl
      rw [List.head?_append_of_ne_nil _ (by simp)] at ha
      exact hquote ha
    · rintro a ha rfl
      rw [List.append_assoc, List.singleton_append,
        List.getLast?_append_of_ne_nil _ (by simp)] at ha
      rcases List.mem_cons.1 (List.mem_of_mem_getLast? ha) with h | h
      · contradiction
      · exact ht.2 h

end IsDirectory

theorem exists_directory (p : Text) :
    ∃ d, IsDirectory d ∧ (∀ a ∈ d.head?, a ∈ p.head? ∨ a = separator) ∧
    ∀ t, Anchor.inDirectoryOf p t = d ++ t := by
  by_cases hparent : parent p = []
  · exact ⟨[], Or.inl rfl, by simp, fun t => by simp [Anchor.inDirectoryOf, hparent]⟩
  · refine ⟨withoutTrailingSeparators (parent p) ++ [separator],
      Or.inr ⟨_, rfl, withoutTrailingSeparators_idempotent⟩, fun a ha => ?_, fun t => by
        simp [Anchor.inDirectoryOf, hparent]⟩
    have hhead := Anchor.head?_inDirectoryOf (p := p) (t := []) a
    simp only [Anchor.inDirectoryOf, List.isEmpty_iff, hparent, if_false, List.append_nil] at hhead
    simpa using hhead ha

end Path

open SourceLists.Path (Component IsDirectory)

/-- A mere file name means all literals of this name. -/
theorem Item.matches_component (hx : Component x) :
    item.Matches x ↔ ∃ t ∈ item.unquoted?, Path.fileName t = x := by
  have hmeant : ∀ t, Anchor.isMeantBy x t = true ↔ Path.fileName t = x :=
    fun t => Anchor.isMeantBy_fileName hx.1 hx.trim_eq
  rw [Item.matches_iff, Option.any_eq_true]
  simp only [hmeant, Option.mem_def]

/-- An item that a file is put in as. -/
theorem Path.IsDirectory.matches_iff (hd : IsDirectory d) (hquote : '"' ∉ d.head?)
    (ht : Component t) (hx : Component x) : (Item.literal (d ++ t) n).Matches x ↔ t = x := by
  rw [Item.matches_component hx]
  simp [Item.unquoted?, hd.trim_append hquote ht, hd.fileName_append ht.1]

theorem Anchor.exists_directory (h : nextTo script reference = .ok anchor) :
    ∃ d, IsDirectory d ∧ '"' ∉ d.head? ∧
      ∀ t ins, anchor.insert t .single = .ok ins → ins.payload = d ++ t := by
  obtain ⟨-, text, start, hmatched, -⟩ := mem_of_searchStages h
  obtain ⟨d, hd, hhead, hpayload⟩ := Path.exists_directory (Text.trim '"' text)
  refine ⟨d, hd, fun hquote => ?_, fun t ins hins => ?_⟩
  · rcases hhead _ hquote with h | h
    · exact Text.head?_trim _ h rfl
    · contradiction
  · obtain ⟨-, hins, -⟩ := insert_eq_ok.1 hins
    rw [payload, hmatched] at hins
    exact (Except.ok.inj hins).symm.trans (hpayload t)

namespace ClassInsertions
open Anchor (Missing)

variable {anchor : FileRole → Anchor} {extension : FileRole → Text} {k start : FileRole → Nat}
  {file : FileRole → Item} {j : Nat}

def ofRole (c : ClassInsertions) : FileRole → Insertion
  | .header => c.header
  | .implementation => c.implementation

/-- The script with a file of each role at the end of a list, the header first. -/
def withFiles (k : FileRole → Nat) (file : FileRole → Item) (script : Script) : Script :=
  (script.modify (k .header) (.push (file .header))).modify (k .implementation)
    (.push (file .implementation))

/-- Of two files that are called the same the header is the one that is met. -/
def foremost (extension : FileRole → Text) (role : FileRole) : FileRole :=
  if extension .header = extension .implementation then .header else role

theorem getElem?_withFiles : (withFiles k file script)[j]? = script[j]?.map fun st =>
    { st with items := st.items ++ ([.header, .implementation].filter (k · = j)).map file } := by
  simp only [withFiles, List.getElem?_modify, Option.map_eq_map, Option.map_map]
  congr 1
  funext st
  by_cases hheader : k .header = j <;> by_cases himplementation : k .implementation = j <;>
    simp [hheader, himplementation, Statement.push]

/-- The files are told apart by their extensions, and where they are not they are in one list. -/
structure Apart (script : Script) (name : Text) (extension : FileRole → Text) (k : FileRole → Nat)
    (file : FileRole → Item) : Prop where
  statement : ∀ role, ∃ st, script[k role]? = some st
  matches_iff : ∀ role x, Component x → ((file role).Matches (name ++ x) ↔ extension role = x)
  index : extension .header = extension .implementation → k .header = k .implementation

namespace Apart

/-- Only what was put in can have the name of a new file. -/
theorem exists_role (h : Apart script name extension k file) (hx : Component x)
    (hnew : ∀ st ∈ script, ∀ item ∈ st.items, ¬ item.Matches (name ++ x))
    (hst : (withFiles k file script)[j]? = some st) (hitem : item ∈ st.items)
    (hmatches : item.Matches (name ++ x)) : ∃ role, k role = j ∧ extension role = x := by
  rw [getElem?_withFiles, Option.map_eq_some_iff] at hst
  obtain ⟨old, hold, rfl⟩ := hst
  rcases List.mem_append.1 hitem with hitem | hitem
  · exact absurd hmatches (hnew old (List.mem_of_getElem? hold) item hitem)
  · obtain ⟨role, hrole, rfl⟩ := List.mem_map.1 hitem
    exact ⟨role, by simpa using (List.mem_filter.1 hrole).2, (h.matches_iff role x hx).1 hmatches⟩

theorem missing (h : Apart script name extension k file) (hx : Component x)
    (hnew : ∀ st ∈ script, ∀ item ∈ st.items, ¬ item.Matches (name ++ x))
    (hne : ∀ role, extension role ≠ x) :
    Missing (withFiles k file script) (name ++ x) := by
  rw [Anchor.missing_iff]
  intro st hst item hitem hmatches
  obtain ⟨j, hj⟩ := List.mem_iff_getElem?.1 hst
  obtain ⟨role, -, hrole⟩ := h.exists_role hx hnew hj hitem hmatches
  exact hne role hrole

theorem index_eq (h : Apart script name extension k file) {role role' : FileRole}
    (heq : extension role = extension role') : k role = k role' := by
  cases role <;> cases role'
  · rfl
  · exact h.index heq
  · exact (h.index heq.symm).symm
  · rfl

theorem firstIn_files (h : Apart script name extension k file) (hx : Component (extension role)) :
    FirstIn (Item.Matches (name ++ extension role))
      (([.header, .implementation].filter (k · = k role)).map file)
      (file (foremost extension role)) := by
  have hmatches : ∀ role', (file role').Matches (name ++ extension role) ↔
      extension role' = extension role :=
    fun role' => h.matches_iff role' _ hx
  rw [firstIn_iff, foremost]
  split
  · next heq =>
    have hheader : extension .header = extension role := by cases role <;> simp [heq]
    simp [h.index_eq hheader, hmatches, hheader]
  · next hne =>
    cases role with
    | header => simp [hmatches]
    | implementation =>
      by_cases hk : k .header = k .implementation <;> simp [hk, hmatches, hne]

/-- A new file is found in the list in which it was put. -/
theorem exists_found (h : Apart script name extension k file) (hx : Component (extension role))
    (hnew : ∀ st ∈ script, ∀ item ∈ st.items, ¬ item.Matches (name ++ extension role)) :
    ∃ st, (withFiles k file script)[k role]? = some st ∧
      Anchor.nextTo (withFiles k file script) (name ++ extension role) =
        .ok ⟨st, some (file (foremost extension role))⟩ := by
  obtain ⟨old, hold⟩ := h.statement role
  have hst : (withFiles k file script)[k role]? = _ := getElem?_withFiles
  rw [hold, Option.map_some] at hst
  have hold' : ∀ item ∈ old.items, ¬ item.Matches (name ++ extension role) :=
    hnew old (List.mem_of_getElem? hold)
  have hfirst := (h.firstIn_files hx).append hold'
  refine ⟨_, hst, Anchor.nextTo_of_only (onlyIn_of_index hst hfirst.exists_mem ?_) hfirst⟩
  rintro j b hj ⟨item, hitem, hmatches⟩
  obtain ⟨role', rfl, hrole⟩ := h.exists_role hx hnew hj hitem hmatches
  exact h.index_eq hrole

end Apart

/-- Next to a reference that is found a single item goes in its directory. -/
theorem exists_insert {found : Anchor} {text : Text} {start : Nat}
    (hfound : Anchor.nextTo script p = .ok found)
    (hmatched : found.matched = some (.literal text start)) (t : Text) :
    ∃ ins, found.insert t .single = .ok ins ∧
      ins.payload = Anchor.inDirectoryOf (Text.trim '"' text) t := by
  obtain ⟨-, text', start', hmatched', hitem⟩ := Anchor.mem_of_searchStages hfound
  obtain ⟨last, hlast⟩ := Option.ne_none_iff_exists'.1
    (mt List.getLast?_eq_none_iff.1 (List.ne_nil_of_mem hitem))
  have hend : found.statement.listEnd? = some last.span.stop := by
    rw [Statement.listEnd?, hlast]
    rfl
  exact ⟨_, Anchor.insert_of_matched hend hmatched, rfl⟩

variable (hextensions : ∀ role, ∀ x ∈ extensions.ofRole role, Component x) (hname : Component name)
  (hadded : nextTo script extensions name reference .single = .ok c)
  (hfound : ∀ role, findReference script reference role (extensions.ofRole role)
    (extensions.ofRole role) = .ok (anchor role, extension role))

include hadded in
theorem insertFile_ofRole (role : FileRole) :
    insertFile script extensions name reference .single role = .ok (c.ofRole role) := by
  obtain ⟨hheader, himplementation⟩ := nextTo_eq_ok hadded
  cases role
  · exact hheader
  · exact himplementation

include hadded hfound in
/-- What goes in for each role. -/
theorem insert_ofRole (role : FileRole) :
    (anchor role).insert (name ++ extension role) .single = .ok (c.ofRole role) := by
  obtain ⟨found, x, hsearch, hins⟩ := insertFile_eq_ok (insertFile_ofRole hadded role)
  rw [hfound role] at hsearch
  cases hsearch
  exact hins

include hextensions hname hadded hfound in
/-- The new files of a class lie in the directories in which they are found by their names. -/
theorem exists_apart (hk : ∀ role, script[k role]? = some (anchor role).statement)
    (start : FileRole → Nat) :
    Apart script name extension k (fun role => .literal (c.ofRole role).payload (start role)) ∧
      ∀ role, ∃ d, IsDirectory d ∧ '"' ∉ d.head? ∧
        (c.ofRole role).payload = d ++ (name ++ extension role) := by
  have hlookup : ∀ role, extension role ∈ extensions.ofRole role ∧
      Anchor.nextTo script (reference ++ extension role) = .ok (anchor role) :=
    fun role => findReference_eq_ok (hfound role)
  have hpayload : ∀ role, ∃ d, IsDirectory d ∧ '"' ∉ d.head? ∧
      (c.ofRole role).payload = d ++ (name ++ extension role) := by
    intro role
    obtain ⟨d, hd, hquote, hpayload⟩ := Anchor.exists_directory (hlookup role).2
    exact ⟨d, hd, hquote, hpayload _ _ (insert_ofRole hadded hfound role)⟩
  refine ⟨⟨fun role => ⟨_, hk role⟩, fun role x hx => ?_, fun heq => ?_⟩, hpayload⟩
  · obtain ⟨d, hd, hquote, hpayload⟩ := hpayload role
    have hextension := hextensions role _ (hlookup role).1
    rw [hpayload, hd.matches_iff hquote (hname.append hextension) (hname.append hx),
      List.append_cancel_left_eq]
  · have hsame := (hlookup .header).2
    rw [heq, (hlookup .implementation).2] at hsame
    obtain ⟨stage, -, honly, -⟩ := Anchor.nextTo_eq_ok_iff.1 (hlookup .header).2
    have himplementation := hk .implementation
    rw [Except.ok.inj hsame] at himplementation
    exact honly.index_eq (hk .header) honly.prop himplementation honly.prop

include hadded hfound in
/-- Two files that are called the same go in the same place. -/
theorem ofRole_foremost (role : FileRole) : c.ofRole (foremost extension role) = c.ofRole role := by
  rw [foremost]
  split
  · next heq =>
    cases role with
    | header => rfl
    | implementation =>
      have hsame := (findReference_eq_ok (hfound .header)).2
      rw [heq, (findReference_eq_ok (hfound .implementation)).2] at hsame
      have hheader := insert_ofRole hadded hfound .header
      rw [heq, ← Except.ok.inj hsame, insert_ofRole hadded hfound .implementation] at hheader
      exact (Except.ok.inj hheader).symm
  · rfl

include hextensions hfound in
/-- What decides for the reference decides for the new class. -/
theorem Apart.decisive (h : Apart script name extension k file)
    (hnew : ∀ role, ∀ x ∈ extensions.ofRole role, ∀ st ∈ script, ∀ item ∈ st.items,
      ¬ item.Matches (name ++ x)) (role : FileRole) :
    Decisive (withFiles k file script) name (extensions.ofRole role) (extension role) := by
  obtain ⟨⟨before, after, hcandidates, -, hmissing⟩, -⟩ := findReference_eq_ok_iff.1 (hfound role)
  have hmem : ∀ x ∈ before, x ∈ extensions.ofRole role := fun x hx => by simp [hcandidates, hx]
  refine ⟨before, after, hcandidates, ?_, fun x hx => not_not.2 ?_⟩
  · obtain ⟨st, -, hfound⟩ :=
      h.exists_found (hextensions role _ (findReference_eq_ok (hfound role)).1)
      (hnew role _ (findReference_eq_ok (hfound role)).1)
    exact Anchor.not_missing_of_ok hfound
  · apply h.missing (hextensions role x (hmem x hx)) (hnew role x (hmem x hx))
    -- An extension with which the reference is found is not passed over by the other role.
    rintro other rfl
    exact hmissing _ hx (Anchor.not_missing_of_ok (findReference_eq_ok (hfound other)).2)

include hextensions hname hadded hfound in
/-- A class that was added can be the next reference. Each of its files is found by the extension
with which it was added, in the list in which it was put, and another class goes in the same
directories. -/
theorem nextTo_added {script' : Script} (hnext : Component next)
    (hk : ∀ role, script[k role]? = some (anchor role).statement)
    (hnew : ∀ st ∈ script, ∀ item ∈ st.items, ∀ t ∈ item.unquoted?, ∀ role,
      ∀ x ∈ extensions.ofRole role, Path.fileName t ≠ name ++ x)
    (hscript : script' =
      withFiles k (fun role => .literal (c.ofRole role).payload (start role)) script) :
    ∃ (c' : ClassInsertions) (anchor' : FileRole → Anchor),
      nextTo script' extensions next name .single = .ok c' ∧
      ∀ role,
        findReference script' name role (extensions.ofRole role) (extensions.ofRole role) =
          .ok (anchor' role, extension role) ∧
        script'[k role]? = some (anchor' role).statement ∧
        (anchor' role).matched =
          some (.literal (c.ofRole role).payload (start (foremost extension role))) ∧
        Path.fileName (c'.ofRole role).payload = next ++ extension role ∧
        Path.parent (c'.ofRole role).payload = Path.parent (c.ofRole role).payload := by
  obtain ⟨hapart, hdirectory⟩ := exists_apart hextensions hname hadded hfound hk start
  have hnew' : ∀ role, ∀ x ∈ extensions.ofRole role, ∀ st ∈ script, ∀ item ∈ st.items,
      ¬ item.Matches (name ++ x) := by
    intro role x hx st hst item hitem hmatches
    obtain ⟨t, ht, heq⟩ :=
      (Item.matches_component (hname.append (hextensions role x hx))).1 hmatches
    exact hnew st hst item hitem t ht role x hx heq
  have hcandidate : ∀ role, extension role ∈ extensions.ofRole role :=
    fun role => (findReference_eq_ok (hfound role)).1
  have hcomponent : ∀ role, Component (extension role) :=
    fun role => hextensions role _ (hcandidate role)
  have hdecisive := hapart.decisive hextensions hfound hnew'
  choose st hst hlookup using fun role =>
    hapart.exists_found (hcomponent role) (hnew' role _ (hcandidate role))
  simp only [ofRole_foremost hadded hfound] at hlookup
  rw [← hscript] at hdecisive hst hlookup
  choose ins hins hpayload using fun role =>
    exists_insert (hlookup role) rfl (next ++ extension role)
  have hfile : ∀ role, insertFile script' extensions next name .single role = .ok (ins role) :=
    fun role => insertFile_eq_iff.2 (.placed (hdecisive role) (hlookup role) (hins role))
  have hins' : ∀ role, ofRole ⟨ins .header, ins .implementation⟩ role = ins role := by
    intro role
    cases role <;> rfl
  refine ⟨⟨ins .header, ins .implementation⟩,
    fun role =>
      ⟨st role, some (.literal (c.ofRole role).payload (start (foremost extension role)))⟩,
    nextTo_eq_ok_iff.2 ⟨hfile _, hfile _⟩, fun role => ?_⟩
  refine ⟨findReference_eq_ok_iff.2 ⟨hdecisive role, hlookup role⟩, hst role, rfl, ?_⟩
  obtain ⟨d, hd, hquote, hold⟩ := hdirectory role
  have hname' := hname.append (hcomponent role)
  have hnext' := hnext.append (hcomponent role)
  rw [hins', hpayload, hold, hd.trim_append hquote hname', hd.inDirectoryOf_append hname'.1]
  exact ⟨hd.fileName_append hnext'.1,
    (hd.parent_append hnext'.1).trans (hd.parent_append hname'.1).symm⟩

theorem mem_append_of_ofRole (hx : x ∈ extensions.ofRole role) :
    x ∈ extensions.header ++ extensions.implementation := by
  cases role with
  | header => exact List.mem_append_left _ hx
  | implementation => exact List.mem_append_right _ hx

/-- The files of a target lie in two directories, and so do those of the next class. -/
theorem nextTo_added_library :
    ∃ c' : ClassInsertions,
      nextTo
        [⟨.addLibrary, "core".toList,
          [.literal "inc/a.h".toList 17, .literal "src/a.cpp".toList 25,
            .literal "inc/b.h".toList 35, .literal "src/b.cpp".toList 43], ⟨0, 35⟩⟩]
        .default "c".toList "b".toList .single = .ok c' ∧
      Path.fileName c'.header.payload = "c.h".toList ∧
        Path.parent c'.header.payload = "inc/".toList ∧
      Path.fileName c'.implementation.payload = "c.cpp".toList ∧
      Path.parent c'.implementation.payload = "src/".toList := by
  let library : Statement :=
    ⟨.addLibrary, "core".toList,
      [.literal "inc/a.h".toList 17, .literal "src/a.cpp".toList 25], ⟨0, 35⟩⟩
  let anchor : FileRole → Anchor
    | .header => ⟨library, some (.literal "inc/a.h".toList 17)⟩
    | .implementation => ⟨library, some (.literal "src/a.cpp".toList 25)⟩
  let extension : FileRole → Text
    | .header => ".h".toList
    | .implementation => ".cpp".toList
  let start : FileRole → Nat
    | .header => 35
    | .implementation => 43
  have hextensions : ∀ role, ∀ x ∈ Extensions.default.ofRole role, Component x := by
    intro role x hx
    have hcomponent :
        ∀ x ∈ Extensions.default.header ++ Extensions.default.implementation, Component x := by
      decide
    exact hcomponent x (mem_append_of_ofRole hx)
  have hadded : nextTo [library] .default "b".toList "a".toList .single =
      .ok ⟨⟨34, [' '], "inc/b.h".toList⟩, ⟨34, [' '], "src/b.cpp".toList⟩⟩ := by decide +kernel
  have hfound : ∀ role, findReference [library] "a".toList role (Extensions.default.ofRole role)
      (Extensions.default.ofRole role) = .ok (anchor role, extension role) := by
    intro role
    cases role <;> decide +kernel
  have hk : ∀ role, [library][0]? = some (anchor role).statement := by
    intro role
    cases role <;> rfl
  have hnew : ∀ st ∈ [library], ∀ item ∈ st.items, ∀ t ∈ item.unquoted?, ∀ role,
      ∀ x ∈ Extensions.default.ofRole role, Path.fileName t ≠ "b".toList ++ x := by
    have hother : ∀ st ∈ [library], ∀ item ∈ st.items, ∀ t ∈ item.unquoted?.toList,
        ∀ x ∈ Extensions.default.header ++ Extensions.default.implementation,
          Path.fileName t ≠ "b".toList ++ x := by decide
    intro st hst item hitem t ht role x hx
    exact hother st hst item hitem t (Option.mem_toList.2 ht) x (mem_append_of_ofRole hx)
  have hscript :
      [⟨.addLibrary, "core".toList, [.literal "inc/a.h".toList 17, .literal "src/a.cpp".toList 25,
      .literal "inc/b.h".toList 35, .literal "src/b.cpp".toList 43], ⟨0, 35⟩⟩] =
      withFiles (fun _ => 0) (fun role => .literal (ofRole ⟨⟨34, [' '], "inc/b.h".toList⟩,
        ⟨34, [' '], "src/b.cpp".toList⟩⟩ role).payload (start role)) [library] := rfl
  have hnext : Component "c".toList := by decide
  obtain ⟨c', anchor', hc, hplaces⟩ :=
    nextTo_added hextensions (by decide) hadded hfound hnext hk hnew hscript
  obtain ⟨-, -, -, hname, hparent⟩ := hplaces .header
  obtain ⟨-, -, -, hname', hparent'⟩ := hplaces .implementation
  exact ⟨c', hc, hname, hparent, hname', hparent'⟩

end ClassInsertions
end SourceLists
