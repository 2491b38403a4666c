import SourceLists.Proofs.Path

/-! A search comes to a statement only if no other one will do. What will do is said here without
the search: by the kinds and the names of statements, and by the texts of their items. -/

namespace SourceLists

section lists

variable {α : Type} {p q : α → Prop} {l : List α} {a b c : α} {j k : Nat}

/-- The one element of a list with a property. An element that comes twice is not the one. -/
def OnlyIn (p : α → Prop) (l : List α) (a : α) : Prop :=
  ∃ before after, l = before ++ a :: after ∧ p a ∧ ∀ b ∈ before ++ after, ¬ p b

/-- The first element of a list with a property. -/
def FirstIn (p : α → Prop) (l : List α) (a : α) : Prop :=
  ∃ before after, l = before ++ a :: after ∧ p a ∧ ∀ b ∈ before, ¬ p b

theorem onlyIn_iff [DecidablePred p] : OnlyIn p l a ↔ l.filter p = [a] := by
  constructor
  · rintro ⟨before, after, rfl, ha, hnone⟩
    have hbefore : before.filter p = [] := by
      rw [List.filter_eq_nil_iff]
      intro b hb
      simpa using hnone b (List.mem_append_left _ hb)
    have hafter : after.filter p = [] := by
      rw [List.filter_eq_nil_iff]
      intro b hb
      simpa using hnone b (List.mem_append_right _ hb)
    rw [List.filter_append, List.filter_cons_of_pos (by simpa using ha), hbefore, hafter,
      List.nil_append]
  · intro h
    obtain ⟨before, after, rfl, hbefore, ha, hafter⟩ := List.filter_eq_cons_iff.1 h
    rw [List.filter_eq_nil_iff] at hafter
    refine ⟨before, after, rfl, by simpa using ha, fun b hb => ?_⟩
    rcases List.mem_append.1 hb with hb | hb
    · simpa using hbefore b hb
    · simpa using hafter b hb

theorem OnlyIn.length_filter [DecidablePred p] (h : OnlyIn p l a) : (l.filter p).length = 1 :=
  congrArg List.length (onlyIn_iff.1 h)

theorem OnlyIn.prop (h : OnlyIn p l a) : p a := by
  obtain ⟨before, after, -, ha, -⟩ := h
  exact ha

theorem OnlyIn.eq (h : OnlyIn p l a) (hb : b ∈ l) (hp : p b) : b = a := by
  obtain ⟨before, after, rfl, -, hnone⟩ := h
  rcases List.mem_append.1 hb with hb | hb
  · exact absurd hp (hnone b (List.mem_append_left _ hb))
  · rcases List.mem_cons.1 hb with rfl | hb
    · rfl
    · exact absurd hp (hnone b (List.mem_append_right _ hb))

theorem OnlyIn.of_imp (h : OnlyIn p l a) (himp : ∀ b, q b → p b) (ha : q a) : OnlyIn q l a := by
  obtain ⟨before, after, rfl, -, hnone⟩ := h
  exact ⟨before, after, rfl, ha, fun b hb hq => hnone b hb (himp b hq)⟩

/-- The one element stands at one index. -/
theorem OnlyIn.index_eq (h : OnlyIn p l a) (hj : l[j]? = some b) (hb : p b) (hk : l[k]? = some c)
    (hc : p c) :
    j = k := by
  obtain ⟨before, after, rfl, -, hnone⟩ := h
  have hindex : ∀ n d, (before ++ a :: after)[n]? = some d → p d → n = before.length := by
    intro n d hn hd
    rw [List.getElem?_append, List.getElem?_cons] at hn
    split at hn
    · exact absurd hd (hnone d (List.mem_append_left _ (List.mem_of_getElem? hn)))
    · split at hn
      · omega
      · exact absurd hd (hnone d (List.mem_append_right _ (List.mem_of_getElem? hn)))
  rw [hindex j b hj hb, hindex k c hk hc]

theorem onlyIn_of_index (hk : l[k]? = some a) (ha : p a)
    (honly : ∀ j b, l[j]? = some b → p b → j = k) :
    OnlyIn p l a := by
  obtain ⟨hlt, rfl⟩ := List.getElem?_eq_some_iff.1 hk
  refine ⟨l.take k, l.drop (k + 1), by simp, ha, fun b hb hp => ?_⟩
  rcases List.mem_append.1 hb with hb | hb
  · obtain ⟨j, hj⟩ := List.mem_iff_getElem?.1 hb
    rw [List.getElem?_take] at hj
    split at hj
    · next hjk => exact absurd (honly j b hj hp) (Nat.ne_of_lt hjk)
    · contradiction
  · obtain ⟨j, hj⟩ := List.mem_iff_getElem?.1 hb
    rw [List.getElem?_drop] at hj
    exact absurd (honly _ b hj hp) (by omega)

theorem firstIn_iff [DecidablePred p] : FirstIn p l a ↔ l.find? p = some a := by
  rw [List.find?_eq_some_iff_append]
  constructor
  · rintro ⟨before, after, rfl, ha, hnone⟩
    exact ⟨by simpa using ha, before, after, rfl, fun b hb => by simpa using hnone b hb⟩
  · rintro ⟨ha, before, after, rfl, hnone⟩
    exact ⟨before, after, rfl, by simpa using ha, fun b hb => by simpa using hnone b hb⟩

theorem FirstIn.exists_mem (h : FirstIn p l a) : ∃ b ∈ l, p b := by
  obtain ⟨before, after, rfl, ha, -⟩ := h
  exact ⟨a, by simp, ha⟩

theorem FirstIn.append {l' : List α} (hnone : ∀ b ∈ l', ¬ p b) (h : FirstIn p l a) :
    FirstIn p (l' ++ l) a := by
  obtain ⟨before, after, rfl, ha, hbefore⟩ := h
  refine ⟨l' ++ before, after, by rw [List.append_assoc], ha, fun b hb => ?_⟩
  rcases List.mem_append.1 hb with hb | hb
  · exact hnone b hb
  · exact hbefore b hb

theorem exists_firstIn (h : ∃ a ∈ l, p a) : ∃ a, FirstIn p l a := by
  classical
  obtain ⟨a, ha, hp⟩ := h
  have hsome : (l.find? p).isSome := List.find?_isSome.2 ⟨a, ha, by simpa using hp⟩
  obtain ⟨b, hb⟩ := Option.isSome_iff_exists.1 hsome
  exact ⟨b, firstIn_iff.2 hb⟩

end lists

variable {script : Script} {st : Statement} {item : Item} {name reference : Text}

/-- A literal is what a reference with a directory says, and otherwise a file of its name. Quotes
around them do not count. -/
def Item.Matches (reference : Text) (item : Item) : Prop :=
  ∃ text start t r, item = .literal text start ∧ Text.Trimmed '"' text t ∧
    Text.Trimmed '"' reference r ∧
    (Path.Inner r ∧ t = r ∨ ¬ Path.Inner r ∧ ∃ name, Path.Named t name ∧ Path.Named r name)

theorem Anchor.isMeantBy_iff {t : Text} : isMeantBy reference t = true ↔
    Path.Inner (Text.trim '"' reference) ∧ t = Text.trim '"' reference ∨
      ¬ Path.Inner (Text.trim '"' reference) ∧
        ∃ name, Path.Named t name ∧ Path.Named (Text.trim '"' reference) name := by
  rw [isMeantBy, ← Path.isNested_iff]
  split
  · next hnested => simp [hnested]
  · next hnested =>
    rw [Path.sameFile_iff]
    simp [hnested, and_comm]

theorem Item.matches_iff :
    item.Matches reference ↔ item.unquoted?.any (Anchor.isMeantBy reference) = true := by
  cases item with
  | literal text start =>
    rw [unquoted?, Option.any_some, Anchor.isMeantBy_iff]
    constructor
    · rintro ⟨_, _, t, r, heq, ht, hr, hmeant⟩
      cases heq
      rwa [Text.trimmed_iff.1 ht, Text.trimmed_iff.1 hr]
    · intro hmeant
      exact ⟨text, start, _, _, rfl, Text.trimmed_iff.2 rfl, Text.trimmed_iff.2 rfl, hmeant⟩
  | reference name span =>
    constructor
    · rintro ⟨_, _, _, _, heq, -⟩
      contradiction
    · intro h
      contradiction

instance : DecidablePred (Item.Matches reference) :=
  fun _ => decidable_of_iff _ Item.matches_iff.symm

-- A file name is found in any directory, a path only as it is.
example : Item.Matches "a.h".toList (.literal "\"lib/a.h\"".toList 3) ∧
    ¬ Item.Matches "lib/a.h".toList (.literal "a.h".toList 3) := by decide

theorem Statement.findLiteral?_isMeantBy :
    st.findLiteral? (Anchor.isMeantBy reference) = st.items.find? (Item.Matches reference) := by
  rw [findLiteral?]
  congr 1
  funext item
  rw [Bool.eq_iff_iff, decide_eq_true_iff, Item.matches_iff]

namespace Anchor

variable {p : Statement → Prop} {stages : List Stage} {stage : Stage} {anchor : Anchor}
  {result : Except InsertError Anchor} {missing : InsertError} {ambiguous : List Text → InsertError}

/-- Statements are told by their commands and names. -/
theorem describeAll_eq (statements : List Statement) : describeAll statements =
    statements.map fun st => st.kind.command.toList ++ ['('] ++ st.name ++ [')'] := rfl

/-- What a search for a statement comes to: the only one with a property, or the failure that none
has it, or the one that tells all that have it, by their commands and names. -/
structure Exact (p : Statement → Prop) [DecidablePred p] (script : Script) (missing : InsertError)
    (ambiguous : List Text → InsertError) (result : Except InsertError Anchor) : Prop where
  ok : ∀ anchor, result = .ok anchor ↔ OnlyIn p script anchor.statement ∧ anchor.matched = none
  missing : result = .error missing ↔ ∀ st ∈ script, ¬ p st
  ambiguous : (∃ st ∈ script, p st) → (∀ st, ¬ OnlyIn p script st) →
    result = .error (ambiguous ((script.filter p).map fun st =>
      st.kind.command.toList ++ ['('] ++ st.name ++ [')']))

theorem exact_filter [DecidablePred p] {q : Statement → Bool} (hq : ∀ st, q st = true ↔ p st)
    (hne : ∀ candidates, ambiguous candidates ≠ missing) :
    Exact p script missing ambiguous (match script.filter q with
      | [] => .error missing
      | [st] => .ok ⟨st, none⟩
      | candidates => .error (ambiguous (describeAll candidates))) := by
  have hfilter : script.filter q = script.filter p := by
    apply List.filter_congr
    intro st _
    rw [Bool.eq_iff_iff, decide_eq_true_iff, hq]
  have hmem : ∀ st, st ∈ script.filter p → st ∈ script ∧ p st := by
    intro st hst
    simpa using hst
  have honly : ∀ st, OnlyIn p script st ↔ script.filter p = [st] := fun st => onlyIn_iff
  rw [hfilter]
  generalize hfound : script.filter p = found at honly hmem
  rcases found with - | ⟨st, - | ⟨st', more⟩⟩
  · have hnone : ∀ st ∈ script, ¬ p st := by simpa [List.filter_eq_nil_iff] using hfound
    refine ⟨fun anchor => ⟨fun h => by contradiction, fun h => ?_⟩,
      ⟨fun _ => hnone, fun _ => rfl⟩, ?_⟩
    · exact absurd ((honly _).1 h.1) (List.cons_ne_nil _ _).symm
    · rintro ⟨st, hst, hp⟩
      exact absurd hp (hnone st hst)
  · obtain ⟨hst, hp⟩ := hmem st List.mem_cons_self
    refine ⟨fun anchor => ⟨?_, ?_⟩, ⟨fun h => by contradiction, fun h => absurd hp (h st hst)⟩, ?_⟩
    · rintro ⟨⟩
      exact ⟨(honly st).2 rfl, rfl⟩
    · obtain ⟨statement, matched⟩ := anchor
      rintro ⟨hother, rfl⟩
      cases (honly _).1 hother
      rfl
    · intro _ hnot
      exact absurd ((honly st).2 rfl) (hnot st)
  · obtain ⟨hst, hp⟩ := hmem st List.mem_cons_self
    refine ⟨fun anchor => ⟨fun h => by contradiction, fun h => ?_⟩, ⟨fun h => ?_, fun h => ?_⟩, ?_⟩
    · exact absurd ((honly _).1 h.1) (by simp)
    · exact absurd (Except.error.inj h) (hne _)
    · exact absurd hp (h st hst)
    · intro _ _
      rw [hfound, ← describeAll_eq]

/-- A target is declared by its name. -/
def DeclaresTarget (name : Text) (st : Statement) : Prop :=
  (st.kind = .addLibrary ∨ st.kind = .addExecutable) ∧ st.name = name

instance : DecidablePred (DeclaresTarget name) := fun _ => inferInstanceAs (Decidable (_ ∧ _))

def DeclaresVariable (name : Text) (st : Statement) : Prop := st.kind = .set ∧ st.name = name

instance : DecidablePred (DeclaresVariable name) := fun _ => inferInstanceAs (Decidable (_ ∧ _))

theorem ofTarget_exact :
    Exact (DeclaresTarget name) script (.targetNotFound name) (.ambiguousTarget name)
    (ofTarget script name) := by
  refine exact_filter (fun st => ?_) (fun _ => by simp)
  rw [DeclaresTarget]
  cases st.kind <;> simp [Kind.declaresTarget]

theorem ofVariable_exact : Exact (DeclaresVariable name) script (.variableNotFound name)
    (.ambiguousVariable name) (ofVariable script name) := by
  refine exact_filter (fun st => ?_) (fun _ => by simp)
  rw [DeclaresVariable, Bool.and_eq_true, beq_iff_eq, beq_iff_eq]

namespace Stage

/-- The statements in which a stage looks. -/
def kinds : Stage → List Kind
  | targets => [.addLibrary, .addExecutable]
  | declarations => [.set]
  | targetSources => [.targetSources]

theorem accepts_iff {kind : Kind} : stage.accepts kind = true ↔ kind ∈ stage.kinds := by
  cases stage <;> cases kind <;> decide

/-- A statement of the stage has the reference in its list. -/
def Lists (reference : Text) (stage : Stage) (st : Statement) : Prop :=
  st.kind ∈ stage.kinds ∧ ∃ item ∈ st.items, item.Matches reference

instance : DecidablePred (Lists reference stage) := fun _ => inferInstanceAs (Decidable (_ ∧ _))

end Stage

/-- A stage finds the statements that list the reference, each with the first item that is meant. -/
theorem findIn_eq_map : findIn script reference stage =
    (script.filter (stage.Lists reference)).map fun st =>
      ⟨st, st.items.find? (Item.Matches reference)⟩ := by
  rw [findIn]
  induction script with
  | nil => rfl
  | cons st script ih =>
    have hlists : stage.Lists reference st ↔
        stage.accepts st.kind = true ∧ (st.items.find? (Item.Matches reference)).isSome = true := by
      rw [Stage.Lists, Stage.accepts_iff, List.find?_isSome]
      simp only [decide_eq_true_eq]
    by_cases hkind : stage.accepts st.kind = true
    · rw [List.filter_cons, if_pos hkind, List.filterMap_cons, Statement.findLiteral?_isMeantBy, ih]
      cases hfind : st.items.find? (Item.Matches reference) with
      | none =>
        have hnot : ¬ stage.Lists reference st := by simp [hlists, hfind]
        rw [List.filter_cons_of_neg (by simpa using hnot)]
        rfl
      | some item =>
        have hst : stage.Lists reference st := by simp [hlists, hfind, hkind]
        rw [List.filter_cons_of_pos (by simpa using hst), List.map_cons, hfind]
        rfl
    · have hnot : ¬ stage.Lists reference st := fun hst => hkind (hlists.1 hst).1
      rw [List.filter_cons, if_neg hkind, List.filter_cons_of_neg (by simpa using hnot), ih]

theorem findIn_eq_nil :
    findIn script reference stage = [] ↔ ∀ st ∈ script, ¬ stage.Lists reference st := by
  simp [findIn_eq_map, List.filter_eq_nil_iff]

theorem findIn_eq_singleton : findIn script reference stage = [anchor] ↔
    OnlyIn (stage.Lists reference) script anchor.statement ∧
      ∃ item, anchor.matched = some item ∧
        FirstIn (Item.Matches reference) anchor.statement.items item := by
  rw [findIn_eq_map, List.map_eq_singleton_iff]
  constructor
  · rintro ⟨st, hst, rfl⟩
    have honly := onlyIn_iff.2 hst
    obtain ⟨item, hfirst⟩ := exists_firstIn honly.prop.2
    exact ⟨honly, item, firstIn_iff.1 hfirst, hfirst⟩
  · obtain ⟨st, matched⟩ := anchor
    rintro ⟨honly, item, rfl, hfirst⟩
    exact ⟨st, onlyIn_iff.1 honly, by rw [firstIn_iff.1 hfirst]⟩

/-- A search ends with the first stage in which anything is found. -/
theorem searchStages_of_firstIn
    (h : FirstIn (fun stage => ∃ st ∈ script, stage.Lists reference st) stages stage) :
    searchStages script reference stages = searchStages script reference [stage] := by
  obtain ⟨before, after, rfl, ⟨st, hst, hlists⟩, hnone⟩ := h
  induction before with
  | nil =>
    rw [List.nil_append, searchStages, searchStages]
    cases hfound : findIn script reference stage with
    | nil => exact absurd hlists (findIn_eq_nil.1 hfound st hst)
    | cons first more => cases more <;> rfl
  | cons other before ih =>
    have hother : findIn script reference other = [] := by
      rw [findIn_eq_nil]
      intro st hst hlists
      exact hnone other List.mem_cons_self ⟨st, hst, hlists⟩
    rw [List.cons_append, searchStages, hother]
    exact ih fun other hother => hnone other (List.mem_cons_of_mem _ hother)

theorem searchStages_of_not (h : ∀ stage ∈ stages, ∀ st ∈ script, ¬ stage.Lists reference st) :
    searchStages script reference stages = .error (.referenceNotFound reference) := by
  induction stages with
  | nil => rfl
  | cons stage later ih =>
    rw [searchStages, findIn_eq_nil.2 (h stage List.mem_cons_self)]
    exact ih fun other hother => h other (List.mem_cons_of_mem _ hother)

theorem searchStages_singleton_eq_ok : searchStages script reference [stage] = .ok anchor ↔
    findIn script reference stage = [anchor] := by
  rw [searchStages]
  rcases findIn script reference stage with - | ⟨first, - | ⟨second, more⟩⟩
  · simp [searchStages]
  · simp
  · simp

theorem searchStages_singleton_eq_notFound :
    searchStages script reference [stage] = .error (.referenceNotFound reference) ↔
      findIn script reference stage = [] := by
  rw [searchStages]
  rcases findIn script reference stage with - | ⟨first, - | ⟨second, more⟩⟩
  · simp [searchStages]
  · simp
  · simp

theorem searchStages_singleton_of_many (hfinds : ∃ st ∈ script, stage.Lists reference st)
    (hmany : ∀ st, ¬ OnlyIn (stage.Lists reference) script st) :
    searchStages script reference [stage] = .error (.ambiguousReference reference stage.text
      (describeAll (script.filter (stage.Lists reference)))) := by
  have hstatements : (findIn script reference stage).map Anchor.statement =
      script.filter (stage.Lists reference) := by
    rw [findIn_eq_map, List.map_map]
    exact List.map_id _
  rw [searchStages, ← hstatements]
  rcases hfound : findIn script reference stage with - | ⟨first, - | ⟨second, more⟩⟩
  · obtain ⟨st, hst, hlists⟩ := hfinds
    exact absurd hlists (findIn_eq_nil.1 hfound st hst)
  · exact absurd (findIn_eq_singleton.1 hfound).1 (hmany _)
  · rfl

/-- The first stage in which a statement lists the reference: targets come first, then variables,
then what adds to a target. -/
def FoundAt (script : Script) (reference : Text) (stage : Stage) : Prop :=
  FirstIn (fun stage => ∃ st ∈ script, stage.Lists reference st) [.targets, .declarations,
    .targetSources]
    stage

theorem FoundAt.nextTo_eq (h : FoundAt script reference stage) :
    nextTo script reference = searchStages script reference [stage] :=
  searchStages_of_firstIn h

theorem exists_stage (kind : Kind) : ∃ stage ∈ [Stage.targets, .declarations, .targetSources],
    kind ∈ stage.kinds := by
  cases kind <;> decide

theorem exists_foundAt (h : ∃ st ∈ script, ∃ item ∈ st.items, item.Matches reference) :
    ∃ stage, FoundAt script reference stage := by
  obtain ⟨st, hst, hlists⟩ := h
  obtain ⟨stage, hstage, hkind⟩ := exists_stage st.kind
  exact exists_firstIn ⟨stage, hstage, st, hst, hkind, hlists⟩

theorem nextTo_of_not (h : ∀ st ∈ script, ∀ item ∈ st.items, ¬ item.Matches reference) :
    nextTo script reference = .error (.referenceNotFound reference) := by
  apply searchStages_of_not
  rintro stage - st hst ⟨-, item, hitem, hmatches⟩
  exact h st hst item hitem hmatches

theorem nextTo_eq_ok_iff : nextTo script reference = .ok anchor ↔
    ∃ stage, FoundAt script reference stage ∧
      OnlyIn (stage.Lists reference) script anchor.statement ∧
      ∃ item, anchor.matched = some item ∧
        FirstIn (Item.Matches reference) anchor.statement.items item := by
  constructor
  · intro h
    have hsome : ∃ st ∈ script, ∃ item ∈ st.items, item.Matches reference := by
      by_contra hnone
      push Not at hnone
      rw [nextTo_of_not hnone] at h
      contradiction
    obtain ⟨stage, hstage⟩ := exists_foundAt hsome
    rw [hstage.nextTo_eq, searchStages_singleton_eq_ok] at h
    exact ⟨stage, hstage, findIn_eq_singleton.1 h⟩
  · rintro ⟨stage, hstage, h⟩
    rw [hstage.nextTo_eq, searchStages_singleton_eq_ok]
    exact findIn_eq_singleton.2 h

/-- One statement with the reference is found at any stage. -/
theorem nextTo_of_only (h : OnlyIn (fun st => ∃ item ∈ st.items, item.Matches reference) script st)
    (hfirst : FirstIn (Item.Matches reference) st.items item) :
    nextTo script reference = .ok ⟨st, some item⟩ := by
  have hst : st ∈ script := by
    obtain ⟨before, after, rfl, -⟩ := h
    simp
  obtain ⟨stage, hstage⟩ := exists_foundAt ⟨st, hst, h.prop⟩
  obtain ⟨-, -, -, ⟨other, hother, hlists⟩, -⟩ := id hstage
  obtain rfl := h.eq hother hlists.2
  exact nextTo_eq_ok_iff.2 ⟨stage, hstage, h.of_imp (fun _ hq => hq.2) hlists, item, rfl, hfirst⟩

theorem nextTo_eq_notFound_iff : nextTo script reference = .error (.referenceNotFound reference) ↔
    ∀ st ∈ script, ∀ item ∈ st.items, ¬ item.Matches reference := by
  refine ⟨fun h st hst item hitem hmatches => ?_, nextTo_of_not⟩
  obtain ⟨stage, hstage⟩ := exists_foundAt ⟨st, hst, item, hitem, hmatches⟩
  rw [hstage.nextTo_eq, searchStages_singleton_eq_notFound, findIn_eq_nil] at h
  obtain ⟨before, after, -, ⟨st, hst, hlists⟩, -⟩ := hstage
  exact h st hst hlists

theorem exists_ambiguous (h : ∃ st ∈ script, ∃ item ∈ st.items, item.Matches reference)
    (hnot : ∀ anchor, nextTo script reference ≠ .ok anchor) :
    ∃ stage, FoundAt script reference stage ∧ nextTo script reference =
      .error (.ambiguousReference reference stage.text
        (describeAll (script.filter (stage.Lists reference)))) := by
  obtain ⟨stage, hstage⟩ := exists_foundAt h
  refine ⟨stage, hstage, ?_⟩
  obtain ⟨before, after, -, hfinds, -⟩ := id hstage
  rw [hstage.nextTo_eq]
  apply searchStages_singleton_of_many hfinds
  intro st honly
  obtain ⟨item, hfirst⟩ := exists_firstIn honly.prop.2
  exact hnot ⟨st, some item⟩ (nextTo_eq_ok_iff.2 ⟨stage, hstage, honly, item, rfl, hfirst⟩)

/-- A search never picks one of several statements. It comes to the only one that is meant, fails
if there is none, and otherwise tells the command and the name of each that there is, in the order
of the script. A reference is looked for in one stage after the other. -/
theorem lookups_exact (script : Script) (name : Text) :
    Exact (DeclaresTarget name) script (.targetNotFound name) (.ambiguousTarget name)
        (ofTarget script name) ∧
      Exact (DeclaresVariable name) script (.variableNotFound name) (.ambiguousVariable name)
        (ofVariable script name) ∧
      (∀ anchor, nextTo script name = .ok anchor ↔
        ∃ stage, FoundAt script name stage ∧ OnlyIn (stage.Lists name) script anchor.statement ∧
          ∃ item, anchor.matched = some item ∧
            FirstIn (Item.Matches name) anchor.statement.items item) ∧
      (nextTo script name = .error (.referenceNotFound name) ↔
        ∀ st ∈ script, ∀ item ∈ st.items, ¬ item.Matches name) ∧
      ((∃ st ∈ script, ∃ item ∈ st.items, item.Matches name) →
        (∀ anchor, nextTo script name ≠ .ok anchor) →
        ∃ stage, FoundAt script name stage ∧ nextTo script name =
          .error (.ambiguousReference name stage.text ((script.filter (stage.Lists name)).map
            fun st => st.kind.command.toList ++ ['('] ++ st.name ++ [')']))) := by
  refine ⟨ofTarget_exact, ofVariable_exact, fun _ => nextTo_eq_ok_iff, nextTo_eq_notFound_iff, ?_⟩
  intro hsome hnot
  obtain ⟨stage, hstage, hambiguous⟩ := exists_ambiguous hsome hnot
  exact ⟨stage, hstage, by rw [hambiguous, describeAll_eq]⟩

/-- A target that is declared twice, a variable that is set twice, and a file that two targets list,
of which the variable that lists it does not count. -/
theorem lookups_tell_all :
    let script : Script := [⟨.addLibrary, "core".toList, [.literal "a.h".toList 17], ⟨0, 21⟩⟩,
      ⟨.set, "S".toList, [.literal "a.h".toList 28], ⟨22, 32⟩⟩,
      ⟨.set, "S".toList, [.literal "b.h".toList 39], ⟨33, 43⟩⟩,
      ⟨.addExecutable, "core".toList, [.literal "lib/a.h".toList 64], ⟨44, 72⟩⟩]
    ofTarget script "core".toList = .error (.ambiguousTarget "core".toList
        ["add_library(core)".toList, "add_executable(core)".toList]) ∧
      ofVariable script "S".toList = .error (.ambiguousVariable "S".toList
        ["set(S)".toList, "set(S)".toList]) ∧
      nextTo script "a.h".toList = .error (.ambiguousReference "a.h".toList "targets"
        ["add_library(core)".toList, "add_executable(core)".toList]) := by
  intro script
  obtain ⟨htarget, -⟩ := lookups_exact script "core".toList
  obtain ⟨-, hvariable, -⟩ := lookups_exact script "S".toList
  obtain ⟨-, -, hok, -, hreference⟩ := lookups_exact script "a.h".toList
  have htargets : ∀ stage, FoundAt script "a.h".toList stage → stage = .targets := by
    intro stage hstage
    exact Option.some.inj ((firstIn_iff.1 hstage).symm.trans (by decide))
  have hnot : ∀ anchor, nextTo script "a.h".toList ≠ .ok anchor := by
    intro anchor hanchor
    obtain ⟨stage, hstage, honly, -⟩ := (hok anchor).1 hanchor
    rw [htargets stage hstage] at honly
    exact absurd honly.length_filter (by decide)
  refine ⟨htarget.ambiguous (by decide) fun st honly => absurd honly.length_filter (by decide),
    hvariable.ambiguous (by decide) fun st honly => absurd honly.length_filter (by decide), ?_⟩
  obtain ⟨stage, hstage, hambiguous⟩ := hreference (by decide) hnot
  rw [hambiguous, htargets stage hstage]
  decide

end Anchor
end SourceLists
