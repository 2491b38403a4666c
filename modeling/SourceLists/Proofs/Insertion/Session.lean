import Mathlib.Data.List.Forall2
import SourceLists.Proofs.Insertion.ListEnd

/-! Items that are added to a script one after the other, each in the script as it then is, come to
the same text as all of them added at once. -/

namespace SourceLists

/-- An item to be added to the list of a statement. -/
structure Request where
  /-- The place of the statement in the script. -/
  index : Nat
  item : Text

namespace Request

/-- The insertion behind the list of the statement, if there is one. -/
def insertion? (script : Script) (r : Request) : Option Insertion := do
  let st ← script[r.index]?
  ((Anchor.mk st none).insert r.item .single).toOption

/-- Makes a request in the script as it is. -/
def perform (s : Text) (r : Request) : Option Text := do
  ((← r.insertion? (scan s)).apply s).toOption

/-- Makes one request after the other, each in the script that the one before has left. -/
def performEach (requests : List Request) (s : Text) : Option Text := requests.foldlM perform s

/-- Makes all requests at once, each for the script as it is at first. -/
def performAll (requests : List Request) (s : Text) : Option Text := do
  (Insertion.applyAll (← requests.mapM (insertion? (scan s))) s).toOption

/-- The requests for one statement, in their order. -/
def forStatement (k : Nat) (requests : List Request) : List Request :=
  requests.filter (·.index == k)

variable {s s' : Text} {r : Request} {requests requests' : List Request} {ins j : Insertion}
  {L L' : List Insertion} {script : Script} {st : Statement} {k p : Nat}

theorem insertion?_eq (hst : script[r.index]? = some st) (hend : st.listEnd? = some p) :
    r.insertion? script = some ⟨p, Insertion.defaultSeparator, r.item⟩ := by
  rw [insertion?, hst]
  change ((Anchor.mk st none).insert r.item .single).toOption = _
  rw [Anchor.insert, hend]
  rfl

theorem exists_insertion (h : r.index < (scan s).length) :
    ∃ ins, r.insertion? (scan s) = some ins := by
  have hst := List.getElem?_eq_getElem h
  obtain ⟨p, hend, -⟩ := ((scan_located s).statements _ (List.mem_of_getElem? hst)).exists_listEnd
  exact ⟨_, insertion?_eq hst hend⟩

/-- A request is for a statement that is found, and goes where its list ends. -/
theorem exists_of_insertion? (h : r.insertion? (scan s) = some ins) :
    ∃ st, (scan s)[r.index]? = some st ∧ st.listEnd? = some ins.position ∧
      s.IsBoundary ins.position ∧ ins = ⟨ins.position, Insertion.defaultSeparator, r.item⟩ := by
  cases hst : (scan s)[r.index]? with
  | none =>
    rw [insertion?, hst] at h
    contradiction
  | some st =>
    obtain ⟨p, hend, hboundary⟩ :=
      ((scan_located s).statements st (List.mem_of_getElem? hst)).exists_listEnd
    rw [insertion?_eq hst hend] at h
    cases h
    exact ⟨st, rfl, hend, hboundary, rfl⟩

/-- When one request has been made, another goes where it would have gone, moved along. -/
theorem insertion?_after (hk : (scan s)[k]? = some st) (hend : st.listEnd? = some ins.position)
    (h : r.insertion? (scan s) = some j) :
    r.insertion? (ins.added k (scan s)) = some (ins.after j) := by
  obtain ⟨old, hold, hp, -, hj⟩ := exists_of_insertion? h
  obtain ⟨new, hnew, hfollows⟩ := follows_added hk hend hold
  have hnext : new.listEnd? = some (ins.next j.position) := by
    rw [hfollows.listEnd, hp, Option.map_some]
  rw [insertion?_eq hnew hnext, hj]
  rfl

theorem insertions_cons : (r :: requests).mapM (insertion? script) = some L ↔
    ∃ ins L', r.insertion? script = some ins ∧ requests.mapM (insertion? script) = some L' ∧
      L = ins :: L' := by
  simp only [List.mapM_cons, Option.bind_eq_bind, Option.bind_eq_some_iff, Option.pure_def,
    Option.some.injEq, eq_comm (a := L)]
  constructor
  · rintro ⟨ins, hins, L', hL', h⟩
    exact ⟨ins, L', hins, hL', h⟩
  · rintro ⟨ins, L', hins, hL', h⟩
    exact ⟨ins, hins, L', hL', h⟩

theorem exists_insertions (h : ∀ r ∈ requests, r.index < (scan s).length) :
    ∃ L, requests.mapM (insertion? (scan s)) = some L := by
  induction requests with
  | nil => exact ⟨[], rfl⟩
  | cons r requests ih =>
    obtain ⟨hr, hrest⟩ := List.forall_mem_cons.1 h
    obtain ⟨ins, hins⟩ := exists_insertion hr
    obtain ⟨L, hL⟩ := ih hrest
    exact ⟨ins :: L, insertions_cons.2 ⟨ins, L, hins, hL, rfl⟩⟩

theorem insertions_after (hk : (scan s)[k]? = some st) (hend : st.listEnd? = some ins.position)
    (h : requests.mapM (insertion? (scan s)) = some L) :
    requests.mapM (insertion? (ins.added k (scan s))) = some (L.map ins.after) := by
  induction requests generalizing L with
  | nil =>
    cases h
    rfl
  | cons r requests ih =>
    obtain ⟨j, L, hj, hL, rfl⟩ := insertions_cons.1 h
    exact insertions_cons.2 ⟨_, _, insertion?_after hk hend hj, ih hL, rfl⟩

/-- What is added to the list that ends at a place is what is asked for that list, in the order of
asking. -/
theorem contentAt_insertions (hk : (scan s)[k]? = some st) (hend : st.listEnd? = some p)
    (h : requests.mapM (insertion? (scan s)) = some L) :
    Insertion.contentAt p L =
      (forStatement k requests).flatMap fun r => Insertion.defaultSeparator ++ r.item := by
  induction requests generalizing L with
  | nil =>
    cases h
    rfl
  | cons r requests ih =>
    obtain ⟨j, L, hj, hL, rfl⟩ := insertions_cons.1 h
    obtain ⟨st', hst', hend', -, hcontent⟩ := exists_of_insertion? hj
    by_cases hindex : r.index = k
    · have hposition : j.position = p := by
        rw [hindex, hk] at hst'
        cases hst'
        exact Option.some.inj (hend'.symm.trans hend)
      rw [Insertion.contentAt_cons_of_eq hposition, ih hL, forStatement, forStatement,
        List.filter_cons_of_pos (by simpa using hindex), List.flatMap_cons, hcontent]
      rfl
    · have hposition : j.position ≠ p := by
        rintro rfl
        exact hindex (index_eq_of_listEnd hst' hk hend' hend)
      rw [Insertion.contentAt_cons_of_ne hposition, ih hL, forStatement, forStatement,
        List.filter_cons_of_neg (by simpa using hindex)]

theorem exists_request (h : requests.mapM (insertion? (scan s)) = some L) (hj : j ∈ L) :
    ∃ r ∈ requests, r.insertion? (scan s) = some j := by
  induction requests generalizing L with
  | nil =>
    cases h
    contradiction
  | cons r requests ih =>
    obtain ⟨ins, L, hins, hL, rfl⟩ := insertions_cons.1 h
    rcases List.mem_cons.1 hj with rfl | hj
    · exact ⟨r, List.mem_cons_self, hins⟩
    · obtain ⟨r', hr', hj'⟩ := ih hL hj
      exact ⟨r', List.mem_cons_of_mem r hr', hj'⟩

/-- Requests that are the same for each list come to the same at each place. -/
theorem contentAt_congr (h : requests.mapM (insertion? (scan s)) = some L)
    (h' : requests'.mapM (insertion? (scan s)) = some L')
    (hsame : ∀ k, forStatement k requests' = forStatement k requests) :
    Insertion.contentAt p L' = Insertion.contentAt p L := by
  by_cases hlist : ∃ (k : Nat) (st : Statement), (scan s)[k]? = some st ∧ st.listEnd? = some p
  · obtain ⟨k, st, hk, hend⟩ := hlist
    rw [contentAt_insertions hk hend h, contentAt_insertions hk hend h', hsame]
  · have hnone : ∀ {M : List Insertion} {asked : List Request},
        asked.mapM (insertion? (scan s)) = some M → Insertion.contentAt p M = [] := by
      intro M asked hM
      apply Insertion.contentAt_eq_nil
      rintro j hj rfl
      obtain ⟨r, -, hr⟩ := exists_request hM hj
      obtain ⟨st, hst, hend, -⟩ := exists_of_insertion? hr
      exact hlist ⟨r.index, st, hst, hend⟩
    rw [hnone h, hnone h']

/-- One plain item after the other goes where it goes at once. -/
theorem performEach_eq (hitems : ∀ r ∈ requests, Plain r.item)
    (h : requests.mapM (insertion? (scan s)) = some L) :
    performEach requests s = some (Insertion.interleave L 0 s) := by
  induction requests generalizing s L with
  | nil =>
    obtain rfl : [] = L := Option.some.inj h
    rw [Insertion.interleave_nil]
    rfl
  | cons r requests ih =>
    obtain ⟨hr, hrest⟩ := List.forall_mem_cons.1 hitems
    obtain ⟨ins, L, hins, hL, rfl⟩ := insertions_cons.1 h
    obtain ⟨st, hst, hend, -, heq⟩ := exists_of_insertion? hins
    have hpayload : ins.payload = r.item := congrArg Insertion.payload heq
    have hseparator : ins.separator = Insertion.defaultSeparator := congrArg Insertion.separator heq
    obtain ⟨s', happly, hscan⟩ := exists_added (hpayload ▸ hr) hst hend hseparator
    have hlater := insertions_after hst hend hL
    rw [← hscan] at hlater
    have hfirst : perform s r = some s' := by
      rw [perform, hins]
      change (ins.apply s).toOption = some s'
      rw [happly]
      rfl
    rw [performEach, List.foldlM_cons, hfirst, Insertion.interleave_after happly]
    exact ih hrest hlater

theorem performAll_eq (h : requests.mapM (insertion? (scan s)) = some L) :
    performAll requests s = some (Insertion.interleave L 0 s) := by
  have hboundary : ∀ j ∈ L, s.IsBoundary j.position := by
    intro j hj
    obtain ⟨r, -, hr⟩ := exists_request h hj
    obtain ⟨st, -, -, hposition, -⟩ := exists_of_insertion? hr
    exact hposition
  rw [performAll, h]
  change (Insertion.applyAll L s).toOption = _
  rw [Insertion.applyAll_eq_ok hboundary]
  rfl

/-- A request is met by a blank and the item, where the list of the statement ends. -/
def Meets (s : Text) (r : Request) (ins : Insertion) : Prop :=
  ∃ st p, (scan s)[r.index]? = some st ∧ st.listEnd? = some p ∧ ins = ⟨p, [' '], r.item⟩

theorem meets_rightUnique : Relator.RightUnique (Meets s) := by
  rintro r ins j ⟨st, p, hst, hend, rfl⟩ ⟨st', p', hst', hend', rfl⟩
  cases hst.symm.trans hst'
  cases hend.symm.trans hend'
  rfl

theorem meets_of_insertions (h : requests.mapM (insertion? (scan s)) = some L) :
    List.Forall₂ (Meets s) requests L := by
  induction requests generalizing L with
  | nil =>
    cases h
    exact .nil
  | cons r requests ih =>
    obtain ⟨ins, L, hins, hL, rfl⟩ := insertions_cons.1 h
    obtain ⟨st, hst, hend, -, heq⟩ := exists_of_insertion? hins
    exact .cons ⟨st, ins.position, hst, hend, heq⟩ (ih hL)

/-- Plain items that are added one after the other are added as if all at once: each behind a blank
at the end of its list, and those of one list in the order in which they are asked for. The order
of requests for different lists does not matter. -/
theorem performEach_eq_performAll (hitems : ∀ r ∈ requests, Plain r.item)
    (hindices : ∀ r ∈ requests, r.index < (scan s).length) :
    ∃ L, List.Forall₂ (Meets s) requests L ∧
      performAll requests s = some (Insertion.interleave L 0 s) ∧
      performEach requests s = some (Insertion.interleave L 0 s) ∧
      ∀ requests' : List Request,
        (∀ k, forStatement k requests' = forStatement k requests) →
          performEach requests' s = some (Insertion.interleave L 0 s) := by
  obtain ⟨L, hL⟩ := exists_insertions hindices
  refine ⟨L, meets_of_insertions hL, performAll_eq hL, performEach_eq hitems hL, ?_⟩
  intro requests' hsame
  have hmem : ∀ r ∈ requests', r ∈ requests := by
    intro r hr
    have hfor : r ∈ forStatement r.index requests' := List.mem_filter.2 ⟨hr, beq_self_eq_true _⟩
    rw [hsame] at hfor
    exact List.mem_of_mem_filter hfor
  obtain ⟨L', hL'⟩ := exists_insertions fun r hr => hindices r (hmem r hr)
  rw [performEach_eq (fun r hr => hitems r (hmem r hr)) hL']
  exact congrArg some
    (Insertion.interleave_congr (m := 0) fun p _ => contentAt_congr hL hL' hsame)

/-- Two lists that grow by turns. -/
theorem performEach_turns :
    let s := "set(H a.h)\nset(S a.cpp) # end".toList
    let b : Request := ⟨0, "b.h".toList⟩
    let c : Request := ⟨1, "c.cpp".toList⟩
    let d : Request := ⟨1, "d.cpp".toList⟩
    performAll [c, b, d] s = some "set(H a.h b.h)\nset(S a.cpp c.cpp d.cpp) # end".toList ∧
      performEach [c, b, d] s = some "set(H a.h b.h)\nset(S a.cpp c.cpp d.cpp) # end".toList ∧
      performEach [b, c, d] s = some "set(H a.h b.h)\nset(S a.cpp c.cpp d.cpp) # end".toList := by
  intro s b c d
  have hscan : scan s = [⟨.set, "H".toList, [.literal "a.h".toList 6], ⟨0, 10⟩⟩,
      ⟨.set, "S".toList, [.literal "a.cpp".toList 17], ⟨11, 23⟩⟩] := by decide +kernel
  have hitems : ∀ r ∈ [c, b, d], Plain r.item := by
    intro r hr
    simp only [List.mem_cons, List.not_mem_nil, or_false] at hr
    rcases hr with rfl | rfl | rfl <;> exact ⟨by decide, by decide, by decide, by decide⟩
  have hindices : ∀ r ∈ [c, b, d], r.index < (scan s).length := by
    rw [hscan]
    decide
  obtain ⟨L, hmeets, hall, heach, horder⟩ := performEach_eq_performAll hitems hindices
  have hmet : List.Forall₂ (Meets s) [c, b, d]
      [⟨22, [' '], c.item⟩, ⟨9, [' '], b.item⟩, ⟨22, [' '], d.item⟩] := by
    refine .cons ?_ (.cons ?_ (.cons ?_ .nil)) <;> exact ⟨_, _, by rw [hscan]; rfl, rfl, rfl⟩
  obtain rfl := meets_rightUnique.forall₂ hmeets hmet
  refine ⟨hall, heach, horder _ fun k => ?_⟩
  rcases k with - | - | k <;> rfl

end Request
end SourceLists
