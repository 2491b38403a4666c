import SourceLists.CommandLine.Run
import SourceLists.Proofs.Insertion.Interleaving
import SourceLists.Proofs.Insertion.Success

/-! What a run prints and what becomes of the script, in each of the ways in which the result can be
asked for. -/

namespace SourceLists.CommandLine

variable {o : Options} {inColour : Bool} {s : Text} {script : Script} {L : List Insertion}

/-- The text of a script once a call has ended. -/
def Ending.scriptAfter (before : Text) (e : Ending) : Text := e.replacement.getD before

theorem spacing_eq (o : Options) (s : Text) :
    spacing o s = .single ∨ spacing o s = .matching s := by
  rw [spacing]
  split
  · exact Or.inl rfl
  · exact Or.inr rfl

/-- A single file goes to a place that was searched for. -/
theorem exists_lookup {place : Anchor} (h : anchor o script = .ok place) :
    ∃ lookup : Anchor.Lookup, lookup.find script = .ok place := by
  rw [anchor] at h
  split at h
  · next reference _ => exact ⟨.nextTo reference, mapError_eq_ok.1 h⟩
  · next name _ _ => exact ⟨.ofVariable name, mapError_eq_ok.1 h⟩
  · next target _ _ _ => exact ⟨.ofTarget target, mapError_eq_ok.1 h⟩
  · contradiction

/-- All that a run inserts has its place in the script. -/
theorem isBoundary_of_insertions (h : insertions o s (scan s) = .ok L) :
    ∀ ins ∈ L, s.IsBoundary ins.position := by
  have hspacing := spacing_eq o s
  rw [insertions] at h
  split at h
  · obtain ⟨place, hplace, h⟩ := bind_eq_ok.1 h
    obtain ⟨ins, hins, h⟩ := bind_eq_ok.1 h
    cases h
    obtain ⟨lookup, hlookup⟩ := exists_lookup hplace
    have hfound := lookup.searched (scan s)
    rw [hlookup] at hfound
    obtain ⟨ins', s', hins', happly⟩ := hfound.exists_insert hspacing o.name
    obtain rfl : ins' = ins := Except.ok.inj (hins'.symm.trans (mapError_eq_ok.1 hins))
    exact List.forall_mem_singleton.2 (Insertion.isBoundary_of_apply happly)
  · obtain ⟨c, hc, h⟩ := bind_eq_ok.1 h
    cases h
    have hc := mapError_eq_ok.1 hc
    rcases ClassInsertions.nextTo_cases o.extensions o.name (o.referenceClass.getD []) hspacing with
      ⟨c', header, implementation, hc', hheader, himplementation⟩ | ⟨e, herror, -⟩
    · obtain rfl : c' = c := Except.ok.inj (hc'.symm.trans hc)
      exact List.forall_mem_cons.2 ⟨Insertion.isBoundary_of_apply hheader,
        List.forall_mem_singleton.2 (Insertion.isBoundary_of_apply himplementation)⟩
    · rw [hc] at herror
      contradiction

/-- A script is edited as soon as it is known what goes where. -/
theorem edited_eq (h : insertions o s (scan s) = .ok L) :
    edited o s = .ok (Insertion.interleave L 0 s) := by
  rw [edited, h]
  change (Insertion.applyAll L s).mapError RunError.insert = _
  rw [Insertion.applyAll_eq_ok (isBoundary_of_insertions h)]
  rfl

theorem edited_eq_error {e : RunError} (h : insertions o s (scan s) = .error e) :
    edited o s = .error e := by
  rw [edited, h]
  rfl

theorem execute_printed (h : o.printScript = true) :
    execute o inColour (some s) = .ok ⟨(Script.listing (scan s)).pretty 0 ++ ['\n'], none⟩ := by
  simp only [execute, h, if_true]
  rfl

theorem execute_edited (h : o.printScript = false) :
    execute o inColour (some s) = edited o s >>= fun text =>
      if o.inPlace then .ok ⟨[], some text⟩
      else if o.diff then .ok ⟨Diff.print inColour s text, none⟩
      else .ok ⟨text, none⟩ := by
  simp only [execute, h]
  rfl

/-- Where the new text goes has no part in what it is. -/
theorem execute_setInPlace {b : Bool} (hdiff : o.diff = false) (hprint : o.printScript = false) :
    execute { o with inPlace := b } inColour (some s) = edited o s >>= fun text =>
      if b then .ok ⟨[], some text⟩ else .ok ⟨text, none⟩ := by
  have hedited : edited { o with inPlace := b } s = edited o s := rfl
  rw [execute_edited (o := { o with inPlace := b }) hprint, hedited]
  simp only [hdiff, Bool.false_eq_true, if_false]

theorem scriptAfter_execute (h : o.printScript = true ∨ o.inPlace = false) :
    (Ending.ofResult (execute o inColour (some s))).scriptAfter s = s := by
  cases hprint : o.printScript with
  | true =>
    rw [execute_printed hprint]
    rfl
  | false =>
    have hkept : o.inPlace = false := by simpa [hprint] using h
    rw [execute_edited hprint, hkept]
    cases edited o s with
    | error e => rfl
    | ok text =>
      change (Ending.ofResult (if o.diff then .ok ⟨Diff.print inColour s text, none⟩
        else .ok ⟨text, none⟩)).scriptAfter s = s
      split <;> rfl

/-- A run that fails prints nothing and leaves the script as it is: what it prints and what it
writes come last, when nothing can fail any more, and so an error comes with neither of them. A run
that only shows the script or its changes leaves the script as it is, too. A run that writes the
script in place fails like one that prints the new text, or writes that text: the old one with each
insertion at its place. -/
theorem modes_agree (o : Options) (inColour : Bool) (s : Text) :
    (∀ e, execute o inColour (some s) = .error e →
      (Ending.ofResult (execute o inColour (some s))).output = [] ∧
        (Ending.ofResult (execute o inColour (some s))).scriptAfter s = s) ∧
    (o.printScript = true ∨ o.inPlace = false →
      (Ending.ofResult (execute o inColour (some s))).scriptAfter s = s) ∧
    (o.diff = false → o.printScript = false →
      (∃ e, execute { o with inPlace := true } inColour (some s) = .error e ∧
        execute { o with inPlace := false } inColour (some s) = .error e) ∨
      ∃ L, insertions o s (scan s) = .ok L ∧ (∀ ins ∈ L, s.IsBoundary ins.position) ∧
        s.Sublist (Insertion.interleave L 0 s) ∧
        execute { o with inPlace := true } inColour (some s) =
          .ok ⟨[], some (Insertion.interleave L 0 s)⟩ ∧
        execute { o with inPlace := false } inColour (some s) =
          .ok ⟨Insertion.interleave L 0 s, none⟩) := by
  refine ⟨fun e herror => ?_, scriptAfter_execute, fun hdiff hprint => ?_⟩
  · rw [herror]
    exact ⟨rfl, rfl⟩
  · rw [execute_setInPlace hdiff hprint, execute_setInPlace hdiff hprint]
    cases hinsertions : insertions o s (scan s) with
    | error e =>
      rw [edited_eq_error hinsertions]
      exact Or.inl ⟨e, rfl, rfl⟩
    | ok L =>
      rw [edited_eq hinsertions]
      exact Or.inr ⟨L, rfl, isBoundary_of_insertions hinsertions,
        Insertion.sublist_interleave, rfl, rfl⟩

/-- A class that is printed, and written in place. -/
theorem modes_agree_class :
    let o : Options :=
      { script := "CMakeLists.txt".toList, name := "b".toList, referenceClass := some "a".toList
        inPlace := false, singleFile := false, toVariable := none, toTarget := none
        plainSpacing := true, diff := false, printScript := false, headerExtensions := []
        implementationExtensions := [], verbose := false }
    let s := "set(H a.h)\nset(S a.c)".toList
    execute { o with inPlace := true } false (some s) =
        .ok ⟨[], some "set(H a.h b.h)\nset(S a.c b.c)".toList⟩ ∧
      execute { o with inPlace := false } false (some s) =
        .ok ⟨"set(H a.h b.h)\nset(S a.c b.c)".toList, none⟩ := by
  intro o s
  have hinsertions : insertions o s (scan s) =
      .ok [⟨9, [' '], "b.h".toList⟩, ⟨20, [' '], "b.c".toList⟩] := by decide +kernel
  rcases (modes_agree o false s).2.2 rfl rfl with ⟨e, herror, -⟩ | ⟨L, hL, -, -, hwritten, hprinted⟩
  · rw [execute_setInPlace rfl rfl, edited_eq hinsertions] at herror
    contradiction
  · cases hinsertions.symm.trans hL
    exact ⟨hwritten, hprinted⟩

end SourceLists.CommandLine
