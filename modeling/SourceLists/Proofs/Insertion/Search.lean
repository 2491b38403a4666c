import Mathlib.Data.List.Forall2
import SourceLists.Proofs.Insertion.ListEnd

/-! A reference is found where it was once an item is added, unless the new item is what is searched
for. -/

namespace SourceLists

variable {s r t : Text} {ins j : Insertion} {item : Item} {old new st : Statement} {k : Nat}
  {script script' : Script} {accepts : Text → Bool}

theorem Item.path_moved : (item.moved ins).path = item.path := by
  cases item with
  | literal text start => rfl
  | reference name span => rfl

namespace Anchor

variable {anchor anchor' : Anchor} {stages : List Stage}

/-- The same place after an insertion. -/
structure Follows (ins : Insertion) (anchor anchor' : Anchor) : Prop where
  statement : anchor.statement.Follows ins anchor'.statement
  matched : anchor'.matched = anchor.matched.map (Item.moved ins)

theorem Follows.payload_eq (h : anchor.Follows ins anchor') :
    anchor'.payload t = anchor.payload t := by
  rw [payload, payload, h.matched]
  cases anchor.matched with
  | none => rfl
  | some item =>
    simp only [Option.map_some, Item.path_moved]

/-- At the same place a further item goes where it would have gone, moved along. -/
theorem Follows.insert_eq_ok (h : anchor.Follows ins anchor')
    (hj : anchor.insert t .single = .ok j) :
    anchor'.insert t .single = .ok (ins.after j) := by
  obtain ⟨hend, hpayload, hseparator⟩ := Anchor.insert_eq_ok.1 hj
  refine Anchor.insert_eq_ok.2 ⟨?_, ?_, hseparator⟩
  · rw [h.statement.listEnd, hend]
    rfl
  · rw [h.payload_eq, hpayload]
    rfl

end Anchor
end SourceLists
