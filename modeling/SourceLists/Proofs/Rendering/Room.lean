import SourceLists.Proofs.Rendering.Line

/-! How much room items and keywords take, so that there is none for a keyword between written
items. -/

namespace SourceLists
open Grammar Grammar.Argument

namespace Grammar

variable {toks : List Token} {args : List Argument} {rest : Text} {item : Item.Content}
  {i : Invocation} {kind : Kind} {name : Text}

/-- The room that tokens take, each with a space. -/
def room (toks : List Token) : Nat := (toks.flatMap fun tok => ' ' :: tok.text).length

theorem room_nil : room [] = 0 := rfl

theorem room_cons {tok : Token} : room (tok :: toks) = tok.text.length + 1 + room toks := by
  rw [room, List.flatMap_cons, List.length_append, List.length_cons]
  rfl

theorem length_token_le {tok : Token} (h : tok.content? = some item) :
    item.token.text.length ≤ tok.text.length := by
  cases tok with
  | keyword w => contradiction
  | literal x =>
    cases h
    exact Nat.le_refl _
  | reference quoted v =>
    cases h
    cases quoted with
    | false => exact Nat.le_refl _
    | true =>
      simp only [Item.Content.token, Token.text, List.length_append]
      omega

/-- Arguments take the room of their tokens at least. -/
theorem room_le_length (hlaid : Laid rest args)
    (hsound : ∀ tok ∈ args.map Argument.token, tok.Sound) :
    room (args.map Argument.token) ≤ (texts args).length + 1 := by
  induction args with
  | nil => exact Nat.zero_le _
  | cons a args ih =>
    have htail := ih hlaid.2.2.2 fun tok htok => hsound tok (List.mem_cons_of_mem _ htok)
    rw [List.map_cons, room_cons, texts_cons, List.length_append, List.length_append]
    cases args with
    | nil =>
      rw [List.map_nil, room_nil]
      omega
    | cons b args =>
      have hgap := List.length_pos_iff.2 (gap_ne_nil hlaid (hsound b.token (by simp)))
      omega

/-- Every keyword takes room besides the items. -/
theorem room_contents_le (hsound : ∀ tok ∈ toks, tok.Sound) :
    room ((contents toks).map Item.Content.token) +
      2 * toks.countP (fun tok => tok.content?.isNone) ≤
      room toks := by
  induction toks with
  | nil => exact Nat.le_refl _
  | cons tok toks ih =>
    obtain ⟨htok, hsound⟩ := List.forall_mem_cons.1 hsound
    have hlen := List.length_pos_iff.2 htok.ne_nil
    have htail := ih hsound
    rw [contents] at htail ⊢
    rw [List.filterMap_cons, List.countP_cons, room_cons]
    cases hc : tok.content? with
    | none =>
      simp only [Option.isNone_none, if_true]
      omega
    | some item =>
      have hitem := length_token_le hc
      rw [List.map_cons, room_cons]
      simp only [Option.isNone_some, Bool.false_eq_true, if_false]
      omega

theorem room_eq_length (hne : toks ≠ []) : room toks = (texts (spaced toks)).length + 1 := by
  fun_induction spaced toks with
  | case1 => contradiction
  | case2 tok => simp [room_cons, room_nil]
  | case3 tok next toks ih =>
    rw [room_cons, ih (List.cons_ne_nil _ _), texts_cons]
    simp only [List.length_append, List.length_cons, List.length_nil]
    omega

theorem length_line : (line kind name toks).length =
    kind.command.toList.length + name.length + (texts (spaced toks)).length + 3 := by
  rw [line, ← texts_spaced]
  simp only [List.length_append, List.length_cons, List.length_nil]
  omega

theorem Invocation.WellFormed.length_text (h : i.WellFormed) (hkind : i.kind = some kind) :
    kind.command.toList.length + i.name.length + (texts i.arguments).length + 2 ≤
      i.text.length := by
  have hword := congrArg List.length h.word
  rw [List.length_map, hkind] at hword
  have hcommand : command (some kind) = kind.command.toList := rfl
  have htext : (i.text ++ []).length = _ := congrArg List.length i.text_append
  rw [List.append_nil] at htext
  simp only [List.length_append, List.length_cons, List.length_nil, hword, hcommand] at htext
  omega

/-- Where a line of items has all that is read, there is no room for a keyword. -/
theorem isItem_of_line {items : List Item.Content} (hne : items ≠ []) (h : i.WellFormed)
    (hkind : i.kind = some kind) (hsay : contents (i.arguments.map Argument.token) = items)
    (hlength : i.text.length ≤ (line kind i.name (items.map Item.Content.token)).length) :
    ∀ tok ∈ i.arguments.map Argument.token, tok.IsItem := by
  have hsound := sound_of_accepts h.accepts
  have hread := room_contents_le hsound
  have hargs := room_le_length h.laid hsound
  have hwritten : room (items.map Item.Content.token) = _ := room_eq_length (by simpa using hne)
  have hshort := h.length_text hkind
  rw [hsay] at hread
  rw [length_line] at hlength
  have hcount : (i.arguments.map Argument.token).countP (fun tok => tok.content?.isNone) = 0 := by
    omega
  intro tok htok
  apply (hsound tok htok).isItem
  rintro ⟨w, rfl⟩
  exact List.countP_eq_zero.1 hcount _ htok rfl

end Grammar
end SourceLists
