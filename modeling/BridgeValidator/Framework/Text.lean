import Mathlib.Data.List.DropRight

/-!
# Lists written as text

Padding is what is dropped at both ends of a text. A list of pieces is written with a
separator between them, and read by splitting, trimming and leaving out what is empty:
reading what was written gives the pieces back, padded or not.
-/

namespace Interaction

variable {α : Type} {p : α → Bool} {sep : α} {l before after : List α} {ls : List (List α)}

/-- The text without the padding around it. -/
def trimBy (p : α → Bool) (l : List α) : List α := (l.dropWhile p).rdropWhile p

theorem rdropWhile_append_of_pos (hafter : ∀ x ∈ after, p x = true) :
    (l ++ after).rdropWhile p = l.rdropWhile p := by
  have hreverse : ∀ x ∈ after.reverse, p x = true := fun x hx => hafter x (List.mem_reverse.mp hx)
  rw [List.rdropWhile, List.reverse_append, List.dropWhile_append_of_pos hreverse,
    List.rdropWhile]

/-- Padding goes. -/
theorem trimBy_pad (hbefore : ∀ x ∈ before, p x = true) (hafter : ∀ x ∈ after, p x = true) :
    trimBy p (before ++ l ++ after) = trimBy p l := by
  rw [List.append_assoc, trimBy, List.dropWhile_append_of_pos hbefore, List.dropWhile_append,
    trimBy]
  by_cases hl : l.dropWhile p = []
  · have hnone : after.dropWhile p = [] := List.dropWhile_eq_nil_iff.mpr hafter
    simp [hl, hnone]
  · rw [if_neg (by simpa using hl)]
    exact rdropWhile_append_of_pos hafter

/-- A text is what is left of it and padding. -/
theorem exists_pad (p : α → Bool) (l : List α) : ∃ before after,
    l = before ++ trimBy p l ++ after ∧ (∀ x ∈ before, p x = true) ∧
      ∀ x ∈ after, p x = true := by
  refine ⟨l.takeWhile p, (l.dropWhile p).rtakeWhile p, ?_, ?_, ?_⟩
  · rw [List.append_assoc, trimBy, List.rdropWhile_append_rtakeWhile,
      List.takeWhile_append_dropWhile]
  · exact fun x hx => List.mem_takeWhile_imp hx
  · exact fun x hx => List.mem_rtakeWhile_imp hx

theorem trimBy_trimBy : trimBy p (trimBy p l) = trimBy p l := by
  obtain ⟨before, after, heq, hbefore, hafter⟩ := exists_pad p l
  conv_rhs => rw [heq, trimBy_pad hbefore hafter]

theorem trimBy_eq_self (h : ∀ x ∈ l, p x = false) : trimBy p l = l := by
  have hdrop : l.dropWhile p = l := by
    rcases l with _ | ⟨x, l⟩
    · rfl
    · rw [List.dropWhile_cons_of_neg]
      exact Bool.eq_false_iff.mp (h x List.mem_cons_self)
  rw [trimBy, hdrop, List.rdropWhile_eq_self_iff]
  intro hl
  exact Bool.eq_false_iff.mp (h _ (List.getLast_mem hl))

theorem mem_of_mem_trimBy {x : α} (h : x ∈ trimBy p l) : x ∈ l := by
  obtain ⟨before, after, heq, -, -⟩ := exists_pad p l
  rw [heq]
  exact List.mem_append_left _ (List.mem_append_right _ h)

/-! ## Pieces -/

variable [BEq α]

/-- What is between the separators, trimmed, and left out if empty. -/
def pieces (p : α → Bool) (sep : α) (l : List α) : List (List α) :=
  ((l.splitOn sep).map (trimBy p)).filter fun piece => !piece.isEmpty

/-- A text that can be a piece. -/
structure IsPiece (p : α → Bool) (sep : α) (l : List α) : Prop where
  nonempty : l ≠ []
  trimmed : trimBy p l = l
  unbroken : sep ∉ l

theorem not_mem_of_mem_splitOn [LawfulBEq α] {piece : List α} (h : piece ∈ l.splitOn sep) :
    sep ∉ piece := by
  induction l generalizing piece with
  | nil =>
      rw [List.splitOn_nil, List.mem_singleton] at h
      subst h
      exact List.not_mem_nil
  | cons x l ih =>
      rw [List.splitOn_cons_eq_if_modifyHead] at h
      split at h
      · rcases List.mem_cons.mp h with rfl | h
        · exact List.not_mem_nil
        · exact ih h
      · rename_i hx
        obtain ⟨first, rest, hsplit⟩ := List.exists_cons_of_ne_nil (List.splitOn_ne_nil sep l)
        rw [hsplit, List.modifyHead_cons] at h
        rw [hsplit] at ih
        rcases List.mem_cons.mp h with rfl | h
        · have hfirst := ih List.mem_cons_self
          intro hmem
          rcases List.mem_cons.mp hmem with rfl | hmem
          · exact hx (beq_self_eq_true _)
          · exact hfirst hmem
        · exact ih (List.mem_cons_of_mem _ h)

/-- Only pieces are read. -/
theorem isPiece_of_mem_pieces [LawfulBEq α] {piece : List α} (h : piece ∈ pieces p sep l) :
    IsPiece p sep piece := by
  obtain ⟨hmem, hne⟩ := List.mem_filter.mp h
  obtain ⟨field, hfield, rfl⟩ := List.mem_map.mp hmem
  refine ⟨?_, trimBy_trimBy, fun hsep => ?_⟩
  · simpa using hne
  · exact not_mem_of_mem_splitOn hfield (mem_of_mem_trimBy hsep)

/-- What is written between separators is read, trimmed. -/
theorem pieces_intercalate [LawfulBEq α] (h : ∀ field ∈ ls, sep ∉ field) :
    pieces p sep ([sep].intercalate ls) =
      (ls.map (trimBy p)).filter fun piece => !piece.isEmpty := by
  by_cases hls : ls = []
  · subst hls
    rfl
  · rw [pieces, List.splitOn_intercalate sep h hls]

/-- Pieces are read as they were written. -/
theorem pieces_of_isPiece [LawfulBEq α] (h : ∀ piece ∈ ls, IsPiece p sep piece) :
    pieces p sep ([sep].intercalate ls) = ls := by
  rw [pieces_intercalate fun field hfield => (h field hfield).unbroken]
  have htrimmed : ls.map (trimBy p) = ls := by
    conv_rhs => rw [← List.map_id ls]
    exact List.map_congr_left fun piece hpiece => (h piece hpiece).trimmed
  rw [htrimmed, List.filter_eq_self]
  intro piece hpiece
  simpa using (h piece hpiece).nonempty

end Interaction
