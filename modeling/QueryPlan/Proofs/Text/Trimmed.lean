import Mathlib.Data.List.DropRight
import QueryPlan.Text.Blank

namespace QueryPlan.Text

variable {α : Type} {p : α → Bool} {xs ys : List α}

/-- What is left of a list without what fulfils `p` at both of its ends. -/
structure Trimmed (p : α → Bool) (ys xs : List α) : Prop where
  around : ∃ left right, xs = left ++ (ys ++ right) ∧ (∀ a ∈ left, p a) ∧ ∀ a ∈ right, p a
  first : ∀ h : ys ≠ [], ¬ p (ys.head h)
  last : ∀ h : ys ≠ [], ¬ p (ys.getLast h)

theorem trimEnds_trimmed (p : α → Bool) (xs : List α) : Trimmed p (trimEnds p xs) xs := by
  have kept : trimEnds p xs = (xs.dropWhile p).rdropWhile p := rfl
  rw [kept]
  constructor
  · refine ⟨xs.takeWhile p, (xs.dropWhile p).rtakeWhile p, ?_, ?_, ?_⟩
    · rw [List.rdropWhile_append_rtakeWhile, List.takeWhile_append_dropWhile]
    · exact fun a => List.mem_takeWhile_imp
    · exact fun a => List.mem_rtakeWhile_imp
  · intro h
    rw [(List.rdropWhile_prefix p _).head h]
    exact Bool.eq_false_iff.1 (List.head_dropWhile_not p _)
  · intro h
    exact List.rdropWhile_last_not p _ h

theorem dropWhile_append_of_head (some : ys ≠ []) (first : ¬ p (ys.head some)) (rest : List α) :
    (ys ++ rest).dropWhile p = ys ++ rest := by
  rw [List.dropWhile_eq_self_iff]
  intro _
  rw [List.getElem_append_left (List.length_pos_iff.2 some), ← List.head_eq_getElem]
  exact first

/-- There is only one way to trim a list. -/
theorem Trimmed.eq_trimEnds (h : Trimmed p ys xs) : trimEnds p xs = ys := by
  obtain ⟨⟨left, right, rfl, blank, blank'⟩, first, last⟩ := h
  have kept : trimEnds p (left ++ (ys ++ right)) =
      ((left ++ (ys ++ right)).dropWhile p).rdropWhile p := rfl
  rw [kept, List.dropWhile_append_of_pos blank]
  by_cases empty : ys = []
  · subst empty
    have gone : right.dropWhile p = [] := List.dropWhile_eq_nil_iff.2 blank'
    rw [List.nil_append, gone]
    rfl
  · have gone : (right.reverse ++ ys.reverse).dropWhile p = ys.reverse.dropWhile p :=
      List.dropWhile_append_of_pos fun a ha => blank' a (List.mem_reverse.1 ha)
    rw [dropWhile_append_of_head empty (first empty), List.rdropWhile, List.reverse_append, gone]
    exact List.rdropWhile_eq_self_iff.2 last

end QueryPlan.Text
