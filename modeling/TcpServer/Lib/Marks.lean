import Mathlib.Data.List.Basic

/-!
# Marked parts of a text

A text some of whose parts are marked, as a terminal is told to change colours and
to change them back: a part begins with `esc` and ends with another one, what
follows that, and `fin`. `unmark` is what is left of the text without them.

It does not matter what stands in the parts, nor between them, as long as there is
no further `esc` (`unmark_append`, `unmark_part`).
-/

namespace Marks

variable {α : Type} [DecidableEq α] {esc fin : α} {xs : List α}

/-- Where a reader of the text is. -/
inductive Place where
  | outside
  | inside
  /-- Behind the second `esc`. -/
  | closing

/-- What is outside of the marked parts, for a reader at some place. -/
def read (esc fin : α) : Place → List α → List α
  | _, [] => []
  | .outside, x :: xs =>
      if x = esc then read esc fin .inside xs else x :: read esc fin .outside xs
  | .inside, x :: xs => if x = esc then read esc fin .closing xs else read esc fin .inside xs
  | .closing, x :: xs => if x = fin then read esc fin .outside xs else read esc fin .closing xs

/-- The text without its marked parts. -/
def unmark (esc fin : α) : List α → List α := read esc fin .outside

/-- A marked part. -/
structure Part (esc fin : α) (xs : List α) : Prop where
  split : ∃ body close, xs = esc :: body ++ esc :: close ++ [fin] ∧ esc ∉ body ∧ fin ∉ close

theorem unmark_append (h : esc ∉ xs) (rest : List α) :
    unmark esc fin (xs ++ rest) = xs ++ unmark esc fin rest := by
  induction xs with
  | nil => rfl
  | cons x xs ih =>
      obtain ⟨hx, hxs⟩ := not_or.mp (mt List.mem_cons.mpr h)
      have hrest : unmark esc fin (xs ++ rest) = xs ++ unmark esc fin rest := ih hxs
      simp only [unmark, List.cons_append, read, if_neg (Ne.symm hx)] at hrest ⊢
      rw [hrest]

theorem read_inside (h : esc ∉ xs) (rest : List α) :
    read esc fin .inside (xs ++ esc :: rest) = read esc fin .closing rest := by
  induction xs with
  | nil => simp [read]
  | cons x xs ih =>
      obtain ⟨hx, hxs⟩ := not_or.mp (mt List.mem_cons.mpr h)
      rw [List.cons_append, read, if_neg (Ne.symm hx), ih hxs]

theorem read_closing (h : fin ∉ xs) (rest : List α) :
    read esc fin .closing (xs ++ fin :: rest) = unmark esc fin rest := by
  induction xs with
  | nil => simp [read, unmark]
  | cons x xs ih =>
      obtain ⟨hx, hxs⟩ := not_or.mp (mt List.mem_cons.mpr h)
      rw [List.cons_append, read, if_neg (Ne.symm hx), ih hxs]

/-- **A marked part leaves nothing.** -/
theorem unmark_part (h : Part esc fin xs) (rest : List α) :
    unmark esc fin (xs ++ rest) = unmark esc fin rest := by
  obtain ⟨body, close, rfl, hbody, hclose⟩ := h.split
  have hopen : unmark esc fin (esc :: (body ++ esc :: (close ++ fin :: rest)))
      = read esc fin .inside (body ++ esc :: (close ++ fin :: rest)) := by
    simp [unmark, read]
  rw [List.append_assoc, List.append_assoc, List.cons_append, List.cons_append,
    List.singleton_append, hopen, read_inside hbody, read_closing hclose]

end Marks
