import Mathlib.Data.List.Count

/-!
# Ledgers

The history of a pool of reusable handles, descriptors for instance, as one
component opens and closes them. A handle that was closed may be given out
again, to this component or to another one, so a close is good or bad by what
came before it.

Both halves of a kept ledger count the same thing, the closes of a handle before
it is opened again: one of them after an opening, none after a close.
`count_closed` turns the first half into an equation between totals, which is
how a handle that is never closed is found out.
-/

namespace Ledger

variable {φ : Type} [DecidableEq φ]

/-- What can be entered into a ledger. -/
inductive Event (φ : Type) where
  | opened (x : φ)
  | closed (x : φ)
  deriving DecidableEq, Repr

/-- How often `x` is closed before it is opened again. -/
def closes (x : φ) (es : List (Event φ)) : Nat :=
  (es.takeWhile fun e => e ≠ .opened x).count (.closed x)

/-- The ledger is in order as far as `x` is concerned. -/
structure Kept (x : φ) (es : List (Event φ)) : Prop where
  /-- Each time it was opened, it is closed once. -/
  closedOnce : ∀ before after, es = before ++ .opened x :: after → closes x after = 1
  /-- Once closed, it is not closed again. -/
  notAgain : ∀ before after, es = before ++ .closed x :: after → closes x after = 0

/-! ## Counting closes -/

@[simp] theorem closes_nil (x : φ) : closes x [] = 0 := rfl

@[simp] theorem closes_opened_self (x : φ) (es : List (Event φ)) :
    closes x (.opened x :: es) = 0 := by simp [closes]

@[simp] theorem closes_opened_ne {x y : φ} (h : y ≠ x) (es : List (Event φ)) :
    closes x (.opened y :: es) = closes x es := by simp [closes, h]

@[simp] theorem closes_closed_self (x : φ) (es : List (Event φ)) :
    closes x (.closed x :: es) = closes x es + 1 := by simp [closes]

@[simp] theorem closes_closed_ne {x y : φ} (h : y ≠ x) (es : List (Event φ)) :
    closes x (.closed y :: es) = closes x es := by simp [closes, h]

/-! ## Keeping a ledger -/

theorem kept_nil (x : φ) : Kept x [] := ⟨by simp, by simp⟩

theorem Kept.tail {x : φ} {e : Event φ} {es : List (Event φ)} (h : Kept x (e :: es)) :
    Kept x es where
  closedOnce := fun before after heq => h.closedOnce (e :: before) after (by rw [heq]; rfl)
  notAgain := fun before after heq => h.notAgain (e :: before) after (by rw [heq]; rfl)

/-- The first event decides what may follow it. -/
theorem kept_cons {x : φ} {e : Event φ} {es : List (Event φ)} :
    Kept x (e :: es) ↔ (e = .opened x → closes x es = 1) ∧ (e = .closed x → closes x es = 0) ∧
      Kept x es := by
  constructor
  · intro h
    exact ⟨fun he => h.closedOnce [] es (by rw [he]; rfl),
      fun he => h.notAgain [] es (by rw [he]; rfl), h.tail⟩
  · intro h
    rcases h with ⟨hone, hnone, h⟩
    constructor <;> intro before after heq
    · rcases List.cons_eq_append_iff.mp heq with ⟨rfl, htail⟩ | ⟨before', rfl, htail⟩
      · cases htail; exact hone rfl
      · exact h.closedOnce before' after htail
    · rcases List.cons_eq_append_iff.mp heq with ⟨rfl, htail⟩ | ⟨before', rfl, htail⟩
      · cases htail; exact hnone rfl
      · exact h.notAgain before' after htail

/-- A handle opened and closed at once; `y` may be `x`. -/
theorem kept_pair {x y : φ} {es : List (Event φ)} :
    Kept x (.opened y :: .closed y :: es) ↔ (y = x → closes x es = 0) ∧ Kept x es := by
  rw [kept_cons, kept_cons]
  by_cases hy : y = x
  · subst hy
    simp
  · simp [hy]

/-- **In a kept ledger the totals agree**, but for closes before the first opening. -/
theorem Kept.count_closed {x : φ} {es : List (Event φ)} (h : Kept x es) :
    es.count (.closed x) = es.count (.opened x) + closes x es := by
  induction es with
  | nil => rfl
  | cons e es ih =>
      have ih := ih h.tail
      by_cases ho : e = .opened x
      · subst ho
        -- the one close after the opening balances it
        have hone := (kept_cons.mp h).1 rfl
        simp only [closes_opened_self, List.count_cons_self]
        rw [List.count_cons_of_ne (by simp), ih, hone, Nat.add_zero]
      · by_cases hc : e = .closed x
        · subst hc
          simp only [closes_closed_self, List.count_cons_self]
          rw [List.count_cons_of_ne (by simp), ih, Nat.add_assoc]
        · have hskip : closes x (e :: es) = closes x es := by simp [closes, ho, hc]
          rw [List.count_cons_of_ne hc, List.count_cons_of_ne ho, hskip, ih]

end Ledger
