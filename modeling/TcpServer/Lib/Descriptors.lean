import Mathlib.Logic.Function.Basic

/-!
# Descriptor tables

What a process's descriptor numbers refer to, and the three ways a table
changes: a call that opens a file puts it under a number, `close` frees a
number, `dup2` makes one number refer to what another refers to.

A table is finite: `bound` lies above every number in use. That is what makes
the lowest free number, which the system hands out, computable.
-/

/-- What each descriptor refers to. -/
structure Descriptors (φ : Type) where
  get : Nat → Option φ
  bound : Nat
  get_of_le : ∀ fd, bound ≤ fd → get fd = none

namespace Descriptors

variable {φ : Type}

/-- Nothing is open. -/
def empty : Descriptors φ where
  get _ := none
  bound := 0
  get_of_le _ _ := rfl

/-- `fd` refers to `f` from now on. -/
def install (t : Descriptors φ) (fd : Nat) (f : φ) : Descriptors φ where
  get := Function.update t.get fd (some f)
  bound := max t.bound (fd + 1)
  get_of_le := by
    intro k hk
    have hne : k ≠ fd := by omega
    rw [Function.update_of_ne hne]
    exact t.get_of_le k (by omega)

/-- `close(fd)`. On a number that is not open it fails and changes nothing. -/
def close (t : Descriptors φ) (fd : Nat) : Descriptors φ where
  get := Function.update t.get fd none
  bound := t.bound
  get_of_le := by
    intro k hk
    by_cases hkf : k = fd
    · subst hkf; exact Function.update_self ..
    · rw [Function.update_of_ne hkf]; exact t.get_of_le k hk

/-- `dup2(oldfd, newfd)`: it fails if `oldfd` is not open, and does nothing if the two are one. -/
def dup2 (t : Descriptors φ) (oldfd newfd : Nat) : Descriptors φ :=
  match t.get oldfd with
  | none => t
  | some f => if oldfd = newfd then t else t.install newfd f

/-- The lowest number from `k` on that is not in use. -/
def lowestFreeFrom (t : Descriptors φ) (k : Nat) : Nat :=
  ((List.range (max t.bound k + 1)).find? fun fd => k ≤ fd ∧ (t.get fd).isNone).getD k

/-- The lowest number that is not in use. -/
def lowestFree (t : Descriptors φ) : Nat := t.lowestFreeFrom 0

/-! ## What each operation does to a number -/

@[simp] theorem get_install_self (t : Descriptors φ) (fd : Nat) (f : φ) :
    (t.install fd f).get fd = some f := Function.update_self ..

theorem get_install_ne (t : Descriptors φ) {fd k : Nat} (f : φ) (h : k ≠ fd) :
    (t.install fd f).get k = t.get k := Function.update_of_ne h ..

@[simp] theorem get_close_self (t : Descriptors φ) (fd : Nat) : (t.close fd).get fd = none :=
  Function.update_self ..

theorem get_close_ne (t : Descriptors φ) {fd k : Nat} (h : k ≠ fd) :
    (t.close fd).get k = t.get k := Function.update_of_ne h ..

/-- Closing makes nothing refer to anything new. -/
theorem get_of_get_close {t : Descriptors φ} {fd k : Nat} {f : φ}
    (h : (t.close fd).get k = some f) : k ≠ fd ∧ t.get k = some f := by
  by_cases hk : k = fd
  · subst hk
    rw [get_close_self] at h
    cases h
  · rw [get_close_ne t hk] at h
    exact ⟨hk, h⟩

/-- Both numbers refer to the same file afterwards. -/
theorem get_dup2_self {t : Descriptors φ} {oldfd : Nat} {f : φ} (h : t.get oldfd = some f)
    (newfd : Nat) : (t.dup2 oldfd newfd).get newfd = some f := by
  rw [dup2, h]
  by_cases heq : oldfd = newfd
  · subst heq
    simpa using h
  · simp [heq]

theorem get_dup2_ne (t : Descriptors φ) (oldfd : Nat) {newfd k : Nat} (h : k ≠ newfd) :
    (t.dup2 oldfd newfd).get k = t.get k := by
  rw [dup2]
  split
  · rfl
  · split
    · rfl
    · exact get_install_ne t _ h

/-- A free number is not an open one. -/
theorem ne_of_free {t : Descriptors φ} {fd k : Nat} (hfd : t.get fd = none) (hk : t.get k ≠ none) :
    fd ≠ k := by
  intro heq
  rw [heq] at hfd
  exact hk hfd

/-! ## The lowest free number -/

theorem lowestFreeFrom_spec (t : Descriptors φ) (k : Nat) :
    (k ≤ t.lowestFreeFrom k ∧ t.get (t.lowestFreeFrom k) = none) ∧
      ∀ fd < t.lowestFreeFrom k, k ≤ fd → t.get fd ≠ none := by
  unfold lowestFreeFrom
  cases hf : (List.range (max t.bound k + 1)).find? fun fd => k ≤ fd ∧ (t.get fd).isNone with
  | none =>
      -- the number at the bound is free
      have hbound := List.find?_range_eq_none.mp hf (max t.bound k) (Nat.lt_succ_self _)
      simp only [t.get_of_le (max t.bound k) (Nat.le_max_left _ _), Nat.le_max_right,
        Option.isNone_none, and_self, decide_true, Bool.not_true, Bool.false_eq_true] at hbound
  | some fd =>
      obtain ⟨hfree, _, hbelow⟩ := List.find?_range_eq_some.mp hf
      refine ⟨by simpa using hfree, ?_⟩
      intro k' hk' hle
      have hno := hbelow k' hk'
      simpa [hle] using hno

theorem le_lowestFreeFrom (t : Descriptors φ) (k : Nat) : k ≤ t.lowestFreeFrom k :=
  (lowestFreeFrom_spec t k).1.1

/-- It is free. -/
@[simp] theorem get_lowestFreeFrom (t : Descriptors φ) (k : Nat) :
    t.get (t.lowestFreeFrom k) = none := (lowestFreeFrom_spec t k).1.2

/-- Any free number from `k` on is at or above it. -/
theorem lowestFreeFrom_le {t : Descriptors φ} {k fd : Nat} (hk : k ≤ fd) (h : t.get fd = none) :
    t.lowestFreeFrom k ≤ fd := by
  by_contra hlt
  exact (lowestFreeFrom_spec t k).2 fd (Nat.lt_of_not_le hlt) hk h

/-! ## Descriptors in an `int` -/

/-- What a 32-bit integer names; nothing if it is negative. -/
def named (t : Descriptors φ) (fd : BitVec 32) : Option φ :=
  if fd.toInt < 0 then none else t.get fd.toNat

/-- It can be handed out as a descriptor. -/
def Unused (t : Descriptors φ) (fd : BitVec 32) : Prop :=
  0 ≤ fd.toInt ∧ (t.get fd.toNat).isNone = true

instance (t : Descriptors φ) (fd : BitVec 32) : Decidable (t.Unused fd) :=
  inferInstanceAs (Decidable (_ ∧ _))

theorem named_install_self (t : Descriptors φ) {fd : BitVec 32} (f : φ) (h : 0 ≤ fd.toInt) :
    (t.install fd.toNat f).named fd = some f := by
  rw [named, if_neg (by omega), get_install_self]

end Descriptors
