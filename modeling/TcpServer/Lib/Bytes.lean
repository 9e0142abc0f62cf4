import Mathlib.Algebra.Ring.Nat

/-!
# Integers in memory

A stretch of memory as a function from offsets to bytes, and integers of any
width in it, least significant byte first.

`load_store_self` reads back what was stored there, `load_store_ne` what was
stored elsewhere; everything about records laid out in memory follows from these
two by comparing offsets.
-/

namespace Bytes

/-- The bytes from some address on. -/
abbrev Buffer := Nat → UInt8

/-- The `k` bytes at `off`, as an unsigned integer. -/
def load (m : Buffer) : Nat → Nat → Nat
  | _, 0 => 0
  | off, k + 1 => (m off).toNat + 256 * load m (off + 1) k

/-- `v` is put into the `k` bytes at `off`. What does not fit is cut off. -/
def store (m : Buffer) (off k v : Nat) : Buffer := fun i =>
  if off ≤ i ∧ i < off + k then UInt8.ofNat (v / 256 ^ (i - off)) else m i

/-- The first `k` bytes come from `src`. -/
def overwrite (m src : Buffer) (k : Nat) : Buffer := fun i => if i < k then src i else m i

/-! ## Reading back -/

/-- An integer depends on its own bytes only. -/
theorem load_congr {m m' : Buffer} {off k : Nat}
    (h : ∀ i, off ≤ i → i < off + k → m i = m' i) : load m off k = load m' off k := by
  induction k generalizing off with
  | zero => rfl
  | succ k ih =>
      rw [load, load, h off (Nat.le_refl _) (by omega), ih]
      intro i hle hlt
      exact h i (by omega) (by omega)

/-- Past its first byte, a stored integer is the rest of it, stored one byte further on. -/
theorem store_succ (m : Buffer) {off k v i : Nat} (hle : off + 1 ≤ i) (hlt : i < off + 1 + k) :
    store m off (k + 1) v i = store m (off + 1) k (v / 256) i := by
  have hpow : 256 ^ (i - off) = 256 * 256 ^ (i - (off + 1)) := by
    rw [← Nat.pow_succ']
    congr 1
    omega
  rw [store, store, if_pos ⟨by omega, by omega⟩, if_pos ⟨hle, hlt⟩, hpow, Nat.div_div_eq_div_mul]

theorem load_store_self (m : Buffer) (off k v : Nat) :
    load (store m off k v) off k = v % 256 ^ k := by
  induction k generalizing off v with
  | zero => simp [load, Nat.mod_one]
  | succ k ih =>
      have hfirst : (store m off (k + 1) v off).toNat = v % 256 := by
        simp [store]
      rw [load, hfirst, load_congr fun i hle hlt => store_succ m hle hlt, ih, Nat.pow_succ',
        Nat.mod_mul]

/-- Bytes that do not overlap do not disturb each other. -/
theorem load_store_ne (m : Buffer) {off k off' k' v : Nat} (h : off + k ≤ off' ∨ off' + k' ≤ off) :
    load (store m off' k' v) off k = load m off k := by
  refine load_congr ?_
  intro i hle hlt
  rw [store, if_neg (by omega)]

theorem load_overwrite (m src : Buffer) {off k n : Nat} (h : off + k ≤ n) :
    load (overwrite m src n) off k = load src off k := by
  refine load_congr ?_
  intro i _ hlt
  rw [overwrite, if_pos (by omega)]

/-- A word stored and loaded is the same word. -/
theorem ofNat_load_store (m : Buffer) (off : Nat) (v : BitVec 32) :
    BitVec.ofNat 32 (load (store m off 4 v.toNat) off 4) = v := by
  have hlt : v.toNat < 256 ^ 4 := v.isLt
  rw [load_store_self, Nat.mod_eq_of_lt hlt, BitVec.ofNat_toNat, BitVec.setWidth_eq]

end Bytes
