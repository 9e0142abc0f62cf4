import Mathlib.Algebra.Ring.Nat

/-!
# Numerals

Writing numbers in a base up to sixteen and reading them again, as `printf` and
`strtoul` do: `Nat.toDigits` with leading zeros up to a width on one side, a
reader that takes digits as long as there are some on the other.

`readDigits_toDigits` is the round trip. What stands behind the number does not
matter as long as it does not begin with a digit.
-/

namespace Numerals

/-- The value of a digit, in either case. -/
def digitVal (c : Char) : Option Nat :=
  if '0' ≤ c ∧ c ≤ '9' then some (c.toNat - 48)
  else if 'a' ≤ c ∧ c ≤ 'f' then some (c.toNat - 87)
  else if 'A' ≤ c ∧ c ≤ 'F' then some (c.toNat - 55)
  else none

/-- Reads digits of base `b` on top of the value `v`, and returns what is left of the text. -/
def readDigits (b : Nat) : Nat → List Char → Nat × List Char
  | v, [] => (v, [])
  | v, c :: cs =>
      match digitVal c with
      | some d => if d < b then readDigits b (b * v + d) cs else (v, c :: cs)
      | none => (v, c :: cs)

/-- `%0wx`. -/
def hexPadded (w n : Nat) : List Char := (Nat.toDigits 16 n).leftpad w '0'

/-- `%d`. -/
def decimal : Int → List Char
  | .ofNat n => Nat.toDigits 10 n
  | .negSucc n => '-' :: Nat.toDigits 10 (n + 1)

/-! ## Digits -/

theorem digitVal_digitChar {d : Nat} (h : d < 16) : digitVal d.digitChar = some d := by
  revert d
  decide

/-- Every character of a numeral is a digit of its base. -/
theorem mem_toDigits {b n : Nat} (hb : 1 < b) {c : Char} (h : c ∈ Nat.toDigits b n) :
    ∃ d < b, c = d.digitChar := by
  induction n using Nat.strongRecOn with
  | ind n ih =>
      rw [Nat.toDigits_eq_if hb] at h
      split at h
      · rename_i hlt
        exact ⟨n, hlt, List.mem_singleton.mp h⟩
      · rename_i hge
        rcases List.mem_append.mp h with h | h
        · exact ih (n / b) (Nat.div_lt_self (by omega) hb) h
        · exact ⟨n % b, Nat.mod_lt _ (by omega), List.mem_singleton.mp h⟩

/-- Only zero is written with a zero in front. -/
theorem toDigits_head {b n : Nat} (hb : 1 < b) (hn : 0 < n) :
    ∃ d cs, 0 < d ∧ d < b ∧ Nat.toDigits b n = d.digitChar :: cs := by
  induction n using Nat.strongRecOn with
  | ind n ih =>
      rw [Nat.toDigits_eq_if hb]
      split
      · rename_i hlt
        exact ⟨n, [], hn, hlt, rfl⟩
      · rename_i hge
        obtain ⟨d, cs, hd, hdb, heq⟩ :=
          ih (n / b) (Nat.div_lt_self hn hb) (Nat.div_pos (by omega) (by omega))
        exact ⟨d, cs ++ [(n % b).digitChar], hd, hdb, by rw [heq]; rfl⟩

theorem notMem_toDigits {b n : Nat} (hb : 1 < b) (hb' : b ≤ 16) {c : Char} (h : digitVal c = none) :
    c ∉ Nat.toDigits b n := by
  intro hc
  obtain ⟨d, hd, rfl⟩ := mem_toDigits hb hc
  rw [digitVal_digitChar (Nat.lt_of_lt_of_le hd hb')] at h
  cases h

theorem notMem_hexPadded {w n : Nat} {c : Char} (h : digitVal c = none) : c ∉ hexPadded w n := by
  intro hc
  rcases List.mem_append.mp hc with hc | hc
  · rw [List.eq_of_mem_replicate hc] at h
    cases h
  · exact notMem_toDigits (by decide) (by decide) h hc

/-- A byte takes two digits. -/
theorem hexPadded_two {n : Nat} (h : n < 256) :
    hexPadded 2 n = [(n / 16).digitChar, (n % 16).digitChar] := by
  rw [hexPadded, Nat.toDigits_eq_if (by decide)]
  split
  · rename_i hlt
    rw [Nat.div_eq_of_lt hlt, Nat.mod_eq_of_lt hlt]
    rfl
  · rw [Nat.toDigits_of_lt_base (by omega)]
    rfl

theorem notMem_decimal {z : Int} {c : Char} (h : digitVal c = none) (hc : c ≠ '-') :
    c ∉ decimal z := by
  have hdigits : ∀ n, c ∉ Nat.toDigits 10 n := fun n => notMem_toDigits (by decide) (by decide) h
  cases z with
  | ofNat n => exact hdigits n
  | negSucc n => simp [decimal, hc, hdigits]

/-! ## Reading -/

theorem readDigits_digitChar {b d v : Nat} (hb : b ≤ 16) (hd : d < b) (rest : List Char) :
    readDigits b v (d.digitChar :: rest) = readDigits b (b * v + d) rest := by
  rw [readDigits, digitVal_digitChar (Nat.lt_of_lt_of_le hd hb)]
  simp only [if_pos hd]

/-- **A numeral is read as the number it was written for.** -/
theorem readDigits_toDigits {b : Nat} (hb : 1 < b) (hb' : b ≤ 16) (n : Nat) (rest : List Char) :
    readDigits b 0 (Nat.toDigits b n ++ rest) = readDigits b n rest := by
  induction n using Nat.strongRecOn generalizing rest with
  | ind n ih =>
      rw [Nat.toDigits_eq_if hb]
      split
      · rename_i hlt
        rw [List.singleton_append, readDigits_digitChar hb' hlt, Nat.mul_zero, Nat.zero_add]
      · -- the last digit is read on top of the others
        rw [List.append_assoc, ih (n / b) (Nat.div_lt_self (by omega) hb), List.singleton_append,
          readDigits_digitChar hb' (Nat.mod_lt _ (by omega)), Nat.div_add_mod]

/-- It ends before a character that is no digit. -/
theorem readDigits_stop {b v : Nat} {c : Char} {cs : List Char} (h : digitVal c = none) :
    readDigits b v (c :: cs) = (v, c :: cs) := by
  rw [readDigits, h]

end Numerals
