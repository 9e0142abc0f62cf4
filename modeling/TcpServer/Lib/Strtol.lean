import TcpServer.Lib.Inet
import Mathlib.Algebra.Order.Ring.Int

/-!
# Numbers on a command line

`strtol` in base ten, and `atoi`. To them every text is a number: what does not
begin with one is `0`, what no `long` can hold is the `long` nearest to it, and
`atoi` keeps thirty-two bits of that without a word.

A number is read back from its decimal text exactly if an `int` can hold it
(`toInt_atoi_decimal`).
-/

namespace Strtol

open Numerals Inet

/-- The nearest number that a `long` can hold. -/
def clampLong (z : Int) : Int := max (-2 ^ 63) (min z (2 ^ 63 - 1))

/-- `strtol(cs, NULL, 10)`. -/
def strtol (cs : List Char) : Int :=
  match cs.dropWhile isspace with
  | '-' :: ds => clampLong (-(readDigits 10 0 ds).1)
  | '+' :: ds => clampLong (readDigits 10 0 ds).1
  | ds => clampLong (readDigits 10 0 ds).1

/-- `atoi`. -/
def atoi (cs : List Char) : BitVec 32 := BitVec.ofInt 32 (strtol cs)

theorem clampLong_eq {z : Int} (hlo : -2 ^ 63 ≤ z) (hhi : z < 2 ^ 63) : clampLong z = z := by
  unfold clampLong
  omega

/-! ## Reading what was written -/

theorem readDigits_all (n : Nat) : readDigits 10 0 (Nat.toDigits 10 n) = (n, []) := by
  have hread := readDigits_toDigits (b := 10) (by decide) (by decide) n []
  rwa [List.append_nil] at hread

theorem isspace_digitChar {d : Nat} (h : d < 10) : isspace d.digitChar = false := by
  revert d
  decide

theorem digitChar_ne_sign {d : Nat} (h : d < 10) : d.digitChar ≠ '-' ∧ d.digitChar ≠ '+' := by
  revert d
  decide

/-- A numeral begins with a digit. -/
theorem toDigits_cons (n : Nat) : ∃ d cs, d < 10 ∧ Nat.toDigits 10 n = d.digitChar :: cs := by
  rcases Nat.eq_zero_or_pos n with rfl | hn
  · exact ⟨0, [], by decide, rfl⟩
  · obtain ⟨d, cs, _, hd, heq⟩ := toDigits_head (b := 10) (by decide) hn
    exact ⟨d, cs, hd, heq⟩

theorem strtol_toDigits (n : Nat) : strtol (Nat.toDigits 10 n) = clampLong n := by
  obtain ⟨d, cs, hd, heq⟩ := toDigits_cons n
  have hread := readDigits_all n
  have hsign := digitChar_ne_sign hd
  rw [heq] at hread ⊢
  unfold strtol
  rw [List.dropWhile_cons_of_neg (by rw [isspace_digitChar hd]; decide)]
  split
  · rename_i hcons
    exact absurd (List.cons.inj hcons).1 hsign.1
  · rename_i hcons
    exact absurd (List.cons.inj hcons).1 hsign.2
  · rw [hread]

/-- **A number is read from its decimal text**, or the nearest one that there is. -/
theorem strtol_decimal (z : Int) : strtol (decimal z) = clampLong z := by
  cases z with
  | ofNat n => exact strtol_toDigits n
  | negSucc n =>
      show clampLong (-(readDigits 10 0 (Nat.toDigits 10 (n + 1))).1) = _
      rw [readDigits_all, Int.negSucc_eq]
      rfl

theorem toInt_atoi_decimal {z : Int} : (atoi (decimal z)).toInt = z ↔ -2 ^ 31 ≤ z ∧ z < 2 ^ 31 := by
  constructor
  · intro h
    have hlo := BitVec.le_toInt (atoi (decimal z))
    have hhi := BitVec.toInt_lt (x := atoi (decimal z))
    omega
  · rintro ⟨hlo, hhi⟩
    rw [atoi, strtol_decimal, clampLong_eq (by omega) (by omega), BitVec.toInt_ofInt]
    exact Int.bmod_eq_of_le (by omega) (by omega)

end Strtol
