import TcpServer.Lib.CString
import TcpServer.Lib.Numerals

/-!
# Internet addresses as text

`inet_aton`, `inet_addr` and `inet_ntoa`. An address is the number its four bytes
make, the first of them the highest.

Many texts are read as one address: there may be fewer than four parts, each in
any of three bases with any number of leading zeros, and anything may follow
after a blank. Only one is written, and it is read as what it was written for
(`inetAton_inetNtoa`).
-/

namespace Inet

open Numerals CString

/-- `isdigit`. -/
def isdigit (c : Char) : Bool := '0' ≤ c ∧ c ≤ '9'

/-- `isspace`. -/
def isspace (c : Char) : Bool :=
  c = ' ' ∨ c = '\t' ∨ c = '\n' ∨ c = '\x0b' ∨ c = '\x0c' ∨ c = '\r'

/-- `strtoul(cs, &end, 0)` on a text that begins with a digit: the number and what is left. -/
def strtoul (cs : List Char) : Nat × List Char :=
  match cs with
  | '0' :: x :: d :: rest =>
      if (x = 'x' ∨ x = 'X') ∧ (digitVal d).isSome = true then readDigits 16 0 (d :: rest)
      else readDigits 8 0 cs
  | '0' :: _ => readDigits 8 0 cs
  | _ => readDigits 10 0 cs

/-- What may follow the last part. -/
def endsAddress : List Char → Bool
  | [] => true
  | c :: _ => isspace c

/-- The parts of an address, the last of which may be followed by `left` more. It stands for all the
bytes there are no parts for. -/
def parts (left : Nat) (cs : List Char) : Option Nat :=
  if cs.head?.any isdigit = false then none
  else
    let (val, rest) := strtoul cs
    if val > 0xffffffff then none
    else
      match rest, left with
      | '.' :: cs, left + 1 =>
          if val > 0xff then none else (parts left cs).map (val * 256 ^ (left + 1) + ·)
      | rest, left => if endsAddress rest = true ∧ val < 256 ^ (left + 1) then some val else none

/-- `inet_aton`. -/
def inetAton (cs : List Char) : Option (BitVec 32) := (parts 3 cs).map (BitVec.ofNat 32)

/-- `INADDR_NONE`. -/
def inaddrNone : BitVec 32 := 0xffffffff

/-- `inet_addr`. -/
def inetAddr (cs : List Char) : BitVec 32 := (inetAton cs).getD inaddrNone

/-- A byte of an address in decimal, counted from the last. -/
def octet (a : BitVec 32) (k : Nat) : List Char := Nat.toDigits 10 (a.toNat / 256 ^ k % 256)

/-- `inet_ntoa`. -/
def inetNtoa (a : BitVec 32) : List Char :=
  octet a 3 ++ '.' :: (octet a 2 ++ '.' :: (octet a 1 ++ '.' :: octet a 0))

/-! ## Reading what was written -/

/-- A numeral ends here, at the end of the text or at a dot. -/
def AtEnd (rest : List Char) : Prop := rest = [] ∨ ∃ cs, rest = '.' :: cs

theorem readDigits_atEnd {b v : Nat} {rest : List Char} (h : AtEnd rest) :
    readDigits b v rest = (v, rest) := by
  rcases h with rfl | ⟨cs, rfl⟩
  · rfl
  · exact readDigits_stop (by decide)

theorem isdigit_digitChar {d : Nat} (h : d < 10) : isdigit d.digitChar = true := by
  revert d
  decide

theorem digitChar_ne_zero {d : Nat} (hpos : 0 < d) (h : d < 10) : d.digitChar ≠ '0' := by
  have hall : ∀ d < 10, 0 < d → d.digitChar ≠ '0' := by decide
  exact hall d h hpos

/-- **A decimal number is read as the number it is**, there being no zero in front. -/
theorem strtoul_toDigits (n : Nat) {rest : List Char} (h : AtEnd rest) :
    strtoul (Nat.toDigits 10 n ++ rest) = (n, rest) := by
  rcases Nat.eq_zero_or_pos n with rfl | hn
  · rcases h with rfl | ⟨cs, rfl⟩
    · rfl
    · cases cs with
      | nil => rfl
      | cons c cs =>
          show (if ('.' = 'x' ∨ '.' = 'X') ∧ (digitVal c).isSome = true then
              readDigits 16 0 (c :: cs)
            else readDigits 8 0 ('0' :: '.' :: c :: cs)) = _
          rw [if_neg (by simp)]
          rfl
  · have hread := readDigits_toDigits (b := 10) (by decide) (by decide) n rest
    rw [readDigits_atEnd h] at hread
    obtain ⟨d, cs, hpos, hlt, heq⟩ := toDigits_head (b := 10) (by decide) hn
    rw [← hread, heq, List.cons_append]
    unfold strtoul
    split
    · rename_i hcons
      exact absurd (List.cons.inj hcons).1 (digitChar_ne_zero hpos hlt)
    · rename_i hcons
      exact absurd (List.cons.inj hcons).1 (digitChar_ne_zero hpos hlt)
    · rfl

theorem head_toDigits (n : Nat) (rest : List Char) :
    (Nat.toDigits 10 n ++ rest).head?.any isdigit = true := by
  rcases Nat.eq_zero_or_pos n with rfl | hn
  · rfl
  · obtain ⟨d, cs, -, hlt, heq⟩ := toDigits_head (b := 10) (by decide) hn
    rw [heq]
    exact isdigit_digitChar hlt

/-- A byte and what follows it. -/
theorem parts_octet {n : Nat} (hn : n < 256) (left : Nat) (cs : List Char) :
    parts (left + 1) (Nat.toDigits 10 n ++ '.' :: cs)
      = (parts left cs).map (n * 256 ^ (left + 1) + ·) := by
  rw [parts, if_neg (by rw [head_toDigits]; decide), strtoul_toDigits n (Or.inr ⟨cs, rfl⟩)]
  dsimp only
  rw [if_neg (by omega)]
  exact if_neg (by omega)

theorem parts_last {n : Nat} (hn : n < 256) : parts 0 (Nat.toDigits 10 n) = some n := by
  have hread := strtoul_toDigits n (Or.inl rfl)
  have hhead := head_toDigits n []
  rw [List.append_nil] at hread hhead
  rw [parts, if_neg (by rw [hhead]; decide), hread]
  dsimp only
  rw [if_neg (by omega), if_pos ⟨rfl, hn⟩]

/-- **An address is read from its text.** -/
theorem inetAton_inetNtoa (a : BitVec 32) : inetAton (inetNtoa a) = some a := by
  have ha : a.toNat < 2 ^ 32 := a.isLt
  have hoctet : ∀ k, a.toNat / 256 ^ k % 256 < 256 := fun k => Nat.mod_lt _ (by decide)
  rw [inetAton, inetNtoa, octet, octet, octet, octet, parts_octet (hoctet 3),
    parts_octet (hoctet 2), parts_octet (hoctet 1), parts_last (hoctet 0)]
  simp only [Option.map_some]
  congr 1
  apply BitVec.eq_of_toNat_eq
  rw [BitVec.toNat_ofNat]
  omega

theorem length_inetNtoa (a : BitVec 32) : (inetNtoa a).length ≤ 15 := by
  have hall : ∀ n < 256, (Nat.toDigits 10 n).length ≤ 3 := by decide +kernel
  have hoctet : ∀ k, (octet a k).length ≤ 3 := fun k => hall _ (Nat.mod_lt _ (by decide))
  have h3 := hoctet 3
  have h2 := hoctet 2
  have h1 := hoctet 1
  have h0 := hoctet 0
  simp only [inetNtoa, List.length_append, List.length_cons]
  omega

theorem nul_notMem_inetNtoa (a : BitVec 32) : nul ∉ inetNtoa a := by
  have hoctet : ∀ k, nul ∉ octet a k := fun k =>
    notMem_toDigits (by decide) (by decide) (by decide)
  have hdot : nul ≠ '.' := by decide
  simp [inetNtoa, hoctet, hdot]

end Inet
