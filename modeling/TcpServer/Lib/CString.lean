import Mathlib.Algebra.Ring.Nat
import Mathlib.Data.List.TakeWhile

/-!
# Strings in character arrays

What `string.h` and the `printf` family do to an array of characters. The array
is a function of the offset and knows no length: a store past its end is a store
like any other, and the offsets stored at are kept, for a property to bound.

`strAt_put` reads back a string that was put somewhere, up to its first NUL.
`put_put` is how strings are built in pieces, each on the NUL of the one before.
-/

namespace CString

def nul : Char := Char.ofNat 0

/-- A string: characters up to a NUL, which is not one of them. -/
structure Str where
  chars : List Char
  nul_notMem : nul ∉ chars
  deriving DecidableEq

/-- A character array and what has been done to it. -/
structure CharArray where
  mem : Nat → Char
  /-- The offsets stored at, in order. -/
  stored : List Nat

/-- The characters at `off` up to a NUL, looking at `n` of them at most. -/
def strAt (mem : Nat → Char) (off n : Nat) : List Char :=
  ((List.range' off n).map mem).takeWhile (· ≠ nul)

namespace CharArray

/-- An array whose contents nobody has set yet. -/
def uninit (mem : Nat → Char) : CharArray := { mem, stored := [] }

/-- Stores `cs` from `off` on. -/
def put (t : CharArray) (off : Nat) (cs : List Char) : CharArray where
  mem i := if off ≤ i then cs[i - off]?.getD (t.mem i) else t.mem i
  stored := t.stored ++ List.range' off cs.length

/-- `memset(t + off, c, n)`. -/
def memset (t : CharArray) (off : Nat) (c : Char) (n : Nat) : CharArray :=
  t.put off (List.replicate n c)

/-- `strcpy(t + off, s)`, and `sprintf` of what expands to `s`. -/
def strcpy (t : CharArray) (off : Nat) (s : List Char) : CharArray := t.put off (s ++ [nul])

/-- `strncpy(t + off, s, n)`: padded with NULs, or cut off without any. -/
def strncpy (t : CharArray) (off : Nat) (s : List Char) (n : Nat) : CharArray :=
  t.put off ((s ++ List.replicate n nul).take n)

/-- `snprintf(t + off, n, ..)` of what expands to `s`. -/
def snprintf (t : CharArray) (off n : Nat) (s : List Char) : CharArray :=
  if n = 0 then t else t.strcpy off (s.take (n - 1))

/-- One past the last offset stored at. -/
def stop (t : CharArray) : Nat := t.stored.foldr (fun i n => max (i + 1) n) 0

/-- The string at `off`. It ends at a NUL that was stored. -/
def text (t : CharArray) (off : Nat) : List Char := strAt t.mem off (t.stop - off)

end CharArray

/-- What `sprintf` returns for a text: a length that no `int` can hold is an error. -/
def printfResult (s : List Char) : Int := if s.length < 2 ^ 31 then s.length else -1

theorem printfResult_eq {s : List Char} (h : s.length < 2 ^ 31) : printfResult s = s.length :=
  if_pos h

theorem takeWhile_eq_self_iff {s : List Char} : s.takeWhile (· ≠ nul) = s ↔ nul ∉ s := by
  rw [List.takeWhile_eq_self_iff]
  constructor
  · intro h hmem
    exact of_decide_eq_true (h nul hmem) rfl
  · intro h c hc
    apply decide_eq_true
    rintro rfl
    exact h hc

theorem takeWhile_append_of_notMem {s : List Char} (h : nul ∉ s) (rest : List Char) :
    (s ++ rest).takeWhile (· ≠ nul) = s ++ rest.takeWhile (· ≠ nul) := by
  rw [List.takeWhile_append_of_pos]
  intro c hc
  apply decide_eq_true
  rintro rfl
  exact h hc

/-! ## Storing -/

namespace CharArray

variable {t : CharArray} {off : Nat} {cs : List Char}

theorem put_mem_of_lt {i : Nat} (h : i < off) : (t.put off cs).mem i = t.mem i :=
  if_neg (Nat.not_le.mpr h)

theorem put_mem_of_ge {i : Nat} (h : off + cs.length ≤ i) : (t.put off cs).mem i = t.mem i := by
  show (if off ≤ i then cs[i - off]?.getD (t.mem i) else t.mem i) = _
  rw [if_pos (by omega), List.getElem?_eq_none (by omega), Option.getD_none]

theorem put_mem_add {k : Nat} (h : k < cs.length) : (t.put off cs).mem (off + k) = cs[k] := by
  show (if off ≤ off + k then cs[off + k - off]?.getD (t.mem (off + k)) else t.mem (off + k)) = _
  rw [if_pos (Nat.le_add_right _ _), Nat.add_sub_cancel_left, List.getElem?_eq_getElem h,
    Option.getD_some]

/-- What was put is there. -/
theorem map_put (t : CharArray) (off : Nat) (cs : List Char) :
    (List.range' off cs.length).map (t.put off cs).mem = cs := by
  apply List.ext_getElem
  · simp
  · intro k _ hk
    rw [List.getElem_map, List.getElem_range', Nat.one_mul, put_mem_add hk]

/-- **What is put on the last character of a text continues it.** -/
theorem put_put (t : CharArray) (off : Nat) (as : List Char) (c : Char) {bs : List Char}
    (h : bs ≠ []) :
    ((t.put off (as ++ [c])).put (off + as.length) bs).mem = (t.put off (as ++ bs)).mem := by
  have hbs : 0 < bs.length := List.length_pos_iff.mpr h
  funext i
  by_cases hlo : i < off
  · rw [put_mem_of_lt (by omega), put_mem_of_lt hlo, put_mem_of_lt hlo]
  obtain ⟨k, rfl⟩ : ∃ k, i = off + k := ⟨i - off, by omega⟩
  by_cases has : k < as.length
  · rw [put_mem_of_lt (by omega), put_mem_add (by simp; omega), put_mem_add (by simp; omega),
      List.getElem_append_left has, List.getElem_append_left has]
  obtain ⟨m, rfl⟩ : ∃ m, k = as.length + m := ⟨k - as.length, by omega⟩
  by_cases hm : m < bs.length
  · rw [← Nat.add_assoc, put_mem_add hm, Nat.add_assoc, put_mem_add (by simp; omega),
      List.getElem_append_right (by omega)]
    simp
  · rw [put_mem_of_ge (by omega), put_mem_of_ge (by simp; omega), put_mem_of_ge (by simp; omega)]

theorem strcpy_congr {t' : CharArray} (h : t.mem = t'.mem) (off : Nat) (s : List Char) :
    (t.strcpy off s).mem = (t'.strcpy off s).mem := by
  funext i
  simp only [strcpy, put, h]

/-- The pieces of a string. -/
theorem strcpy_strcpy (t : CharArray) (off : Nat) (s s' : List Char) :
    ((t.strcpy off s).strcpy (off + s.length) s').mem = (t.strcpy off (s ++ s')).mem := by
  rw [strcpy, strcpy, put_put t off s nul (by simp), strcpy, List.append_assoc]

theorem mem_stored_put {i : Nat} :
    i ∈ (t.put off cs).stored ↔ i ∈ t.stored ∨ off ≤ i ∧ i < off + cs.length := by
  rw [put, List.mem_append, List.mem_range'_1]

theorem mem_stored_strcpy {i : Nat} {s : List Char} :
    i ∈ (t.strcpy off s).stored ↔ i ∈ t.stored ∨ off ≤ i ∧ i ≤ off + s.length := by
  rw [strcpy, mem_stored_put, List.length_append, List.length_singleton, ← Nat.add_assoc,
    Nat.lt_succ_iff]

theorem stored_snprintf {i : Nat} (h : i ∈ t.stored) (n : Nat) (s : List Char) :
    i ∈ (t.snprintf off n s).stored := by
  unfold snprintf
  split
  · exact h
  · exact mem_stored_strcpy.mpr (Or.inl h)

/-- `snprintf` stores `n` characters at most. -/
theorem mem_stored_snprintf {i n : Nat} {s : List Char} (h : i ∈ (t.snprintf off n s).stored) :
    i ∈ t.stored ∨ off ≤ i ∧ i < off + n := by
  unfold snprintf at h
  split at h
  · exact Or.inl h
  · rcases mem_stored_strcpy.mp h with h | h
    · exact Or.inl h
    · rw [List.length_take] at h
      exact Or.inr (by omega)

theorem lt_stop {i : Nat} (h : i ∈ t.stored) : i < t.stop := by
  rw [stop]
  revert h
  induction t.stored with
  | nil => simp
  | cons k l ih =>
      intro h
      rw [List.foldr_cons]
      rcases List.mem_cons.mp h with rfl | h
      · omega
      · have := ih h
        omega

theorem add_length_lt_stop (t : CharArray) (off : Nat) (s : List Char) :
    off + s.length < (t.strcpy off s).stop :=
  lt_stop (mem_stored_strcpy.mpr (Or.inr ⟨Nat.le_add_right _ _, Nat.le_refl _⟩))

/-! ## Reading -/

/-- **A string put somewhere is read there**, up to its first NUL. -/
theorem strAt_put (t : CharArray) (off : Nat) {n : Nat} (h : cs.length < n) :
    strAt (t.put off (cs ++ [nul])).mem off n = cs.takeWhile (· ≠ nul) := by
  obtain ⟨m, rfl⟩ : ∃ m, n = (cs ++ [nul]).length + m := ⟨n - (cs.length + 1), by simp; omega⟩
  rw [strAt, ← List.range'_append_1, List.map_append, map_put, List.append_assoc,
    List.takeWhile_append]
  split
  · rename_i hall
    rw [(List.takeWhile_prefix _).eq_of_length hall]
    simp
  · rfl

/-- The `n` characters of a `strncpy` with the one behind them: that one is read if the string has
no room for its NUL. -/
theorem strAt_strncpy (t : CharArray) (off n : Nat) {s : List Char} (h : nul ∉ s) :
    strAt (t.strncpy off s n).mem off (n + 1)
      = s.take n ++ if s.length < n then [] else [t.mem (off + n)].takeWhile (· ≠ nul) := by
  have hlength : ((s ++ List.replicate n nul).take n).length = n := by simp
  have hmap : (List.range' off (n + 1)).map (t.strncpy off s n).mem
      = (s ++ List.replicate n nul).take n ++ [t.mem (off + n)] := by
    have hput := map_put t off ((s ++ List.replicate n nul).take n)
    rw [hlength] at hput
    rw [← List.range'_append_1, List.map_append, strncpy, hput, List.range'_one, List.map_singleton,
      put_mem_of_ge (by rw [hlength])]
  rw [strAt, hmap]
  split
  · rename_i hlt
    obtain ⟨m, hm⟩ : ∃ m, min (n - s.length) n = m + 1 := ⟨n - s.length - 1, by omega⟩
    rw [List.take_append, List.take_replicate, hm, List.take_of_length_le (Nat.le_of_lt hlt),
      List.append_assoc, takeWhile_append_of_notMem h]
    rfl
  · rename_i hge
    have htake : nul ∉ s.take n := fun hmem => h (List.mem_of_mem_take hmem)
    rw [List.take_append_of_le_length (by omega), takeWhile_append_of_notMem htake]

theorem text_strcpy (t : CharArray) (off : Nat) (s : List Char) :
    (t.strcpy off s).text off = s.takeWhile (· ≠ nul) := by
  have hlast := add_length_lt_stop t off s
  exact strAt_put t off (by omega)

end CharArray

end CString
