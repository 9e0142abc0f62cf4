import TcpServer.Model.Hexdump

/-!
# What a dump says about its block

The loop prints in one go what a reader sees as rows: `dump` is the row by row
rendering, and after `k` rounds the loop has printed `dumpUpTo k`, the rows that
are complete and what there is of the next (`AfterRounds`, kept by every round
across the ends of rows). From a dump the block can be read back (`undump_dump`),
so no two blocks have the same.

The number of rounds is the length rounded up to whole rows, computed modulo
`2^32`. For the fifteen largest lengths that is zero, and nothing is printed at
all (`coversBlock_iff`).
-/

namespace TcpServer.Proof

open TcpServer

/-! ## The rendering, row by row -/

/-- Two digits and a blank, or three blanks past the end. -/
def hexCell : Option UInt8 → List Char
  | some b => Numerals.hexPadded 2 b.toNat ++ [' ']
  | none => [' ', ' ', ' ']

/-- The character if it is printable, a dot if it is not, a blank past the end. -/
def charCell : Option UInt8 → Char
  | some b => if 0x20 ≤ b ∧ b ≤ 0x7e then Char.ofNat b.toNat else '.'
  | none => ' '

/-- The offset at the start of a row. -/
def rowHead (k : Nat) : List Char := '0' :: 'x' :: Numerals.hexPadded 6 k ++ [':', ' ']

/-- The first `c` cells of row `r`. -/
def hexCells (bs : List UInt8) (r c : Nat) : List Char :=
  (List.range c).flatMap fun m => hexCell bs[16 * r + m]?

def charCells (bs : List UInt8) (r : Nat) : List Char :=
  (List.range 16).map fun m => charCell bs[16 * r + m]?

/-- Row `r` without its newline. -/
def rowBody (bs : List UInt8) (r : Nat) : List Char :=
  rowHead (16 * r) ++ hexCells bs r 16 ++ charCells bs r

def dumpRow (bs : List UInt8) (r : Nat) : List Char := rowBody bs r ++ ['\n']

/-- The number of rows for `len` bytes. -/
def rowCount (len : Nat) : Nat := (len + 15) / 16

/-- The rendering of a block. -/
def dump (bs : List UInt8) : List Char := (List.range (rowCount bs.length)).flatMap (dumpRow bs)

/-- What there is of row `r` after `c` cells. -/
def rowUpTo (bs : List UInt8) (r c : Nat) : List Char :=
  if c = 0 then [] else rowHead (16 * r) ++ hexCells bs r c

/-- What there is of the dump after `k` cells. -/
def dumpUpTo (bs : List UInt8) (k : Nat) : List Char :=
  (List.range (k / 16)).flatMap (dumpRow bs) ++ rowUpTo bs (k / 16) (k % 16)

theorem hexCells_succ (bs : List UInt8) (r c : Nat) :
    hexCells bs r (c + 1) = hexCells bs r c ++ hexCell bs[16 * r + c]? := by
  simp [hexCells, List.range_succ]

theorem rowUpTo_succ (bs : List UInt8) (r c : Nat) :
    rowUpTo bs r (c + 1)
      = rowUpTo bs r c ++ (if c = 0 then rowHead (16 * r) else []) ++ hexCell bs[16 * r + c]? := by
  rw [rowUpTo, if_neg (Nat.succ_ne_zero c), hexCells_succ, rowUpTo]
  by_cases hc : c = 0
  · subst hc
    simp [hexCells]
  · simp [hc]

/-- One cell more, and the rest of the row if it was the last. -/
theorem dumpUpTo_succ (bs : List UInt8) (k : Nat) :
    dumpUpTo bs (k + 1)
      = dumpUpTo bs k ++ (if k % 16 = 0 then rowHead k else []) ++ hexCell bs[k]?
        ++ (if k % 16 = 15 then charCells bs (k / 16) ++ ['\n'] else []) := by
  have hk : 16 * (k / 16) + k % 16 = k := Nat.div_add_mod k 16
  have hhead : (if k % 16 = 0 then rowHead (16 * (k / 16)) else [])
      = if k % 16 = 0 then rowHead k else [] := by
    split
    · rename_i h0; rw [h0, Nat.add_zero] at hk; rw [hk]
    · rfl
  have hrow := rowUpTo_succ bs (k / 16) (k % 16)
  rw [hk, hhead] at hrow
  by_cases hend : k % 16 = 15
  · have hdiv : (k + 1) / 16 = k / 16 + 1 := by omega
    have hmod : (k + 1) % 16 = 0 := by omega
    rw [hend] at hrow
    have hlast : rowUpTo bs (k / 16) 16 = rowHead (16 * (k / 16)) ++ hexCells bs (k / 16) 16 := rfl
    rw [dumpUpTo, hdiv, hmod, List.range_succ, List.flatMap_append, List.flatMap_singleton, dumpRow,
      rowBody, ← hlast, hrow, dumpUpTo, hend]
    simp [rowUpTo]
  · have hdiv : (k + 1) / 16 = k / 16 := by omega
    have hmod : (k + 1) % 16 = k % 16 + 1 := by omega
    rw [dumpUpTo, hdiv, hmod, hrow, dumpUpTo, if_neg hend]
    simp [List.append_assoc]

theorem dumpUpTo_all (bs : List UInt8) : dumpUpTo bs (16 * rowCount bs.length) = dump bs := by
  simp [dumpUpTo, dump, rowUpTo]

/-! ## Reading a dump -/

/-- The bytes in a row of three-character cells: blank ones are skipped. -/
def cells : List Char → List UInt8
  | hi :: lo :: _ :: rest =>
      match Numerals.digitVal hi, Numerals.digitVal lo with
      | some a, some b => UInt8.ofNat (16 * a + b) :: cells rest
      | _, _ => cells rest
  | _ => []

/-- The cells stand behind the colon and a blank. -/
def undumpLine (line : List Char) : List UInt8 :=
  cells (((line.dropWhile (· ≠ ':')).drop 2).take 48)

/-- The block a dump is of. -/
def undump (text : List Char) : List UInt8 := (text.splitOn '\n').flatMap undumpLine

theorem length_hexCell (b : Option UInt8) : (hexCell b).length = 3 := by
  cases b with
  | none => rfl
  | some b => simp [hexCell, Numerals.hexPadded_two b.toNat_lt]

theorem cells_hexCell (b : Option UInt8) (rest : List Char) :
    cells (hexCell b ++ rest) = b.toList ++ cells rest := by
  cases b with
  | none => rfl
  | some b =>
      have hlt : b.toNat < 256 := b.toNat_lt
      rw [hexCell, Numerals.hexPadded_two hlt]
      show (match Numerals.digitVal (b.toNat / 16).digitChar,
          Numerals.digitVal (b.toNat % 16).digitChar with
        | some a, some c => UInt8.ofNat (16 * a + c) :: cells rest
        | _, _ => cells rest) = _
      rw [Numerals.digitVal_digitChar (by omega), Numerals.digitVal_digitChar (by omega)]
      simp only [Nat.div_add_mod, UInt8.ofNat_toNat, Option.toList_some, List.singleton_append]

/-- **The cells of a row hold the bytes of the row.** -/
theorem cells_hexCells (bs : List UInt8) (r c : Nat) :
    cells (hexCells bs r c) = (bs.drop (16 * r)).take c := by
  have hread : ∀ (l : List Nat), cells (l.flatMap fun m => hexCell bs[16 * r + m]?)
      = l.flatMap fun m => bs[16 * r + m]?.toList := by
    intro l
    induction l with
    | nil => rfl
    | cons m l ih => rw [List.flatMap_cons, cells_hexCell, ih, List.flatMap_cons]
  rw [hexCells, hread]
  induction c with
  | zero => rfl
  | succ c ih =>
      rw [List.range_succ, List.flatMap_append, ih, List.flatMap_singleton, List.take_add_one,
        List.getElem?_drop]

theorem length_hexCells (bs : List UInt8) (r c : Nat) : (hexCells bs r c).length = 3 * c := by
  induction c with
  | zero => rfl
  | succ c ih =>
      rw [hexCells_succ, List.length_append, ih, length_hexCell]
      omega

theorem dropWhile_rowHead (k : Nat) (rest : List Char) :
    (rowHead k ++ rest).dropWhile (· ≠ ':') = ':' :: ' ' :: rest := by
  have hdigits : ∀ c ∈ '0' :: 'x' :: Numerals.hexPadded 6 k, decide (c ≠ ':') = true := by
    intro c hc
    apply decide_eq_true
    rintro rfl
    simp [Numerals.notMem_hexPadded (show Numerals.digitVal ':' = none by decide)] at hc
  rw [rowHead, List.append_assoc, List.dropWhile_append_of_pos hdigits]
  rfl

theorem undumpLine_rowBody (bs : List UInt8) (r : Nat) :
    undumpLine (rowBody bs r) = (bs.drop (16 * r)).take 16 := by
  rw [undumpLine, rowBody, List.append_assoc, dropWhile_rowHead]
  show cells ((hexCells bs r 16 ++ charCells bs r).take 48) = _
  rw [List.take_left' (length_hexCells bs r 16), cells_hexCells]

/-- A row has no newline but its last. -/
theorem newline_notMem_rowBody (bs : List UInt8) (r : Nat) : '\n' ∉ rowBody bs r := by
  have hdigit : ∀ {w n : Nat}, '\n' ∉ Numerals.hexPadded w n :=
    Numerals.notMem_hexPadded (by decide)
  have hhex : ∀ b : Option UInt8, '\n' ∉ hexCell b := by
    intro b
    cases b with
    | none => decide
    | some b => simp [hexCell, hdigit]
  have hchar : ∀ b : Option UInt8, charCell b ≠ '\n' := by
    intro b
    cases b with
    | none => decide
    | some b =>
        have hall : ∀ c : BitVec 8, charCell (some ⟨c⟩) ≠ '\n' := by decide +kernel
        exact hall b.toBitVec
  simp [rowBody, rowHead, hexCells, charCells, hdigit, hhex, hchar]

theorem undump_rows (bs : List UInt8) (rs : List Nat) :
    undump (rs.flatMap (dumpRow bs)) = rs.flatMap fun r => (bs.drop (16 * r)).take 16 := by
  induction rs with
  | nil => rfl
  | cons r rs ih =>
      rw [List.flatMap_cons, dumpRow, List.append_assoc, List.singleton_append, undump,
        List.splitOn_append_cons_self_of_not_mem (newline_notMem_rowBody bs r), List.flatMap_cons,
        undumpLine_rowBody, List.flatMap_cons, ← ih]
      rfl

/-- **The block can be read back from its dump.** -/
theorem undump_dump (bs : List UInt8) : undump (dump bs) = bs := by
  have hrows : ∀ n, ((List.range n).flatMap fun r => (bs.drop (16 * r)).take 16)
      = bs.take (16 * n) := by
    intro n
    induction n with
    | zero => rfl
    | succ n ih =>
        rw [List.range_succ, List.flatMap_append, ih, List.flatMap_singleton, Nat.mul_succ,
          List.take_add]
  rw [dump, undump_rows, hrows]
  exact List.take_of_length_le (by unfold rowCount; omega)

/-! ## Bytes as `int`s, counters as numbers -/

theorem mask_charInt (c : UInt8) : (0xFF &&& charInt c).toNat = c.toNat := by
  have hall : ∀ b : BitVec 8, (0xFF &&& b.signExtend 32 : BitVec 32).toNat = b.toNat := by
    decide +kernel
  exact hall c.toBitVec

theorem isprint_charInt (c : UInt8) : isprint (charInt c) = decide (0x20 ≤ c ∧ c ≤ 0x7e) := by
  have hall : ∀ b : BitVec 8, isprint (b.signExtend 32) = decide (0x20 ≤ b ∧ b ≤ 0x7e) := by
    decide +kernel
  exact hall c.toBitVec

theorem toNat_cols : Hexdump.cols.toNat = 16 := rfl

/-- The bound of the outer loop, as it is computed. -/
theorem toNat_bound (len : BitVec 32) :
    (Hexdump.bound len).toNat = 16 * rowCount len.toNat % 2 ^ 32 := by
  have hlt := len.isLt
  unfold Hexdump.bound rowCount
  split
  · rename_i hne
    have hmod : len.toNat % 16 ≠ 0 := by
      intro h0
      exact hne (BitVec.eq_of_toNat_eq (by simpa [toNat_cols] using h0))
    rw [BitVec.toNat_add, BitVec.toNat_sub, BitVec.toNat_umod, toNat_cols]
    omega
  · rename_i heq
    have hmod : len.toNat % 16 = 0 := by
      simpa [toNat_cols] using congrArg BitVec.toNat (not_not.mp heq)
    have hzero : (len + 0).toNat = len.toNat := by simp
    rw [hzero]
    omega

theorem ofNat_mod_cols {k : Nat} (hk : k < 2 ^ 32) {m : Nat} (hm : m < 2 ^ 32) :
    BitVec.ofNat 32 k % Hexdump.cols = BitVec.ofNat 32 m ↔ k % 16 = m := by
  rw [← BitVec.toNat_inj, BitVec.toNat_umod, toNat_cols, BitVec.toNat_ofNat, BitVec.toNat_ofNat,
    Nat.mod_eq_of_lt hk, Nat.mod_eq_of_lt hm]

theorem ofNat_lt_iff {k : Nat} (hk : k < 2 ^ 32) (len : BitVec 32) :
    BitVec.ofNat 32 k < len ↔ k < len.toNat := by
  rw [BitVec.lt_def, BitVec.toNat_ofNat, Nat.mod_eq_of_lt hk]

theorem toNat_ofNat_of_lt {k : Nat} (hk : k < 2 ^ 32) : (BitVec.ofNat 32 k).toNat = k := by
  rw [BitVec.toNat_ofNat, Nat.mod_eq_of_lt hk]

theorem ofNat_succ (k : Nat) : BitVec.ofNat 32 k + 1 = BitVec.ofNat 32 (k + 1) := by
  apply BitVec.eq_of_toNat_eq
  simp

/-! ## One round -/

/-- The block at `mem` is `bs`. -/
def Holds (mem : Nat → UInt8) (len : BitVec 32) (bs : List UInt8) : Prop :=
  ∀ k, bs[k]? = if k < len.toNat then some (mem k) else none

/-- Memory was read inside the block only. -/
def ReadsInside (len : BitVec 32) (s : Hexdump) : Prop := ∀ k ∈ s.reads, k < len.toNat

section Round

variable {mem : Nat → UInt8} {len : BitVec 32} {bs : List UInt8}

theorem Holds.length (h : Holds mem len bs) : bs.length = len.toNat := by
  have hout := h len.toNat
  rw [if_neg (Nat.lt_irrefl _), List.getElem?_eq_none_iff] at hout
  refine Nat.le_antisymm hout (Nat.le_of_not_lt ?_)
  intro hlt
  have hin := h bs.length
  rw [if_pos hlt, List.getElem?_eq_none (Nat.le_refl _)] at hin
  cases hin

theorem printOffset_eq {s : Hexdump} {k : Nat} (hk : k < 2 ^ 32) (hi : s.i = BitVec.ofNat 32 k) :
    s.printOffset = s.print (if k % 16 = 0 then rowHead k else []) := by
  have hiff : BitVec.ofNat 32 k % Hexdump.cols = 0 ↔ k % 16 = 0 := ofNat_mod_cols hk (by decide)
  unfold Hexdump.printOffset
  rw [hi]
  by_cases h0 : k % 16 = 0
  · rw [if_pos (hiff.mpr h0), if_pos h0, toNat_ofNat_of_lt hk]
    rfl
  · rw [if_neg (fun h => h0 (hiff.mp h)), if_neg h0]
    simp [Hexdump.print]

theorem printHex_eq (h : Holds mem len bs) {s : Hexdump} {k : Nat} (hk : k < 2 ^ 32)
    (hi : s.i = BitVec.ofNat 32 k) :
    s.printHex mem len =
      { s.print (hexCell bs[k]?) with
        printed := s.printed ++ if k < len.toNat then [k] else []
        reads := s.reads ++ if k < len.toNat then [k] else [] } := by
  unfold Hexdump.printHex
  rw [hi, h k]
  by_cases hlt : k < len.toNat
  · rw [if_pos ((ofNat_lt_iff hk len).mpr hlt), toNat_ofNat_of_lt hk, mask_charInt]
    simp [hlt, hexCell]
  · rw [if_neg (fun hlt' => hlt ((ofNat_lt_iff hk len).mp hlt'))]
    simp [hlt, hexCell, Hexdump.print]

/-- A round of the inner loop prints the character cell. -/
theorem printChar_eq (h : Holds mem len bs) {s : Hexdump} {k : Nat} (hk : k < 2 ^ 32)
    (hj : s.j = BitVec.ofNat 32 k) :
    ∃ reads, (∀ x ∈ reads, x < len.toNat) ∧
      s.printChar mem len =
        { s.print [charCell bs[k]?] with
          j := BitVec.ofNat 32 (k + 1)
          reads := s.reads ++ reads } := by
  unfold Hexdump.printChar
  rw [hj, ofNat_succ, h k, toNat_ofNat_of_lt hk, mask_charInt, isprint_charInt]
  by_cases hlt : k < len.toNat
  · have hge : ¬ BitVec.ofNat 32 k ≥ len := BitVec.not_le.mpr ((ofNat_lt_iff hk len).mpr hlt)
    rw [if_neg hge]
    by_cases hp : 0x20 ≤ mem k ∧ mem k ≤ 0x7e
    · refine ⟨[k, k], by simp [hlt], ?_⟩
      simp [hlt, hp, charCell]
    · refine ⟨[k], by simp [hlt], ?_⟩
      simp [hlt, hp, charCell]
  · have hge : BitVec.ofNat 32 k ≥ len :=
      BitVec.not_lt.mp fun hlt' => hlt ((ofNat_lt_iff hk len).mp hlt')
    refine ⟨[], by simp, ?_⟩
    rw [if_pos hge]
    simp [hlt, charCell, Hexdump.print]

/-- What the inner loop has done about row `r` after `m` rounds, begun in `s`. -/
structure InRow (bs : List UInt8) (len : BitVec 32) (s : Hexdump) (r m : Nat) (t : Hexdump) :
    Prop where
  i : t.i = s.i
  j : t.j = BitVec.ofNat 32 (16 * r + m)
  stdout : t.stdout = s.stdout ++ (List.range m).map fun c => charCell bs[16 * r + c]?
  printed : t.printed = s.printed
  rounds : t.rounds = s.rounds
  reads : ReadsInside len t

theorem inRow_step (h : Holds mem len bs) {s t : Hexdump} {r m : Nat}
    (hk : 16 * r + m < 2 ^ 32) (ht : InRow bs len s r m t) :
    InRow bs len s r (m + 1) (t.printChar mem len) := by
  obtain ⟨reads, hreads, heq⟩ := printChar_eq h hk ht.j
  rw [heq]
  refine ⟨ht.i, rfl, ?_, ht.printed, ht.rounds, ?_⟩
  · show t.stdout ++ [charCell bs[16 * r + m]?] = _
    rw [ht.stdout, List.range_succ, List.map_append, List.append_assoc]
    rfl
  · intro x hx
    rcases List.mem_append.mp hx with hx | hx
    · exact ht.reads x hx
    · exact hreads x hx

/-- **The inner loop goes round sixteen times.** -/
theorem printChars_spec (h : Holds mem len bs) {s : Hexdump} {k fuel : Nat} (hk : k < 2 ^ 32 - 1)
    (hfuel : 17 ≤ fuel) (hi : s.i = BitVec.ofNat 32 k) (hend : k % 16 = 15)
    (hreads : ReadsInside len s) :
    ∃ t, s.printChars fuel mem len = some t ∧ t.i = s.i ∧ t.printed = s.printed ∧
      t.stdout = s.stdout ++ (charCells bs (k / 16) ++ ['\n']) ∧
      t.rounds = s.rounds ++ [16] ∧ ReadsInside len t := by
  have hrow : 16 * (k / 16) + 15 = k := by omega
  have hround : ∀ m < 16, ∀ t : Hexdump, InRow bs len s (k / 16) m t →
      decide (t.j ≤ t.i) = true ∧
        ∃ u, some (t.printChar mem len) = some u ∧ InRow bs len s (k / 16) (m + 1) u := by
    intro m hm t ht
    refine ⟨?_, _, rfl, inRow_step h (by omega) ht⟩
    rw [ht.i, ht.j, hi, decide_eq_true_eq, BitVec.le_def, toNat_ofNat_of_lt (by omega),
      toNat_ofNat_of_lt (by omega)]
    omega
  have hstop : ∀ t : Hexdump, InRow bs len s (k / 16) 16 t → decide (t.j ≤ t.i) = false := by
    intro t ht
    rw [ht.i, ht.j, hi, decide_eq_false_iff_not, BitVec.le_def, toNat_ofNat_of_lt (by omega),
      toNat_ofNat_of_lt (by omega)]
    omega
  have hj : s.i - (Hexdump.cols - 1) = BitVec.ofNat 32 (16 * (k / 16) + 0) := by
    apply BitVec.eq_of_toNat_eq
    rw [hi, BitVec.toNat_sub, toNat_ofNat_of_lt (by omega), toNat_ofNat_of_lt (by omega)]
    show (2 ^ 32 - 15 + k) % 2 ^ 32 = _
    omega
  have hstart : InRow bs len s (k / 16) 0 { s with j := s.i - (Hexdump.cols - 1) } :=
    ⟨rfl, hj, by simp, rfl, rfl, hreads⟩
  obtain ⟨t, hrun, ht⟩ := Loop.run_of_invariant hround hstop hstart
  refine ⟨{ t.print ['\n'] with rounds := t.rounds ++ [16] }, ?_, ht.i, ht.printed, ?_, ?_,
    ht.reads⟩
  · unfold Hexdump.printChars
    rw [if_pos (by rw [hi]; exact (ofNat_mod_cols (m := 15) (by omega) (by decide)).mpr hend),
      Loop.run_mono hrun hfuel]
    rfl
  · show t.stdout ++ ['\n'] = _
    rw [ht.stdout, List.append_assoc]
    rfl
  · show t.rounds ++ [16] = _
    rw [ht.rounds]

/-- What the outer loop has done after `k` rounds, `pre` having been printed before it. -/
structure AfterRounds (bs : List UInt8) (len : BitVec 32) (pre : List Char) (k : Nat)
    (s : Hexdump) : Prop where
  i : s.i = BitVec.ofNat 32 k
  stdout : s.stdout = pre ++ dumpUpTo bs k
  printed : s.printed = List.range (min k len.toNat)
  /-- Each row that is complete took sixteen rounds of the inner loop. -/
  rounds : s.rounds = List.replicate (k / 16) 16
  reads : ReadsInside len s

theorem afterRounds_start (len : BitVec 32) (bs : List UInt8) (desc : Option (List Char)) :
    AfterRounds bs len (Hexdump.start desc).stdout 0 (Hexdump.start desc) where
  i := rfl
  stdout := by simp [dumpUpTo, rowUpTo]
  printed := by simp [Hexdump.start]
  rounds := rfl
  reads := by intro k hk; cases hk

theorem range_min_succ (k n : Nat) :
    List.range (min (k + 1) n) = List.range (min k n) ++ if k < n then [k] else [] := by
  by_cases hlt : k < n
  · rw [if_pos hlt, Nat.min_eq_left hlt, Nat.min_eq_left (Nat.le_of_lt hlt), List.range_succ]
  · rw [if_neg hlt, Nat.min_eq_right (by omega), Nat.min_eq_right (by omega), List.append_nil]

/-- The offset, if it is due, and the cell. -/
theorem printHex_spec (h : Holds mem len bs) {pre : List Char} {k : Nat} {s : Hexdump}
    (hk : k < 2 ^ 32) (hs : AfterRounds bs len pre k s) :
    ∃ u, s.printOffset.printHex mem len = u ∧ u.i = BitVec.ofNat 32 k ∧
      u.stdout = pre ++ dumpUpTo bs k ++ (if k % 16 = 0 then rowHead k else []) ++ hexCell bs[k]? ∧
      u.printed = List.range (min (k + 1) len.toNat) ∧
      u.rounds = List.replicate (k / 16) 16 ∧ ReadsInside len u := by
  have hoffset := printOffset_eq hk hs.i
  have hhex := printHex_eq h (s := s.printOffset) hk (by rw [hoffset]; exact hs.i)
  rw [hoffset] at hhex
  rw [hoffset, hhex]
  refine ⟨_, rfl, hs.i, ?_, ?_, hs.rounds, ?_⟩
  · rw [← hs.stdout]
    rfl
  · rw [range_min_succ, ← hs.printed]
    rfl
  · intro x hx
    rcases List.mem_append.mp hx with hx | hx
    · exact hs.reads x hx
    · split at hx
      · rename_i hlt; rw [List.mem_singleton.mp hx]; exact hlt
      · cases hx

/-- **A round prints the next cell, and ends the row if it was the last of one.** -/
theorem afterRounds_step (h : Holds mem len bs) {pre : List Char} {k fuel : Nat} {s : Hexdump}
    (hk : k < 2 ^ 32 - 1) (hfuel : 17 ≤ fuel) (hs : AfterRounds bs len pre k s) :
    ∃ t, Hexdump.round fuel mem len s = some t ∧ AfterRounds bs len pre (k + 1) t := by
  obtain ⟨u, hu, hi, hstdout, hprinted, hrounds, hreads⟩ := printHex_spec h (by omega) hs
  by_cases hend : k % 16 = 15
  · obtain ⟨t, ht, hti, htp, hts, htr, htreads⟩ := printChars_spec h hk hfuel hi hend hreads
    refine ⟨{ t with i := t.i + 1 }, by rw [Hexdump.round, hu, ht]; rfl, ?_, ?_, ?_, ?_, htreads⟩
    · show t.i + 1 = _
      rw [hti, hi, ofNat_succ]
    · show t.stdout = _
      rw [hts, hstdout, dumpUpTo_succ, if_pos hend]
      simp only [List.append_assoc]
    · exact htp.trans hprinted
    · show t.rounds = _
      have hdiv : (k + 1) / 16 = k / 16 + 1 := by omega
      rw [htr, hrounds, hdiv, List.replicate_succ']
  · have hmid : u.printChars fuel mem len = some u := by
      have hiff : u.i % Hexdump.cols = Hexdump.cols - 1 ↔ k % 16 = 15 := by
        rw [hi]
        exact ofNat_mod_cols (m := 15) (by omega) (by decide)
      rw [Hexdump.printChars, if_neg (fun heq => hend (hiff.mp heq))]
    refine ⟨{ u with i := u.i + 1 }, by rw [Hexdump.round, hu, hmid]; rfl, ?_, ?_, hprinted, ?_,
      hreads⟩
    · show u.i + 1 = _
      rw [hi, ofNat_succ]
    · show u.stdout = _
      rw [hstdout, dumpUpTo_succ, if_neg hend, List.append_nil]
      simp only [List.append_assoc]
    · show u.rounds = _
      have hdiv : (k + 1) / 16 = k / 16 := by omega
      rw [hrounds, hdiv]

/-- What a round does with enough fuel for its inner loop it does with more. -/
theorem round_mono {fuel fuel' : Nat} (hle : fuel ≤ fuel') (s t : Hexdump)
    (h : Hexdump.round fuel mem len s = some t) : Hexdump.round fuel' mem len s = some t := by
  obtain ⟨u, hu, rfl⟩ := Option.map_eq_some_iff.mp h
  refine Option.map_eq_some_iff.mpr ⟨u, ?_, rfl⟩
  rw [Hexdump.printChars] at hu ⊢
  split at hu
  · rename_i hend
    obtain ⟨r, hr, hur⟩ := Option.map_eq_some_iff.mp hu
    rw [if_pos hend, Loop.run_mono hr hle, ← hur]
    rfl
  · rename_i hend
    rw [if_neg hend]
    exact hu

end Round

/-! ## The whole loop -/

/-- `hexdump` comes back, having gone round and left what `r` says. -/
def Returns (desc : Option (List Char)) (mem : Nat → UInt8) (len : BitVec 32)
    (r : Nat × Hexdump) : Prop :=
  ∃ enough, ∀ fuel, enough ≤ fuel → hexdump fuel desc mem len = some r

theorem Returns.unique {desc : Option (List Char)} {mem : Nat → UInt8} {len : BitVec 32}
    {r r' : Nat × Hexdump} (h : Returns desc mem len r) (h' : Returns desc mem len r') :
    r = r' := by
  obtain ⟨n, hn⟩ := h
  obtain ⟨n', hn'⟩ := h'
  have heq := hn (max n n') (Nat.le_max_left _ _)
  rw [hn' (max n n') (Nat.le_max_right _ _)] at heq
  exact (Option.some.inj heq).symm

/-- **It goes round as often as the bound says**, printing a cell each time. -/
theorem hexdump_returns {mem : Nat → UInt8} {len : BitVec 32} {bs : List UInt8}
    (h : Holds mem len bs) (desc : Option (List Char)) :
    ∃ s, Returns desc mem len ((Hexdump.bound len).toNat, s) ∧
      AfterRounds bs len (Hexdump.start desc).stdout (Hexdump.bound len).toNat s := by
  have hbound : (Hexdump.bound len).toNat < 2 ^ 32 := (Hexdump.bound len).isLt
  have hround : ∀ k < (Hexdump.bound len).toNat, ∀ s : Hexdump,
      AfterRounds bs len (Hexdump.start desc).stdout k s →
      decide (s.i < Hexdump.bound len) = true ∧
        ∃ t, Hexdump.round 17 mem len s = some t ∧
          AfterRounds bs len (Hexdump.start desc).stdout (k + 1) t := by
    intro k hk s hs
    refine ⟨?_, afterRounds_step h (by omega) (Nat.le_refl _) hs⟩
    rw [hs.i, decide_eq_true_eq, ofNat_lt_iff (by omega)]
    exact hk
  have hstop : ∀ s : Hexdump,
      AfterRounds bs len (Hexdump.start desc).stdout (Hexdump.bound len).toNat s →
      decide (s.i < Hexdump.bound len) = false := by
    intro s hs
    rw [hs.i, decide_eq_false_iff_not, ofNat_lt_iff hbound]
    exact Nat.lt_irrefl _
  obtain ⟨s, hrun, hs⟩ := Loop.run_of_invariant hround hstop (afterRounds_start len bs desc)
  refine ⟨s, ⟨max 17 ((Hexdump.bound len).toNat + 1), ?_⟩, hs⟩
  intro fuel hfuel
  refine Loop.run_mono ?_ (Nat.le_trans (Nat.le_max_right _ _) hfuel)
  exact Loop.run_body_mono (round_mono (Nat.le_trans (Nat.le_max_left _ _) hfuel)) hrun

/-- The block a length cuts out of memory. -/
def block (mem : Nat → UInt8) (len : BitVec 32) : List UInt8 := (List.range len.toNat).map mem

theorem holds_block (mem : Nat → UInt8) (len : BitVec 32) : Holds mem len (block mem len) := by
  intro k
  rw [block, List.getElem?_map]
  by_cases hlt : k < len.toNat
  · rw [if_pos hlt, List.getElem?_range hlt]
    rfl
  · rw [if_neg hlt, List.getElem?_eq_none (by simpa using hlt)]
    rfl

/-- **The loop prints the rows, and reads nothing outside the block.** -/
theorem hexdump_prints {mem : Nat → UInt8} {len : BitVec 32} {bs : List UInt8}
    (h : Holds mem len bs) (hfit : 16 * rowCount bs.length < 2 ^ 32) (desc : Option (List Char)) :
    ∃ r, Returns desc mem len r ∧ r.2.stdout = (Hexdump.start desc).stdout ++ dump bs ∧
      ∀ k ∈ r.2.reads, k < bs.length := by
  obtain ⟨s, hret, hs⟩ := hexdump_returns h desc
  have hlength := h.length
  have hrows : (Hexdump.bound len).toNat = 16 * rowCount bs.length := by
    rw [toNat_bound, ← hlength, Nat.mod_eq_of_lt hfit]
  refine ⟨_, hret, ?_, ?_⟩
  · show s.stdout = _
    rw [hs.stdout, hrows, dumpUpTo_all]
  · intro k hk
    rw [hlength]
    exact hs.reads k hk

/--
**A dump is faithful and can be reversed.**

What is printed after the description is the row by row rendering, from which
the block can be read back. No other block prints the same.
-/
theorem hexdump_faithful {mem : Nat → UInt8} {len : BitVec 32} {bs : List UInt8}
    (h : Holds mem len bs) (hfit : 16 * rowCount bs.length < 2 ^ 32) (desc : Option (List Char)) :
    ∃ r, Returns desc mem len r ∧
      r.2.stdout = (Hexdump.start desc).stdout ++ dump bs ∧
      undump (r.2.stdout.drop (Hexdump.start desc).stdout.length) = bs ∧
      (∀ k ∈ r.2.reads, k < bs.length) ∧
      ∀ mem' len' bs' r', Holds mem' len' bs' → 16 * rowCount bs'.length < 2 ^ 32 →
        Returns desc mem' len' r' → r'.2.stdout = r.2.stdout → bs' = bs := by
  obtain ⟨r, hret, hstdout, hreads⟩ := hexdump_prints h hfit desc
  refine ⟨r, hret, hstdout, ?_, hreads, ?_⟩
  · rw [hstdout, List.drop_left, undump_dump]
  · intro mem' len' bs' r' h' hfit' hret' hsame
    obtain ⟨r₁, hret₁, hstdout₁, -⟩ := hexdump_prints h' hfit' desc
    rw [hret₁.unique hret', hsame, hstdout] at hstdout₁
    rw [← undump_dump bs', ← List.append_cancel_left hstdout₁, undump_dump]

/-- A list lies in memory from its start on. -/
theorem holds_getD (bs : List UInt8) (h : bs.length < 2 ^ 32) :
    Holds (fun k => bs.getD k 0) (BitVec.ofNat 32 bs.length) bs := by
  intro k
  rw [toNat_ofNat_of_lt h]
  by_cases hlt : k < bs.length
  · show _ = if k < bs.length then some (bs.getD k 0) else none
    rw [if_pos hlt, List.getD_eq_getElem?_getD, List.getElem?_eq_getElem hlt]
    rfl
  · rw [if_neg hlt, List.getElem?_eq_none (Nat.le_of_not_lt hlt)]

/-- What the first client of the examples sends. -/
def exampleBlock : List UInt8 := "Data from client 1!".toList.map fun c => UInt8.ofNat c.toNat

/-- What the worker prints then: one full row, one that ends after three cells. -/
def exampleOutput : String :=
  "RX Buffer\n"
    ++ "0x000000: 44 61 74 61 20 66 72 6f 6d 20 63 6c 69 65 6e 74 Data from client\n"
    ++ "0x000010: 20 31 21                                         1!             \n"

theorem hexdump_example :
    ∃ r, Returns (some "RX Buffer".toList) (fun k => exampleBlock.getD k 0) 19 r ∧
      r.2.stdout = exampleOutput.toList ∧
      undump (exampleOutput.toList.drop 10) = exampleBlock ∧ ∀ k ∈ r.2.reads, k < 19 := by
  obtain ⟨r, hret, hstdout, hundump, hreads, -⟩ :=
    hexdump_faithful (holds_getD exampleBlock (by decide)) (by decide)
      (some "RX Buffer".toList)
  have htext : exampleOutput.toList
      = (Hexdump.start (some "RX Buffer".toList)).stdout ++ dump exampleBlock := by decide +kernel
  rw [← htext] at hstdout
  rw [hstdout] at hundump
  exact ⟨r, hret, hstdout, hundump, hreads⟩

/-- What the loops should do about a block of length `len`. -/
structure CoversBlock (len : BitVec 32) (r : Nat × Hexdump) : Prop where
  /-- The outer loop goes round once for each column of each row. -/
  outer : r.1 = 16 * rowCount len.toNat
  /-- The inner one goes round sixteen times for each row. -/
  inner : r.2.rounds = List.replicate (rowCount len.toNat) 16
  /-- Each byte is printed once. -/
  printed : r.2.printed = List.range len.toNat

/-- Whatever the length, the number of rounds is the bound. -/
theorem outer_rounds {desc : Option (List Char)} {mem : Nat → UInt8} {len : BitVec 32}
    {r : Nat × Hexdump} (h : Returns desc mem len r) : r.1 = 16 * rowCount len.toNat % 2 ^ 32 := by
  obtain ⟨s, hret, -⟩ := hexdump_returns (holds_block mem len) desc
  rw [← hret.unique h]
  exact toNat_bound len

theorem length_le_of_covers {desc : Option (List Char)} {mem : Nat → UInt8} {len : BitVec 32}
    {r : Nat × Hexdump} (h : Returns desc mem len r) (hcovers : CoversBlock len r) :
    len.toNat ≤ 2 ^ 32 - 16 := by
  have hlen := len.isLt
  have hrounds := outer_rounds h
  rw [hcovers.outer] at hrounds
  unfold rowCount at hrounds
  omega

/--
**The loops cover the block exactly if it can be padded to whole rows.**

They come back in any case. From `2^32 - 15` on the padded length is `2^32`,
which wraps to zero.
-/
theorem coversBlock_iff (desc : Option (List Char)) (mem : Nat → UInt8) (len : BitVec 32) :
    (∃ r, Returns desc mem len r ∧ CoversBlock len r) ↔ len.toNat ≤ 2 ^ 32 - 16 := by
  constructor
  · rintro ⟨r, hret, hcovers⟩
    exact length_le_of_covers hret hcovers
  · intro hle
    obtain ⟨s, hret, hs⟩ := hexdump_returns (holds_block mem len) desc
    have hrows : (Hexdump.bound len).toNat = 16 * rowCount len.toNat := by
      rw [toNat_bound]
      unfold rowCount
      omega
    refine ⟨_, hret, hrows, ?_, ?_⟩
    · show s.rounds = _
      rw [hs.rounds, hrows, Nat.mul_div_cancel_left _ (by decide)]
    · show s.printed = _
      rw [hs.printed, hrows, Nat.min_eq_right (by unfold rowCount; omega)]

/-- A failed `read` passed on as a length: not one round. -/
theorem failed_read_prints_nothing :
    ¬ ∀ (desc : Option (List Char)) (mem : Nat → UInt8) (len : BitVec 32),
      ∃ r, Returns desc mem len r ∧ CoversBlock len r := by
  intro hevery
  obtain ⟨r, hret, hcovers⟩ := hevery none (fun _ => 0) (-1)
  exact absurd (length_le_of_covers hret hcovers) (by decide)

end TcpServer.Proof
