import TcpServer.Lib.Loop
import TcpServer.Lib.Numerals

/-!
# Printing a block of memory

`hexdump.c`: one loop over the block, padded to whole rows, which prints the
offset at the start of a row, a cell for each byte, and at the end of a row goes
back to its start for the characters.

The counters are `unsigned int`, so all arithmetic on them wraps at `2^32`. The
memory is a function of the index: which indices are read is part of the result.
-/

namespace TcpServer

/-- A `char` as the `int` it is promoted to: `char` is signed. -/
def charInt (c : UInt8) : BitVec 32 := c.toBitVec.signExtend 32

/-- `isprint`: false for the negative values. -/
def isprint (c : BitVec 32) : Bool := 0x20 ≤ c.toInt ∧ c.toInt ≤ 0x7e

/-- The variables of `hexdump` and what it has printed. The last three fields are history: no step
reads them. -/
structure Hexdump where
  i : BitVec 32
  j : BitVec 32
  stdout : List Char
  /-- The indices whose byte was printed as hexadecimal. -/
  printed : List Nat
  /-- The indices at which memory was read. -/
  reads : List Nat
  /-- The number of rounds of each inner loop. -/
  rounds : List Nat
  deriving DecidableEq, Repr

namespace Hexdump

/-- `HEXDUMP_COLS`. -/
def cols : BitVec 32 := 16

/-- `len + ((len % HEXDUMP_COLS) ? (HEXDUMP_COLS - len % HEXDUMP_COLS) : 0)`. -/
def bound (len : BitVec 32) : BitVec 32 :=
  len + if len % cols ≠ 0 then cols - len % cols else 0

/-- Before the loop, with `desc` printed if it is not `NULL`. `j` is set before it is read. -/
def start (desc : Option (List Char)) : Hexdump where
  i := 0
  j := 0
  stdout := match desc with
    | some cs => cs ++ ['\n']
    | none => []
  printed := []
  reads := []
  rounds := []

def print (s : Hexdump) (cs : List Char) : Hexdump := { s with stdout := s.stdout ++ cs }

/-- `fprintf(stdout, "0x%06x: ", i)` at the start of a row. -/
def printOffset (s : Hexdump) : Hexdump :=
  if s.i % cols = 0 then
    s.print ('0' :: 'x' :: Numerals.hexPadded 6 s.i.toNat ++ [':', ' '])
  else s

/-- `fprintf(stdout, "%02x ", 0xFF & ((char*)mem)[i])`, or blanks from `len` on. -/
def printHex (mem : Nat → UInt8) (len : BitVec 32) (s : Hexdump) : Hexdump :=
  if s.i < len then
    { s.print (Numerals.hexPadded 2 (0xFF &&& charInt (mem s.i.toNat)).toNat ++ [' ']) with
      printed := s.printed ++ [s.i.toNat]
      reads := s.reads ++ [s.i.toNat] }
  else s.print [' ', ' ', ' ']

/-- A round of the inner loop. -/
def printChar (mem : Nat → UInt8) (len : BitVec 32) (s : Hexdump) : Hexdump :=
  if s.j ≥ len then { s.print [' '] with j := s.j + 1 }
  else if isprint (charInt (mem s.j.toNat)) = true then
    { s.print [Char.ofNat (0xFF &&& charInt (mem s.j.toNat)).toNat] with
      j := s.j + 1
      reads := s.reads ++ [s.j.toNat, s.j.toNat] }
  else
    { s.print ['.'] with
      j := s.j + 1
      reads := s.reads ++ [s.j.toNat] }

/-- The inner loop, at the end of a row: `for (j = i - (HEXDUMP_COLS - 1); j <= i; j++)`. -/
def printChars (fuel : Nat) (mem : Nat → UInt8) (len : BitVec 32) (s : Hexdump) :
    Option Hexdump :=
  if s.i % cols = cols - 1 then
    (Loop.run (fun s => s.j ≤ s.i) (fun s => some (printChar mem len s)) fuel
      { s with j := s.i - (cols - 1) }).map fun r =>
        { r.2.print ['\n'] with rounds := r.2.rounds ++ [r.1] }
  else some s

/-- A round of the outer loop. -/
def round (fuel : Nat) (mem : Nat → UInt8) (len : BitVec 32) (s : Hexdump) : Option Hexdump :=
  (printChars fuel mem len (printHex mem len (printOffset s))).map fun s => { s with i := s.i + 1 }

end Hexdump

/-- `hexdump`, with at most `fuel` rounds of each of its loops: the rounds of the outer one, and
what it leaves. -/
def hexdump (fuel : Nat) (desc : Option (List Char)) (mem : Nat → UInt8) (len : BitVec 32) :
    Option (Nat × Hexdump) :=
  Loop.run (fun s => s.i < Hexdump.bound len) (Hexdump.round fuel mem len) fuel (Hexdump.start desc)

end TcpServer
