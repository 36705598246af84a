import OsLabs.Lib.BlockStream
import Mathlib.Data.List.Range
import Mathlib.Tactic.Ring

/-!
# The MD5 message digest

RFC 1321 on lists of bytes: the message is padded, its blocks of 64 bytes are
absorbed one after another, and the digest is the registers in little-endian order.
A line `[abcd k s t]` of the four rounds is a `Line`; the 64 lines are generated.
-/

namespace OsLabs.Md5

abbrev Byte := BitVec 8
abbrev Word := BitVec 32

inductive Reg where
  | A | B | C | D
  deriving DecidableEq, Repr

@[ext]
structure Regs where
  A : Word
  B : Word
  C : Word
  D : Word
  deriving DecidableEq, Repr

namespace Regs

def get (r : Regs) : Reg → Word
  | .A => r.A
  | .B => r.B
  | .C => r.C
  | .D => r.D

def set (r : Regs) (q : Reg) (w : Word) : Regs :=
  match q with
  | .A => { r with A := w }
  | .B => { r with B := w }
  | .C => { r with C := w }
  | .D => { r with D := w }

def add (r q : Regs) : Regs := ⟨r.A + q.A, r.B + q.B, r.C + q.C, r.D + q.D⟩

theorem get_set {r : Regs} {q q' : Reg} {w : Word} :
    (r.set q w).get q' = if q' = q then w else r.get q' := by
  cases q <;> cases q' <;> rfl

theorem set_set {r : Regs} {q : Reg} {w w' : Word} : (r.set q w).set q w' = r.set q w' := by
  cases q <;> rfl

end Regs

/-- The auxiliary functions F, G, H and I. -/
inductive Round where
  | F | G | H | I
  deriving DecidableEq, Repr

def Round.fn : Round → Word → Word → Word → Word
  | .F, x, y, z => (x &&& y) ||| (~~~x &&& z)
  | .G, x, y, z => (x &&& z) ||| (y &&& ~~~z)
  | .H, x, y, z => x ^^^ y ^^^ z
  | .I, x, y, z => y ^^^ (x ||| ~~~z)

/-- `[abcd k s t]` in a round. -/
structure Line where
  round : Round
  a : Reg
  b : Reg
  c : Reg
  d : Reg
  k : Nat
  s : Nat
  t : Word
  deriving DecidableEq, Repr

theorem rotate_eq {x : Word} {n : Nat} (hn : n < 32) :
    (x <<< n) ||| (x >>> (32 - n)) = x.rotateLeft n := by
  rw [BitVec.rotateLeft_def, Nat.mod_eq_of_lt hn]

/-- `a = b + ((a + F(b, c, d) + X[k] + t) <<< s)`. -/
def Line.perform (x : Nat → Word) (r : Regs) (l : Line) : Regs :=
  r.set l.a (r.get l.b +
    (r.get l.a + l.round.fn (r.get l.b) (r.get l.c) (r.get l.d) + x l.k + l.t).rotateLeft l.s)

/-- Element `i` is the integer part of 4294967296 times `abs(sin(i + 1))`. -/
def table : List Word :=
  [0xd76aa478, 0xe8c7b756, 0x242070db, 0xc1bdceee, 0xf57c0faf, 0x4787c62a,
    0xa8304613, 0xfd469501, 0x698098d8, 0x8b44f7af, 0xffff5bb1, 0x895cd7be,
    0x6b901122, 0xfd987193, 0xa679438e, 0x49b40821, 0xf61e2562, 0xc040b340,
    0x265e5a51, 0xe9b6c7aa, 0xd62f105d, 0x02441453, 0xd8a1e681, 0xe7d3fbc8,
    0x21e1cde6, 0xc33707d6, 0xf4d50d87, 0x455a14ed, 0xa9e3e905, 0xfcefa3f8,
    0x676f02d9, 0x8d2a4c8a, 0xfffa3942, 0x8771f681, 0x6d9d6122, 0xfde5380c,
    0xa4beea44, 0x4bdecfa9, 0xf6bb4b60, 0xbebfbc70, 0x289b7ec6, 0xeaa127fa,
    0xd4ef3085, 0x04881d05, 0xd9d4d039, 0xe6db99e5, 0x1fa27cf8, 0xc4ac5665,
    0xf4292244, 0x432aff97, 0xab9423a7, 0xfc93a039, 0x655b59c3, 0x8f0ccc92,
    0xffeff47d, 0x85845dd1, 0x6fa87e4f, 0xfe2ce6e0, 0xa3014314, 0x4e0811a1,
    0xf7537e82, 0xbd3af235, 0x2ad7d2bb, 0xeb86d391]

def lineRound (i : Nat) : Round :=
  if i < 16 then .F else if i < 32 then .G else if i < 48 then .H else .I

def lineWord : Round → Nat → Nat
  | .F, i => i
  | .G, i => (5 * i + 1) % 16
  | .H, i => (3 * i + 5) % 16
  | .I, i => 7 * i % 16

def lineShifts : Round → List Nat
  | .F => [7, 12, 17, 22]
  | .G => [5, 9, 14, 20]
  | .H => [4, 11, 16, 23]
  | .I => [6, 10, 15, 21]

/-- Register `j` of line `i`: the roles move on by one from line to line. -/
def lineReg (i j : Nat) : Reg := [Reg.A, .B, .C, .D].getD ((j + 3 * i) % 4) .A

def line (i : Nat) : Line where
  round := lineRound i
  a := lineReg i 0
  b := lineReg i 1
  c := lineReg i 2
  d := lineReg i 3
  k := lineWord (lineRound i) i
  s := (lineShifts (lineRound i)).getD (i % 4) 0
  t := table.getD i 0

def lines : List Line := (List.range 64).map line

/-- Word `k` of a block. -/
def word (block : List Byte) (k : Nat) : Word :=
  block.getD (4 * k + 3) 0 ++ block.getD (4 * k + 2) 0 ++ block.getD (4 * k + 1) 0 ++
    block.getD (4 * k) 0

/-- The registers after one more block. -/
def compress (r : Regs) (block : List Byte) : Regs :=
  r.add (lines.foldl (Line.perform (word block)) r)

def start : Regs := ⟨0x67452301, 0xefcdab89, 0x98badcfe, 0x10325476⟩

/-- Byte `i` of a number, the lowest one first. -/
def byte (n i : Nat) : Byte := BitVec.ofNat 8 (n / 2 ^ (8 * i))

/-- The low `k` bytes of a number. -/
def littleEndian (k n : Nat) : List Byte := (List.range k).map (byte n)

theorem littleEndian_mod {n : Nat} : littleEndian 4 (n % 2 ^ 32) = littleEndian 4 n := by
  refine List.map_congr_left fun k hk => BitVec.eq_of_toNat_eq ?_
  rw [List.mem_range] at hk
  simp only [byte, BitVec.toNat_ofNat]
  obtain rfl | rfl | rfl | rfl : k = 0 ∨ k = 1 ∨ k = 2 ∨ k = 3 := by omega
  all_goals omega

theorem littleEndian_eight {n : Nat} :
    littleEndian 8 n = littleEndian 4 (n % 2 ^ 32) ++ littleEndian 4 (n / 2 ^ 32) := by
  have hhigh (k : Nat) : byte (n / 2 ^ 32) k = byte n (4 + k) := by
    rw [byte, byte, Nat.div_div_eq_div_mul, ← Nat.pow_add, Nat.mul_add]
  rw [littleEndian_mod]
  simp only [littleEndian, List.range_succ, List.range_zero, List.map_cons, List.map_nil,
    List.nil_append, List.cons_append, hhigh]

/-- Behind the message: a one bit, zeros up to 56 bytes of the last block, and the
length in bits. -/
def padding (n : Nat) : List Byte :=
  0x80 :: (List.replicate ((119 - n % 64) % 64) 0 ++ littleEndian 8 (8 * n))

def output (r : Regs) : List Byte :=
  [r.A, r.B, r.C, r.D].flatMap fun w => littleEndian 4 w.toNat

def digest (message : List Byte) : List Byte :=
  output (BlockStream.absorb 64 compress (start, []) (message ++ padding message.length)).1

/-- The digest of `abc`. -/
example : digest [0x61, 0x62, 0x63] = [0x90, 0x01, 0x50, 0x98, 0x3c, 0xd2, 0x4f, 0xb0, 0xd6, 0x96,
    0x3f, 0x7d, 0x28, 0xe1, 0x7f, 0x72] := by
  decide +kernel

end OsLabs.Md5
