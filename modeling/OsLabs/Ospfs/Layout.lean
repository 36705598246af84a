import OsLabs.Lib.ByteMem

/-!
# OSPFS: disk layout

The disk is one byte memory, addressed as `ospfs_data` is. A pointer to an
inode (`oi`) or to a directory entry (`od`) is its address. Constants of
`ospfs.h` appear as numerals: `OSPFS_BLKSIZE` 1024, `OSPFS_BLKBITSIZE` 8192,
`OSPFS_FREEMAP_BLK` 2, `OSPFS_INODESIZE` 64, `OSPFS_BLKINODES` 16,
`OSPFS_NDIRECT` 10, `OSPFS_NINDIRECT` 256, `OSPFS_DIRENTRY_SIZE` 128,
`OSPFS_MAXNAMELEN` 123, `OSPFS_MAXSYMLINKLEN` 51.
-/

namespace OsLabs.Ospfs

/-- `oi_ftype` values. -/
abbrev ftypeReg : Nat := 0
abbrev ftypeDir : Nat := 1
abbrev ftypeSymlink : Nat := 2

/-- A C string less its NUL. -/
abbrev Bytes := List UInt8

/-- `OSPFS_MAXFILEBLKS`. -/
abbrev maxfileblks : Nat := 10 + 256 + 256 * 256

section Super

variable (m : Mem)

def osNblocks : Nat := m.get32 1028
def osNinodes : Nat := m.get32 1032
def osFirstinob : Nat := m.get32 1036

end Super

section Inode

variable (m : Mem) (oi : Nat)

def oiSize : Nat := m.get32 oi
def oiFtype : Nat := m.get32 (oi + 4)
def oiNlink : Nat := m.get32 (oi + 8)
def oiDirect (i : Nat) : Nat := m.get32 (oi + 16 + 4 * i)
def oiIndirect : Nat := m.get32 (oi + 56)
def oiIndirect2 : Nat := m.get32 (oi + 60)

end Inode

/-- `ospfs_block`: the address of a block; the product is taken in 32 bits. -/
def ospfsBlock (blockno : Nat) : Nat := blockno * 1024 % 2 ^ 32

theorem ospfsBlock_of_lt {b : Nat} (h : b < 2 ^ 22) : ospfsBlock b = 1024 * b := by
  unfold ospfsBlock
  omega

/-- `ospfs_size2nblocks`, on `uint32_t`. -/
def ospfsSize2nblocks (size : Nat) : Nat := (size + 1023) % 2 ^ 32 / 1024

theorem size2nblocks_lt (s : Nat) : ospfsSize2nblocks s < 2 ^ 22 := by
  unfold ospfsSize2nblocks
  omega

/-- The quotient grows by one, except at its largest value. -/
theorem size2nblocks_add {s : Nat} (h : ospfsSize2nblocks s + 1 < 2 ^ 22) :
    ospfsSize2nblocks ((s + 1024) % 2 ^ 32) = ospfsSize2nblocks s + 1 := by
  unfold ospfsSize2nblocks at *
  omega

theorem size2nblocks_sub {s : Nat} (h : 0 < ospfsSize2nblocks s) :
    ospfsSize2nblocks ((s + (2 ^ 32 - 1024)) % 2 ^ 32) = ospfsSize2nblocks s - 1 := by
  unfold ospfsSize2nblocks at *
  omega

/-! ## Bit vectors -/

section Bitvector

variable (m : Mem) (vector i : Nat)

def bitvectorSet : Mem :=
  m.set32 (vector + 4 * (i / 32)) (m.get32 (vector + 4 * (i / 32)) ||| 1 <<< (i % 32))

def bitvectorClear : Mem :=
  m.set32 (vector + 4 * (i / 32))
    (m.get32 (vector + 4 * (i / 32)) &&& (2 ^ 32 - 1 - 1 <<< (i % 32)))

def bitvectorTest : Bool := m.get32 (vector + 4 * (i / 32)) &&& 1 <<< (i % 32) != 0

end Bitvector

end OsLabs.Ospfs
