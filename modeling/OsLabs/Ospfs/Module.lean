import OsLabs.Ospfs.Layout

/-!
# OSPFS: the kernel module

The functions of `ospfsmod.c` as functions on the disk. `none` stands for a
call that does not come back (a NULL pointer is followed, `panic`, or a loop
without end).
-/

namespace OsLabs.Ospfs

inductive Errno where
  | eNoEnt
  | eIo
  | eNoMem
  | eFault
  | eExist
  | eInval
  | eNoSpc
  | eNameTooLong
  | ePerm
  deriving DecidableEq, Repr

abbrev Ret := Except Errno Unit

/-! ## Inodes and file blocks -/

def ospfsInode (m : Mem) (ino : Nat) : Option Nat :=
  if ino ≥ osNinodes m then none else some (ospfsBlock (osFirstinob m) + 64 * ino)

def ospfsInodeBlockno (m : Mem) (oi offset : Nat) : Nat :=
  let blockno := offset / 1024
  if offset ≥ oiSize m oi ∨ oiFtype m oi = ftypeSymlink then 0
  else if blockno ≥ 10 + 256 then
    let blockoff := blockno - (10 + 256)
    let indirect2Block := ospfsBlock (oiIndirect2 m oi)
    let indirectBlock := ospfsBlock (m.get32 (indirect2Block + 4 * (blockoff / 256)))
    m.get32 (indirectBlock + 4 * (blockoff % 256))
  else if blockno ≥ 10 then
    m.get32 (ospfsBlock (oiIndirect m oi) + 4 * (blockno - 10))
  else oiDirect m oi blockno

def ospfsInodeData (m : Mem) (oi offset : Nat) : Nat :=
  ospfsBlock (ospfsInodeBlockno m oi offset) + offset % 1024

/-! ## Free-block bitmap -/

/-- The loop of `allocate_block` from block `i` on, `k` blocks before the end of the disk. -/
def allocateFrom (m : Mem) : (k i : Nat) → Nat × Mem
  | 0, _ => (0, m)
  | k + 1, i =>
    if bitvectorTest m (ospfsBlock 2) i then (i, bitvectorClear m (ospfsBlock 2) i)
    else allocateFrom m k (i + 1)

def allocateBlock (m : Mem) : Nat × Mem := allocateFrom m (osNblocks m - 2) 2

def freeBlock (m : Mem) (blockno : Nat) : Mem :=
  if blockno < osFirstinob m then m
  else if bitvectorTest m (ospfsBlock 2) blockno then m
  else bitvectorSet m (ospfsBlock 2) blockno

/-! ## Changing a file's size -/

def indir2Index (b : Nat) : Int := if b < 10 + 256 then -1 else 0

def indirIndex (b : Nat) : Int :=
  if b < 10 then -1 else if b ≥ 10 ∧ b < 10 + 256 then 0 else ((b - 10 - 256) / 256 : Nat)

def directIndex (b : Nat) : Nat := if b < 10 then b else (b - 10) % 256

theorem directIndex_direct {b : Nat} (h : b < 10) : directIndex b = b := if_pos h

theorem directIndex_indirect {b : Nat} (h : 10 ≤ b) (h' : b < 266) : directIndex b = b - 10 := by
  unfold directIndex
  rw [if_neg (by omega)]
  omega

/-- The indirect range is a multiple of what `direct_index` divides by. -/
theorem directIndex_indirect2 {b : Nat} (h : 266 ≤ b) : directIndex b = (b - 266) % 256 := by
  unfold directIndex
  rw [if_neg (by omega)]
  omega

theorem directIndex_lt {b : Nat} (h : 10 ≤ b) : directIndex b < 256 := by
  unfold directIndex
  rw [if_neg (by omega)]
  omega

theorem indirIndex_direct {b : Nat} (h : b < 10) : indirIndex b = -1 := if_pos h

theorem indirIndex_indirect {b : Nat} (h : 10 ≤ b) (h' : b < 266) : indirIndex b = 0 := by
  unfold indirIndex
  rw [if_neg (by omega), if_pos ⟨h, h'⟩]

theorem toNat_indirIndex {b : Nat} (h : 266 ≤ b) : (indirIndex b).toNat = (b - 266) / 256 := by
  unfold indirIndex
  rw [if_neg (by omega), if_neg (by omega), Int.toNat_natCast, Nat.sub_sub]

def clearBlock (m : Mem) (b : Nat) : Mem := m.fill (ospfsBlock b) 1024 0

/-- The branch of `add_block` for file blocks under the indirect block. -/
def addIndirect (m : Mem) (oi n newBlock : Nat) : Ret × Mem :=
  if oiIndirect m oi = 0 then
    let (allocated0, m) := allocateBlock m
    if allocated0 = 0 then (.error .eNoSpc, freeBlock m newBlock)
    else
      let m := (clearBlock m allocated0).set32 (oi + 56) allocated0
      (.ok (), m.set32 (ospfsBlock (oiIndirect m oi) + 4 * directIndex n) newBlock)
  else (.ok (), m.set32 (ospfsBlock (oiIndirect m oi) + 4 * directIndex n) newBlock)

/-- The branch of `add_block` for later file blocks, from `indir2` on. -/
def addUnder (m : Mem) (oi n newBlock allocated1 : Nat) : Ret × Mem :=
  let indir2 := ospfsBlock (oiIndirect2 m oi)
  let indir := m.get32 (indir2 + 4 * (indirIndex n).toNat)
  if indir = 0 then
    let (allocated0, m) := allocateBlock m
    if allocated0 = 0 then
      let m := freeBlock m newBlock
      (.error .eNoSpc, if allocated1 ≠ 0 then freeBlock m allocated1 else m)
    else
      -- the new indirect block is not entered in the doubly indirect block
      (.ok (), (clearBlock m allocated0).set32 (ospfsBlock allocated0 + 4 * directIndex n) newBlock)
  else (.ok (), m.set32 (ospfsBlock indir + 4 * directIndex n) newBlock)

def addIndirect2 (m : Mem) (oi n newBlock : Nat) : Ret × Mem :=
  if oiIndirect2 m oi = 0 then
    let (allocated1, m) := allocateBlock m
    if allocated1 = 0 then (.error .eNoSpc, freeBlock m newBlock)
    else addUnder ((clearBlock m allocated1).set32 (oi + 60) allocated1) oi n newBlock allocated1
  else addUnder m oi n newBlock 0

def addBlock (m : Mem) (oi : Nat) : Ret × Mem :=
  let n := ospfsSize2nblocks (oiSize m oi)
  if n > maxfileblks then (.error .eNoSpc, m)
  else
    let (newBlock, m) := allocateBlock m
    if newBlock = 0 then (.error .eNoSpc, m)
    else
      let m := clearBlock m newBlock
      let (r, m) :=
        if n < 10 then (.ok (), m.set32 (oi + 16 + 4 * n) newBlock)
        else if n < 10 + 256 then addIndirect m oi n newBlock
        else addIndirect2 m oi n newBlock
      match r with
      | .ok () => (.ok (), m.set32 oi (oiSize m oi + 1024))
      | .error e => (.error e, m)

/-- The branch of `remove_block` for blocks under the doubly indirect block. -/
def removeIndirect2 (m : Mem) (oi n : Nat) : Mem :=
  let indir2 := ospfsBlock (oiIndirect2 m oi)
  let offset2 := (indirIndex n).toNat
  let indir := ospfsBlock (m.get32 (indir2 + 4 * offset2))
  let offset := directIndex n
  let m := (freeBlock m (m.get32 (indir + 4 * offset))).set32 (indir + 4 * offset) 0
  if offset = 0 then
    let m := m.set32 (indir2 + 4 * offset2) 0
    if offset2 = 0 then m.set32 (oi + 60) 0 else m
  else m

def removeIndirect (m : Mem) (oi n : Nat) : Mem :=
  let indir := ospfsBlock (oiIndirect m oi)
  let offset := directIndex n
  let m := (freeBlock m (m.get32 (indir + 4 * offset))).set32 (indir + 4 * offset) 0
  if offset = 0 then m.set32 (oi + 56) 0 else m

def removeDirect (m : Mem) (oi n : Nat) : Mem :=
  let directOff := directIndex n
  (freeBlock m (oiDirect m oi directOff)).set32 (oi + 16 + 4 * directOff) 0

/-- `remove_block`; it works on the block index `n` behind the file's last block. -/
def removeBlock (m : Mem) (oi : Nat) : Mem :=
  let n := ospfsSize2nblocks (oiSize m oi)
  let m :=
    if indir2Index n = 0 then removeIndirect2 m oi n
    else if indirIndex n = 0 then removeIndirect m oi n
    else removeDirect m oi n
  m.set32 oi (oiSize m oi + (2 ^ 32 - 1024))

/-- The rollback loop of `change_size`. -/
def removeBlocks (oi : Nat) : Nat → Mem → Mem
  | 0, m => m
  | r + 1, m => removeBlocks oi r (removeBlock m oi)

/-- The first loop of `change_size`; `r` counts the blocks added so far. -/
def growLoop (oi newSize : Nat) : (fuel r : Nat) → Mem → Option (Ret × Mem)
  | fuel, r, m =>
    if ospfsSize2nblocks (oiSize m oi) < ospfsSize2nblocks newSize then
      match fuel with
      | 0 => none
      | fuel + 1 =>
        match addBlock m oi with
        | (.ok (), m) => growLoop oi newSize fuel (r + 1) m
        | (.error .eNoSpc, m) => some (.error .eNoSpc, removeBlocks oi r m)
        | (.error _, m) => some (.error .eIo, m)
    else some (.ok (), m)

/-- The second loop of `change_size`. -/
def shrinkLoop (oi newSize : Nat) : (fuel : Nat) → Mem → Option Mem
  | fuel, m =>
    if ospfsSize2nblocks (oiSize m oi) > ospfsSize2nblocks newSize then
      match fuel with
      | 0 => none
      | fuel + 1 => shrinkLoop oi newSize fuel (removeBlock m oi)
    else some m

/-- `change_size`. Each pass changes the block count by one, so the loops are
given the number of blocks between the two sizes. -/
def changeSize (m : Mem) (oi newSize : Nat) : Option (Ret × Mem) := do
  let (r, m) ← growLoop oi newSize (ospfsSize2nblocks newSize) 0 m
  match r with
  | .error e => return (.error e, m)
  | .ok () =>
    let m ← shrinkLoop oi newSize (ospfsSize2nblocks (oiSize m oi)) m
    return (.ok (), m.set32 oi newSize)

section

variable {m m' m₁ : Mem} {oi newSize fuel r : Nat}

theorem growLoop_done (h : ospfsSize2nblocks newSize ≤ ospfsSize2nblocks (oiSize m oi)) :
    growLoop oi newSize fuel r m = some (.ok (), m) := by
  cases fuel <;> rw [growLoop, if_neg (Nat.not_lt_of_le h)]

theorem growLoop_add (h : ospfsSize2nblocks (oiSize m oi) < ospfsSize2nblocks newSize)
    (ha : addBlock m oi = (.ok (), m')) :
    growLoop oi newSize (fuel + 1) r m = growLoop oi newSize fuel (r + 1) m' := by
  conv => lhs; unfold growLoop
  rw [if_pos h, ha]

theorem growLoop_full (h : ospfsSize2nblocks (oiSize m oi) < ospfsSize2nblocks newSize)
    (ha : addBlock m oi = (.error .eNoSpc, m')) :
    growLoop oi newSize (fuel + 1) r m = some (.error .eNoSpc, removeBlocks oi r m') := by
  conv => lhs; unfold growLoop
  rw [if_pos h, ha]

theorem shrinkLoop_done (h : ospfsSize2nblocks (oiSize m oi) ≤ ospfsSize2nblocks newSize) :
    shrinkLoop oi newSize fuel m = some m := by
  cases fuel <;> rw [shrinkLoop, if_neg (Nat.not_lt_of_le h)]

theorem shrinkLoop_remove (h : ospfsSize2nblocks newSize < ospfsSize2nblocks (oiSize m oi)) :
    shrinkLoop oi newSize (fuel + 1) m = shrinkLoop oi newSize fuel (removeBlock m oi) := by
  conv => lhs; unfold shrinkLoop
  rw [if_pos h]

theorem changeSize_error {e : Errno}
    (hg : growLoop oi newSize (ospfsSize2nblocks newSize) 0 m = some (.error e, m')) :
    changeSize m oi newSize = some (.error e, m') := by
  unfold changeSize
  rw [hg]
  rfl

theorem changeSize_ok
    (hg : growLoop oi newSize (ospfsSize2nblocks newSize) 0 m = some (.ok (), m₁))
    (hs : shrinkLoop oi newSize (ospfsSize2nblocks (oiSize m₁ oi)) m₁ = some m') :
    changeSize m oi newSize = some (.ok (), m'.set32 oi newSize) := by
  unfold changeSize
  rw [hg]
  simp only [Option.bind_eq_bind, Option.bind_some, hs]
  rfl

theorem changeSize_cases {res : Ret} (hr : changeSize m oi newSize = some (res, m')) :
    (∃ e, growLoop oi newSize (ospfsSize2nblocks newSize) 0 m = some (.error e, m') ∧
      res = .error e) ∨
    ∃ m₁ m₂, growLoop oi newSize (ospfsSize2nblocks newSize) 0 m = some (.ok (), m₁) ∧
      shrinkLoop oi newSize (ospfsSize2nblocks (oiSize m₁ oi)) m₁ = some m₂ ∧
      res = .ok () ∧ m' = m₂.set32 oi newSize := by
  unfold changeSize at hr
  cases hg : growLoop oi newSize (ospfsSize2nblocks newSize) 0 m with
  | none =>
    rw [hg] at hr
    cases hr
  | some out =>
    obtain ⟨r, m₁⟩ := out
    rw [hg] at hr
    cases r with
    | error e =>
      cases hr
      exact .inl ⟨e, rfl, rfl⟩
    | ok u =>
      cases hs : shrinkLoop oi newSize (ospfsSize2nblocks (oiSize m₁ oi)) m₁ with
      | none =>
        simp [hs] at hr
      | some m₂ =>
        simp only [hs, Option.bind_eq_bind, Option.bind_some, Option.pure_def,
          Option.some.injEq, Prod.mk.injEq] at hr
        exact .inr ⟨m₁, m₂, rfl, hs, hr.1.symm, hr.2.symm⟩

theorem growLoop_of_changeSize {e : Errno}
    (hr : changeSize m oi newSize = some (.error e, m')) :
    growLoop oi newSize (ospfsSize2nblocks newSize) 0 m = some (.error e, m') := by
  rcases changeSize_cases hr with ⟨e', hg, he⟩ | ⟨_, _, -, -, he, -⟩
  · cases he
    exact hg
  · cases he

theorem changeSize_same (h : ospfsSize2nblocks (oiSize m oi) = ospfsSize2nblocks newSize) :
    changeSize m oi newSize = some (.ok (), m.set32 oi newSize) :=
  changeSize_ok (growLoop_done (Nat.le_of_eq h.symm)) (shrinkLoop_done (Nat.le_of_eq h))

end

/-! ## File operations -/

/-- `count + *f_pos`: a `size_t` of 32 bits is added to a signed `loff_t` of 64 bits. -/
def loffEnd (count fPos : Nat) : Int := ((count + fPos : Nat) : Int).bmod (2 ^ 64)

/-- What `ospfs_read` returns, leaves in `*f_pos`, and has copied to the user. -/
structure Transfer where
  ret : Except Errno Nat
  fPos : Nat
  out : Bytes := []
  deriving DecidableEq

def chunk (count amount fPos : Nat) : Nat :=
  let offset := fPos % 1024
  if count - amount > 1024 - offset then 1024 - offset else count - amount

/-- The loop of `ospfs_read`; `copyToUser i` says whether the `i`th copy succeeds. -/
def readLoop (m : Mem) (oi count : Nat) (copyToUser : Nat → Bool) :
    (fuel i amount fPos : Nat) → Bytes → Option Transfer
  | fuel, i, amount, fPos, out =>
    if amount < count then
      match fuel with
      | 0 => none
      | fuel + 1 =>
        let blockno := ospfsInodeBlockno m oi (fPos % 2 ^ 32)
        if blockno = 0 then some ⟨.error .eIo, fPos, out⟩
        else
          let n := chunk count amount fPos
          if copyToUser i then
            readLoop m oi count copyToUser fuel (i + 1) (amount + n) (fPos + n)
              (out ++ m.load (ospfsBlock blockno + fPos % 1024) n)
          else some ⟨.error .eFault, fPos, out⟩
    else some ⟨.ok amount, fPos, out⟩

/-- `ospfs_read` on an inode, from the nonnegative position `fPos`. Each step
copies at least one byte, so `count` steps are enough. -/
def ospfsRead (m : Mem) (oi count fPos : Nat) (copyToUser : Nat → Bool) : Option Transfer :=
  let count :=
    if loffEnd count fPos > oiSize m oi then (((oiSize m oi : Int) - fPos) % 2 ^ 32).toNat
    else count
  readLoop m oi count copyToUser count 0 0 fPos []

/-- `copy_from_user` of `n` bytes at offset `k` of the user's buffer: the bytes
it leaves in the destination (zeros behind the first unreadable one) and
whether all could be read. -/
def copyFromUser (buffer : Nat → Option UInt8) (k n : Nat) : Bytes × Bool :=
  let bytes := ((List.range n).map fun i => buffer (k + i)).takeWhile Option.isSome
  (bytes.map (·.getD 0) ++ List.replicate (n - bytes.length) 0, bytes.length == n)

def writeLoop (oi count : Nat) (buffer : Nat → Option UInt8) :
    (fuel amount fPos : Nat) → Mem → Option (Transfer × Mem)
  | fuel, amount, fPos, m =>
    if amount < count then
      match fuel with
      | 0 => none
      | fuel + 1 =>
        let blockno := ospfsInodeBlockno m oi (fPos % 2 ^ 32)
        if blockno = 0 then some (⟨.error .eIo, fPos, []⟩, m)
        else
          let n := chunk count amount fPos
          let (bytes, ok) := copyFromUser buffer amount n
          let m := m.store (ospfsBlock blockno + fPos % 1024) bytes
          if ok then writeLoop oi count buffer fuel (amount + n) (fPos + n) m
          else some (⟨.error .eFault, fPos, []⟩, m)
    else some (⟨.ok amount, fPos, []⟩, m)

/-- `ospfs_write` on an inode; `append` is `filp->f_flags & O_APPEND`. -/
def ospfsWrite (m : Mem) (oi : Nat) (append : Bool) (buffer : Nat → Option UInt8)
    (count fPos : Nat) : Option (Transfer × Mem) := do
  let fPos := if append then oiSize m oi else fPos
  if loffEnd count fPos > oiSize m oi then
    let (r, m) ← changeSize m oi ((count + fPos) % 2 ^ 32)
    match r with
    | .error e => return (⟨.error e, fPos, []⟩, m)
    | .ok () => writeLoop oi count buffer count 0 fPos m
  else writeLoop oi count buffer count 0 fPos m

/-- The size change of `ospfs_notify_change` (`ATTR_SIZE`). -/
def ospfsNotifySize (m : Mem) (oi newSize : Nat) : Option (Ret × Mem) :=
  if oiFtype m oi = ftypeDir then some (.error .ePerm, m) else changeSize m oi newSize

end OsLabs.Ospfs
