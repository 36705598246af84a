import OsLabs.Ospfs.Dir
import OsLabs.Ospfs.Rollback
import OsLabs.Ospfs.Transfer

/-!
# OSPFS: growing a directory

`create_blank_direntry` of a directory without a blank entry asks `change_size`
for `OSPFS_BLKBITSIZE` more bytes, the number of bits of a block: eight blocks.
`createBlankDirentry_eightBlocks` says what a call that succeeds leaves,
`growsByBlock_iff` when the directory grows by one block.
-/

namespace OsLabs.Ospfs

namespace Volume

variable {V : Volume} {m m' : Mem} {oi od n p : Nat}

def NoBlank (m : Mem) (dirOi : Nat) : Prop :=
  ∀ k < direntries m dirOi, odIno m (ospfsInodeData m dirOi (128 * k)) ≠ 0

/-- How many blocks must be free for one more block of a directory of `n` blocks: the block
and the pointer blocks that are missing on the way to it. -/
def extendNeeds (m : Mem) (oi n : Nat) : Nat :=
  if n < 10 then 1
  else if n < 266 then if oiIndirect m oi = 0 then 2 else 1
  else if oiIndirect2 m oi = 0 then 3
  else if ptr m oi (.indir2 ((n - 266) / 256)) = 0 then 2 else 1

/-- The directory has grown by one block, in which the blank entry `od` lies. -/
structure OneBlockMore (m : Mem) (dirOi od : Nat) (m' : Mem) : Prop where
  size : oiSize m' dirOi = oiSize m dirOi + 1024
  within : ospfsBlock (ospfsInodeBlockno m' dirOi (oiSize m dirOi)) ≤ od ∧
    od + 128 ≤ ospfsBlock (ospfsInodeBlockno m' dirOi (oiSize m dirOi)) + 1024
  blank : odIno m' od = 0
  kept : ∀ p < oiSize m dirOi, m' (ospfsInodeData m' dirOi p) = m (ospfsInodeData m dirOi p)

/-- With room for one more block the call succeeds and adds that block. -/
def GrowsByBlock (m : Mem) (dirOi : Nat) : Prop :=
  extendNeeds m dirOi (ospfsSize2nblocks (oiSize m dirOi)) ≤ freeBlocks m →
    ∃ od m', createBlankDirentry m dirOi = some (.ok od, m') ∧ OneBlockMore m dirOi od m'

/-! ## What a call does -/

theorem scan_none {test : Nat → Bool} {rounds k : Nat}
    (h : ∀ j, k ≤ j → j < k + rounds → test (ospfsInodeData m oi (128 * j)) = false) :
    scan m oi test rounds (128 * k) = none := by
  induction rounds generalizing k with
  | zero => rfl
  | succ rounds ih =>
    have hnext := ih (k := k + 1) fun j hj hlt => h j (by omega) (by omega)
    rw [Nat.mul_add, Nat.mul_one] at hnext
    show (if test (ospfsInodeData m oi (128 * k)) then _ else _) = none
    rw [h k (Nat.le_refl k) (by omega)]
    exact hnext

theorem NoBlank.createBlankDirentry (h : NoBlank m oi) :
    createBlankDirentry m oi =
      (changeSize m oi ((oiSize m oi + 8192) % 2 ^ 32)).map fun r =>
        (r.1.map fun _ => ospfsInodeData r.2 oi ((128 + oiSize m oi) % 2 ^ 32), r.2) := by
  have hscan : scan m oi (fun od => odIno m od == 0) (direntries m oi) 0 = none :=
    scan_none (k := 0) fun j _ hj => beq_eq_false_iff_ne.2 (h j (by omega))
  unfold Ospfs.createBlankDirentry
  rw [hscan]
  rcases changeSize m oi ((oiSize m oi + 8192) % 2 ^ 32) with _ | ⟨_ | _, m'⟩ <;> rfl

theorem oiSize_changeSize {newSize : Nat} (hr : changeSize m oi newSize = some (.ok (), m')) :
    oiSize m' oi = newSize % 2 ^ 32 := by
  rcases changeSize_cases hr with ⟨e, -, he⟩ | ⟨m₁, m₂, -, -, -, rfl⟩
  · cases he
  · exact Mem.get32_set32

theorem NoBlank.cases (h : NoBlank m oi) (hr : Ospfs.createBlankDirentry m oi = some (.ok od, m')) :
    changeSize m oi ((oiSize m oi + 8192) % 2 ^ 32) = some (.ok (), m') ∧
      oiSize m' oi = (oiSize m oi + 8192) % 2 ^ 32 ∧
      od = ospfsInodeData m' oi ((128 + oiSize m oi) % 2 ^ 32) := by
  rw [h.createBlankDirentry] at hr
  rcases hc : changeSize m oi ((oiSize m oi + 8192) % 2 ^ 32) with _ | ⟨e | _, m₁⟩
  · rw [hc] at hr
    cases hr
  · rw [hc] at hr
    cases hr
  · rw [hc] at hr
    cases hr
    refine ⟨rfl, ?_, rfl⟩
    rw [oiSize_changeSize hc, Nat.mod_mod]

/-- **A call that succeeds** without a blank entry, where the growth starts no indirect block
under the doubly indirect block: the directory is eight blocks larger, its entries are what they
were, and the entry returned is the second one of the first new block. -/
theorem createBlankDirentry_eightBlocks (h : V.WellFormed m oi n) (hdir : oiFtype m oi = ftypeDir)
    (hwhole : oiSize m oi = 1024 * n) (hblank : NoBlank m oi) (hmax : n + 8 < maxfileblks)
    (hno : NoNewTable n (n + 8))
    (hr : createBlankDirentry m oi = some (.ok od, m')) :
    oiSize m' oi = oiSize m oi + 8192 ∧
      od = ospfsBlock (ospfsInodeBlockno m' oi (oiSize m oi)) + 128 ∧ odIno m' od = 0 ∧
      ∀ p < oiSize m oi, m' (ospfsInodeData m' oi p) = m (ospfsInodeData m oi p) := by
  obtain ⟨hgrow, hsize, hod⟩ := hblank.cases hr
  have hty : oiFtype m oi ≠ ftypeSymlink := by
    rw [hdir]
    decide
  have hmax' : n + 8 < 65802 := hmax
  have hnew : (oiSize m oi + 8192) % 2 ^ 32 = 1024 * (n + 8) := by omega
  have hpos : (128 + oiSize m oi) % 2 ^ 32 = 128 + 1024 * n := by omega
  have hk : n + 8 = ospfsSize2nblocks (1024 * (n + 8)) := by
    unfold ospfsSize2nblocks
    omega
  rw [hnew] at hgrow hsize
  rw [hpos] at hod
  obtain ⟨m₁, hs, hf, rfl⟩ := h.changeSize_grow (P := Filled V oi n m) (by omega) (by omega)
    h.filled (fun c a m₁ m₂ hc hnc hP hs he => hP.extend hs he (hno c hnc (by omega))) hgrow
  rw [← hk] at hs hf
  have hbno (i : Nat) (hi : i < n + 8) := hf.inodeBlockno h hs hty (by omega) hk hi
  obtain ⟨hlo, hhi, -⟩ := h.inode.address
  have hlast := hf.used (.leaf n) (show n < n + 8 by omega)
  have hdata := (hs.owns.ok _ hlast).1
  have hblock : ospfsInodeBlockno (m₁.set32 oi (1024 * (n + 8))) oi (128 + 1024 * n) =
      ospfsInodeBlockno (m₁.set32 oi (1024 * (n + 8))) oi (1024 * n) :=
    inodeBlockno_block (by rw [hbno n (by omega)]; exact hlast) (by omega) (by omega)
  have hmod : (128 + 1024 * n) % 1024 = 128 := by omega
  refine ⟨by omega, ?_, ?_, fun p hp => ?_⟩
  · rw [hod, hwhole]
    unfold ospfsInodeData
    rw [hblock, hmod]
  · have haddr := hdata.address
    unfold ospfsInodeData at hod
    rw [hblock, hbno n (by omega), hdata.block, hmod] at hod
    rw [hod]
    refine Mem.get32_of_zero fun i hi => ?_
    rw [Mem.set32_of_ne (by omega)]
    exact (hf.fresh n (Nat.le_refl n) (by omega)).2 _ (by omega) (by omega)
  · have hin : p / 1024 < n := by omega
    have h0 := h.ptr_ne_zero.2 (show (Place.leaf (p / 1024)).InUse n from hin)
    have hused := h.used _ (show (Place.leaf (p / 1024)).InUse n from hin)
    have haddr := hused.1.address
    have hfd := V.firstdata_ge
    have hold : ospfsInodeBlockno m oi p = ptr m oi (.leaf (p / 1024)) := by
      rw [← inodeBlockno_ptr (by omega) hty h0]
      exact inodeBlockno_block (by rw [inodeBlockno_ptr (by omega) hty h0]; exact h0) hp (by omega)
    have hkept : ospfsInodeBlockno (m₁.set32 oi (1024 * (n + 8))) oi p =
        ptr m oi (.leaf (p / 1024)) := by
      have hfirst := hbno (p / 1024) (by omega)
      rw [hf.grew.ne_zero h0] at hfirst
      rw [← hfirst]
      exact inodeBlockno_block (by rw [hfirst]; exact h0) (by omega) (by omega)
    unfold ospfsInodeData
    rw [hkept, hold, hused.1.block, Mem.set32_of_ne (by omega)]
    refine hf.grew.bytes _ hused (fun q hq he => ?_) _ (by omega) (by omega)
    have hsame := h.inj _ _ h0 he.symm
    rw [← hsame] at hq
    exact hq

/-- **Growth by one block**: a directory without a blank entry never grows by the one block
that the entry needs. -/
theorem growsByBlock_iff (h : NoBlank m oi) :
    GrowsByBlock m oi ↔
      freeBlocks m < extendNeeds m oi (ospfsSize2nblocks (oiSize m oi)) := by
  constructor
  · intro hg
    by_contra hroom
    obtain ⟨od, m', hr, hone⟩ := hg (Nat.not_lt.1 hroom)
    obtain ⟨-, hsize, -⟩ := h.cases hr
    have := hone.size
    have := oiSize_lt m oi
    omega
  · intro hroom hle
    omega

/-! ## A sample directory -/

/-- The type of an inode is no part of its file's order. -/
theorem WellFormed.set_ftype (h : V.WellFormed m oi n) (v : Nat) :
    V.WellFormed (m.set32 (oi + 4) v) oi n := by
  obtain ⟨hlo, hhi, -⟩ := h.inode.address
  have hfd := V.firstdata_ge
  have hfi := V.firstinob_ge
  have hfree (b : Nat) (hb : b < V.nblocks) : isFree (m.set32 (oi + 4) v) b = isFree m b :=
    isFree_congr (fun x _ hx => Mem.set32_of_ne (by omega)) hb
  have hptr (p : Place) : ptr (m.set32 (oi + 4) v) oi p = ptr m oi p := by
    refine ptr_congr (fun p hp => ?_) p
    obtain ⟨-, -, hin | hdata⟩ := h.points.slot_range h.inode hp
    · exact Mem.get32_set32_ne (by omega)
    · exact Mem.get32_set32_ne (by omega)
  have hsize : oiSize (m.set32 (oi + 4) v) oi = oiSize m oi := Mem.get32_set32_ne (by omega)
  have hlow (b : Nat) (hb : b < V.firstdata) : isFree (m.set32 (oi + 4) v) b = false := by
    rw [hfree b (Nat.lt_of_lt_of_le hb V.firstdata_le)]
    exact h.mounted.low b hb
  refine ⟨h.mounted.congr (fun x _ hx => Mem.set32_of_ne (by omega)) hlow, h.inode, h.within,
    hsize ▸ h.size, hsize ▸ h.blocks, fun p hp => ?_, fun p q hp hq he => ?_, fun p hp => ?_⟩
  · obtain ⟨hd, hf⟩ := h.used p hp
    rw [hptr]
    exact ⟨hd, (hfree _ hd.2).trans hf⟩
  · rw [hptr, hptr] at he
    exact h.once p q hp hq he
  · rw [hptr]
    exact h.beyond p hp

/-- Inode 1 is an empty directory; the bits of `f` say which blocks are free. -/
def sampleDir (f : Nat) : Mem := (sampleDisk 0 f).set32 3140 ftypeDir

theorem sampleDir_oiSize {f : Nat} (hf : f < 2 ^ 32) : oiSize (sampleDir f) 3136 = 0 :=
  (Mem.get32_set32_ne (by decide)).trans (sampleDisk_word (j := 784) (by decide) hf)

theorem sampleDir_noBlank {f : Nat} (hf : f < 2 ^ 32) : NoBlank (sampleDir f) 3136 := by
  intro k hk
  unfold direntries at hk
  rw [sampleDir_oiSize hf] at hk
  omega

theorem sampleDir_wellFormed {f : Nat} (hf : f < 2 ^ 32) :
    sampleVolume.WellFormed (sampleDir f) 3136 0 :=
  (sampleDisk_wellFormed (by decide) hf).set_ftype ftypeDir

theorem sampleDir_freeBlocks {f : Nat} (hf : f < 2 ^ 32) :
    freeBlocks (sampleDir f) = ((Finset.range 32).filter (f.testBit ·)).card := by
  rw [← sampleDisk_freeBlocks (Nat.zero_le 266) hf]
  refine freeBlocks_congr (sampleDisk_wellFormed (by decide) hf).mounted fun x _ hx => ?_
  have hx' : x < 3072 := hx
  exact Mem.set32_of_ne (by omega)

/-- A directory of one block with eight entries, on a full disk. -/
def eightEntries : Mem :=
  (List.range 8).foldl (fun m k => m.set32 (4096 + 128 * k) 1) ((sampleDisk 1 0).set32 3140 ftypeDir)

theorem eightEntries_free : freeBlocks eightEntries = 0 := by
  have hlow (l : List Nat) (m : Mem) {x : Nat} (hx : x < 4096) :
      l.foldl (fun m k => m.set32 (4096 + 128 * k) 1) m x = m x := by
    induction l generalizing m with
    | nil => rfl
    | cons k l ih => exact (ih _).trans (Mem.set32_of_ne (by omega))
  have hsame : freeBlocks eightEntries = freeBlocks (sampleDisk 1 0) := by
    refine freeBlocks_congr (sampleDisk_wellFormed (by decide) (by decide)).mounted fun x _ hx => ?_
    have hx' : x < 3072 := hx
    exact (hlow _ _ (by omega)).trans (Mem.set32_of_ne (by omega))
  rw [hsame, sampleDisk_freeBlocks (by decide) (by decide)]
  decide

/-- On a full disk nothing is asked of the call. -/
theorem fullDir_growsByBlock : direntries eightEntries 3136 = 8 ∧ NoBlank eightEntries 3136 ∧
    GrowsByBlock eightEntries 3136 := by
  have hn : direntries eightEntries 3136 = 8 := by decide +kernel
  have hused : ∀ k < 8, odIno eightEntries (ospfsInodeData eightEntries 3136 (128 * k)) ≠ 0 := by
    decide +kernel
  have hneeds : extendNeeds eightEntries 3136
      (ospfsSize2nblocks (oiSize eightEntries 3136)) = 1 := by decide +kernel
  have hblank : NoBlank eightEntries 3136 := fun k hk => hused k (hk.trans_eq hn)
  have hfree := eightEntries_free
  exact ⟨hn, hblank, (growsByBlock_iff hblank).2 (by omega)⟩

/-- An empty directory on a disk with three free blocks does not grow by one: the call fails. -/
theorem sampleDir_not_growsByBlock : sampleVolume.WellFormed (sampleDir 7) 3136 0 ∧
    oiFtype (sampleDir 7) 3136 = ftypeDir ∧ NoBlank (sampleDir 7) 3136 ∧
    extendNeeds (sampleDir 7) 3136 (ospfsSize2nblocks (oiSize (sampleDir 7) 3136)) = 1 ∧
    freeBlocks (sampleDir 7) = 3 ∧
    (createBlankDirentry (sampleDir 7) 3136).map Prod.fst = some (.error .eNoSpc) ∧
    ¬ GrowsByBlock (sampleDir 7) 3136 := by
  have hfree : freeBlocks (sampleDir 7) = 3 :=
    (sampleDir_freeBlocks (by decide)).trans (by decide)
  have hneeds : extendNeeds (sampleDir 7) 3136
      (ospfsSize2nblocks (oiSize (sampleDir 7) 3136)) = 1 := by decide +kernel
  have hk : ospfsSize2nblocks 8192 = 8 := by decide
  obtain ⟨m', hr⟩ := (sampleDir_wellFormed (f := 7) (by decide)).changeSize_refused
    8192 (by decide) (by omega)
  have hrun : (createBlankDirentry (sampleDir 7) 3136).map Prod.fst = some (.error .eNoSpc) := by
    rw [(sampleDir_noBlank (by decide)).createBlankDirentry, sampleDir_oiSize (by decide)]
    show (Option.map _ (changeSize _ _ 8192)).map _ = _
    rw [hr]
    rfl
  refine ⟨sampleDir_wellFormed (by decide), Mem.get32_set32, sampleDir_noBlank (by decide), hneeds,
    hfree, hrun, fun hg => ?_⟩
  obtain ⟨od, m', hr, -⟩ := hg (by omega)
  rw [hr] at hrun
  cases hrun

end Volume

end OsLabs.Ospfs
