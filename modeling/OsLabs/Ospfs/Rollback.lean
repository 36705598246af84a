import OsLabs.Ospfs.Mapped

/-!
# OSPFS: giving up on a growth

When `add_block` fails, `change_size` calls `remove_block` once for each block
it has added. `remove_block` works on the index behind the last block, so the
first of the added blocks is never given back: the state before the call is
restored only where the first `add_block` fails, and not where that one leaves
the number of a new doubly indirect block in the inode.
-/

namespace OsLabs.Ospfs

namespace Volume

variable {V : Volume} {m m₁ m₂ m' : Mem} {oi a c i n r : Nat}

structure RolledBack (V : Volume) (oi : Nat) (m m' : Mem) : Prop where
  size : oiSize m' oi = oiSize m oi
  pointers : ∀ p, ptr m' oi p = ptr m oi p
  bitmap : ∀ b < V.nblocks, isFree m' b = isFree m b

theorem WellFormed.changeSize_short (h : V.WellFormed m oi n) (newSize : Nat)
    (hk : n < ospfsSize2nblocks newSize) (hroom : freeBlocks m < blocksNeeded m oi n) :
    ∃ m', changeSize m oi newSize = some (.error .eNoSpc, m') ∧ RolledBack V oi m m' := by
  obtain ⟨m', he, hb, hptr⟩ :=
    h.sound.along.addBlock_short h.inode h.size2nblocks h.within hroom
  have hgrow : growLoop oi newSize (ospfsSize2nblocks newSize) 0 m = some (.error .eNoSpc, m') := by
    obtain ⟨k, hk'⟩ : ∃ k, ospfsSize2nblocks newSize = k + 1 :=
      Nat.exists_eq_succ_of_ne_zero (by omega)
    rw [hk', growLoop_full (by rw [h.size2nblocks]; exact hk) he]
    rfl
  exact ⟨m', changeSize_error hgrow, hb.size, hptr, hb.bits⟩

theorem WellFormed.changeSize_refused (h : V.WellFormed m oi n) (newSize : Nat)
    (hmax : ospfsSize2nblocks newSize ≤ maxfileblks)
    (hroom : n + freeBlocks m < ospfsSize2nblocks newSize) :
    ∃ m', changeSize m oi newSize = some (.error .eNoSpc, m') := by
  obtain ⟨res, m', hg, hres⟩ := h.sound.growLoop newSize (r := 0)
    (P := fun c m' => c + freeBlocks m' ≤ n + freeBlocks m)
    (fun c a m₁ m₂ _ hP hs he => by have := he.freeBlocks_lt hs.mounted; omega)
    (fun c m' _ hc => Nat.lt_of_lt_of_le hc hmax) h.inode (Nat.le_refl _) (by omega)
    (Nat.le_add_left (ospfsSize2nblocks newSize) n)
  rcases hres with ⟨-, -, hP⟩ | ⟨rfl, -⟩
  · omega
  exact ⟨m', changeSize_error hg⟩

/-! ## After the first block -/

/-- Block `a`, added as file block `i`, while the file grows on. -/
structure Gained (V : Volume) (oi i a lim c : Nat) (m : Mem) : Prop where
  taken : V.Allocated m a
  mine : ∀ p, ptr m oi p = a → p = .leaf i
  deep : 266 < c → oiIndirect2 m oi ≠ 0
  room : c + freeBlocks m ≤ lim
  boot : BootZero m

theorem Gained.extend {lim a' : Nat} (h : Gained V oi i a lim c m) (hs : Sound V oi c m)
    (he : Extended V oi c a' m m') : Gained V oi i a lim (c + 1) m' := by
  have hroom := h.room
  have hlt := he.freeBlocks_lt hs.mounted
  refine ⟨he.grew.allocated h.taken, fun p hp => ?_, fun hc => he.deep (by omega), by omega,
    fun x hx => ?_⟩
  · rcases he.grew.ptrs p with hsame | ⟨-, -, hf⟩
    · exact h.mine p (hsame.symm.trans hp)
    · rw [hp, h.taken.2] at hf
      cases hf
  · rw [he.grew.super x (by omega)]
    exact h.boot x hx

theorem Gained.backed {lim : Nat} (h : Gained V oi i a lim c m) (hs : Sound V oi c m)
    (hb : Backed V oi m m') : Keeps V oi i a c m' ∧ BootZero m' := by
  refine ⟨⟨?_, ?_, fun p h0 => ?_, ⟨h.taken.1, ?_⟩, fun p hp => ?_, fun hc => ?_⟩, fun x hx => ?_⟩
  · rw [← hs.mounted.firstinob]
    exact Mem.get32_congr fun x _ hx => hb.super x (by omega)
  · rw [hb.size]
    exact hs.count
  · rcases hb.ptrs p with he | ⟨-, hd, -⟩
    · rw [he] at h0 ⊢
      exact (hs.owns.ok p h0).1
    · exact hd
  · rw [hb.bits a h.taken.1.2]
    exact h.taken.2
  · rcases hb.ptrs p with he | ⟨-, -, hf⟩
    · exact h.mine p (he.symm.trans hp)
    · rw [hp, h.taken.2] at hf
      cases hf
  · rcases hb.ptrs .indirect2 with he | ⟨-, hd, -⟩
    · exact Eq.trans_ne (show oiIndirect2 m' oi = oiIndirect2 m oi from he) (h.deep hc)
    · exact hd.ne_zero
  · rw [hb.super x (by omega)]
    exact h.boot x hx

/-- **The rollback**: no `remove_block` of it reaches file block `i`. -/
theorem Keeps.removeBlocks (h : Keeps V oi i a c m) (hoi : V.Inode oi) (hboot : BootZero m)
    (hc : c < maxfileblks) (hr : i + r ≤ c) : Keeps V oi i a (c - r) (removeBlocks oi r m) := by
  induction r generalizing m c with
  | zero => exact h
  | succ r ih =>
    rcases h.removeBlock hoi (by omega) (Nat.le_of_lt hc) (fun he => by omega) with
      hk | ⟨x, hx, h0, -⟩
    · have hsub : c - (r + 1) = c - 1 - r := by omega
      rw [hsub]
      exact ih hk (fun x hx => removeBlock_boot hoi hx (hboot x hx)) (by omega) (by omega)
    · exact absurd (hboot x hx) h0

/-- With room for the first two allocations of the first `add_block`, nothing
restores the state before the call. -/
theorem WellFormed.not_rolledBack (h : V.WellFormed m oi n) {newSize : Nat}
    (hroom : blocksNeeded m oi n ≤ freeBlocks m) (hboot : BootZero m)
    (hlim : ospfsSize2nblocks newSize ≤ maxfileblks ∨ n + freeBlocks m < maxfileblks)
    (hr : changeSize m oi newSize = some (.error .eNoSpc, m')) : ¬ RolledBack V oi m m' := by
  intro hback
  have hg := growLoop_of_changeSize hr
  have hk : n < ospfsSize2nblocks newSize := by
    by_contra hge
    rw [growLoop_done (by rw [h.size2nblocks]; exact Nat.le_of_not_lt hge)] at hg
    cases hg
  obtain ⟨k, hk'⟩ : ∃ k, ospfsSize2nblocks newSize = k + 1 :=
    Nat.exists_eq_succ_of_ne_zero (by omega)
  have hn : n < maxfileblks := by omega
  have hsize : ospfsSize2nblocks (oiSize m oi) < ospfsSize2nblocks newSize := by
    rw [h.size2nblocks]
    exact hk
  rw [hk'] at hg
  rcases h.sound.toOpen.addBlock h.inode hn hroom with
    ⟨a, m₁, he, hext⟩ | ⟨-, hD, -, m₂, he, -, hD', -⟩
  · rw [growLoop_add hsize he] at hg
    have hs := hext.sound h.sound hn
    have hgain : Gained V oi n a (n + freeBlocks m) (n + 1) m₁ := by
      have hlt := hext.freeBlocks_lt h.mounted
      refine ⟨hext.taken, hext.leaf, fun hc => hext.deep (by omega), by omega, fun x hx => ?_⟩
      rw [hext.grew.super x (by omega)]
      exact hboot x hx
    obtain ⟨res, m₂, hg', hres⟩ :=
      hs.growLoop _ (P := Gained V oi n a (n + freeBlocks m)) (r := 0 + 1)
      (fun c a' m m' _ hP hs he => hP.extend hs he)
      (fun c m hP hc => by have := hP.room; omega) h.inode hgain hk
      (show ospfsSize2nblocks newSize ≤ n + 1 + k by omega)
    have hsame : some (res, m₂) = some (.error .eNoSpc, m') := hg'.symm.trans hg
    cases hsame
    rcases hres with ⟨hok, -⟩ | ⟨-, c, m₃, m₄, hle, hlt, hs₃, hP, -, hb, hm'⟩
    · cases hok
    obtain ⟨hkeeps, hboot₄⟩ := hP.backed hs₃ hb
    have hc : c < maxfileblks := by
      have := hP.room
      omega
    have hend := hkeeps.removeBlocks h.inode hboot₄ hc (r := 0 + 1 + (c - (n + 1))) (by omega)
    rw [← hm'] at hend
    have hbit := hback.bitmap a hend.taken.1.2
    rw [hend.taken.2, hext.fresh] at hbit
    cases hbit
  · rw [growLoop_full hsize he] at hg
    cases hg
    have hsame : oiIndirect2 m₂ oi = oiIndirect2 m oi := hback.pointers .indirect2
    exact hD' (hsame.trans hD)

/-- **Running out of space restores the file** iff the first `add_block` already
finds too few free blocks for the data block and its pointer block. (The boot
block is empty on a formatted disk; behind `maxfileblks` blocks `add_block` runs
off the doubly indirect block.) -/
theorem changeSize_rolledBack_iff (h : V.WellFormed m oi n) {newSize : Nat}
    (hr : changeSize m oi newSize = some (.error .eNoSpc, m')) :
    (freeBlocks m < blocksNeeded m oi n → RolledBack V oi m m') ∧
    (BootZero m → ospfsSize2nblocks newSize ≤ maxfileblks ∨ n + freeBlocks m < maxfileblks →
      RolledBack V oi m m' → freeBlocks m < blocksNeeded m oi n) := by
  constructor
  · intro hroom
    have hk : n < ospfsSize2nblocks newSize := by
      by_contra hge
      have hg := growLoop_of_changeSize hr
      rw [growLoop_done (by rw [h.size2nblocks]; exact Nat.le_of_not_lt hge)] at hg
      cases hg
    obtain ⟨m₁, hr₁, hback⟩ := h.changeSize_short _ hk hroom
    rw [hr₁] at hr
    cases hr
    exact hback
  · intro hboot hlim hback
    by_contra hroom
    exact h.not_rolledBack (by omega) hboot hlim hr hback

theorem fullDisk_short : freeBlocks (sampleDisk 0 0) < blocksNeeded (sampleDisk 0 0) 3136 0 := by
  have hfree : freeBlocks (sampleDisk 0 0) = 0 :=
    (sampleDisk_freeBlocks (by decide) (by decide)).trans (by decide)
  rw [hfree]
  decide

theorem fullDisk_rolledBack :
    ∃ m', changeSize (sampleDisk 0 0) 3136 1024 = some (.error .eNoSpc, m') ∧
    RolledBack sampleVolume 3136 (sampleDisk 0 0) m' := by
  have hwf : sampleVolume.WellFormed (sampleDisk 0 0) 3136 0 :=
    sampleDisk_wellFormed (by decide) (by decide)
  obtain ⟨m', hr, -⟩ := hwf.changeSize_short 1024 (by decide) fullDisk_short
  exact ⟨m', hr, (changeSize_rolledBack_iff hwf hr).1 fullDisk_short⟩

/-- An empty file is to have two blocks on a disk with one free block: the call
fails, and the block is lost. -/
theorem oneBlock_not_rolledBack : sampleVolume.WellFormed (sampleDisk 0 1) 3136 0 ∧
    ∃ m', changeSize (sampleDisk 0 1) 3136 2048 = some (.error .eNoSpc, m') ∧
      ¬ RolledBack sampleVolume 3136 (sampleDisk 0 1) m' := by
  have hwf : sampleVolume.WellFormed (sampleDisk 0 1) 3136 0 :=
    sampleDisk_wellFormed (by decide) (by decide)
  have hfree : freeBlocks (sampleDisk 0 1) = 1 :=
    (sampleDisk_freeBlocks (by decide) (by decide)).trans (by decide)
  have hneed : blocksNeeded (sampleDisk 0 1) 3136 0 = 1 := by decide
  have hk : ospfsSize2nblocks 2048 = 2 := by decide
  obtain ⟨m', hr⟩ := hwf.changeSize_refused 2048 (by decide) (by omega)
  exact ⟨hwf, m', hr, hwf.not_rolledBack (by omega) (fun x hx => sampleDisk_boot hx)
    (.inl (by decide)) hr⟩

end Volume

end OsLabs.Ospfs
