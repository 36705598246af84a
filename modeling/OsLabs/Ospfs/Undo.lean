import OsLabs.Ospfs.Rollback

/-!
# OSPFS: a failed `add_block`

`add_block` allocates up to three blocks and undoes what it has done when one
of the allocations fails. The undo behind the third one frees the doubly
indirect block that was just entered, but leaves its number in the inode.
-/

namespace OsLabs.Ospfs

namespace Volume

variable {V : Volume} {m m' : Mem} {oi n : Nat} {e : Errno}

theorem Backed.rolledBack (h : Backed V oi m m') (hptr : ∀ p, ptr m' oi p = ptr m oi p) :
    RolledBack V oi m m' := ⟨h.size, hptr, h.bits⟩

theorem WellFormed.addUnder_error (h : V.WellFormed m oi n) (hn : 266 < n)
    (hr : addBlock m oi = (.error e, m')) : RolledBack V oi m m' := by
  have hwithin := h.within
  rw [addBlock_eq, h.size2nblocks] at hr
  simp only at hr
  rw [if_neg (by omega)] at hr
  obtain ⟨he, -⟩ | ⟨b, he, hcl, hbd, hbf, h₁, -, hptr, -⟩ := h.sound.along.allocate h.inode
  · rw [he] at hr
    cases hr
    exact ⟨rfl, fun _ => rfl, fun _ _ => rfl⟩
  rw [he] at hr
  simp only [hbd.ne_zero, if_false] at hr
  rw [hcl, if_neg (by omega), if_neg (by omega)] at hr
  have hD : oiIndirect2 (takeBlock m b) oi ≠ 0 :=
    (hptr .indirect2).trans_ne (h.ptr_ne_zero (p := .indirect2).2 hn)
  obtain ⟨hback, hptr'⟩ := h.sound.along.giveBack h.inode hbd hbf
  unfold addIndirect2 at hr
  rw [if_neg hD] at hr
  unfold addUnder at hr
  simp only at hr
  split at hr
  · obtain ⟨he', -⟩ | ⟨t, he', -, htd, -⟩ := h₁.allocate h.inode
    · -- the block for the table is missing: the data block is given back
      rw [he'] at hr
      cases hr
      exact hback.rolledBack hptr'
    · rw [he'] at hr
      simp only [htd.ne_zero, if_false] at hr
      cases hr
  · cases hr

/-- **A failed `add_block` changes nothing** iff it is not the third allocation
that fails: the file has 266 blocks, so that it needs three, and two are free. -/
theorem addBlock_restores_iff (h : V.WellFormed m oi n) :
    (∀ e m', addBlock m oi = (.error e, m') → RolledBack V oi m m') ↔
      ¬ (n = 266 ∧ freeBlocks m = 2) := by
  constructor
  · rintro hall ⟨rfl, htwo⟩
    have hD : oiIndirect2 m oi = 0 := h.beyond .indirect2 (Nat.lt_irrefl 266)
    obtain ⟨m', he, -, hD'⟩ :=
      h.sound.toOpen.addBlock_two h.inode (Nat.le_refl 266) (by decide) hD htwo
    have hsame : oiIndirect2 m' oi = oiIndirect2 m oi := (hall _ m' he).pointers .indirect2
    exact hD' (hsame.trans hD)
  · intro hgood e m' he
    rcases Nat.lt_or_ge 266 n with hgt | hle
    · exact h.addUnder_error hgt he
    rcases Nat.lt_or_ge (freeBlocks m) (blocksNeeded m oi n) with hroom | hroom
    · obtain ⟨m₁, he₁, hback, hptr⟩ :=
        h.sound.along.addBlock_short h.inode h.size2nblocks h.within hroom
      rw [he₁] at he
      cases he
      exact hback.rolledBack hptr
    · have hmax : n < maxfileblks := Nat.lt_of_le_of_lt hle (by decide)
      rcases h.sound.toOpen.addBlock h.inode hmax hroom with ⟨a, m₁, he₁, -⟩ | ⟨hge, -, htwo, -⟩
      · rw [he₁] at he
        cases he
      · exact absurd ⟨by omega, htwo⟩ hgood

theorem sampleDisk_addBlock_short {f : Nat} (hn : n ≤ 266) (hf : f < 2 ^ 32)
    (hfew : ((Finset.range 32).filter (f.testBit ·)).card <
      blocksNeeded (sampleDisk n f) 3136 n) :
    ∃ m', addBlock (sampleDisk n f) 3136 = (.error .eNoSpc, m') := by
  have hdisk : sampleVolume.WellFormed (sampleDisk n f) 3136 n := sampleDisk_wellFormed hn hf
  rw [← sampleDisk_freeBlocks hn hf] at hfew
  obtain ⟨m', he, -⟩ :=
    hdisk.sound.along.addBlock_short hdisk.inode hdisk.size2nblocks hdisk.within hfew
  exact ⟨m', he⟩

/-- The first allocation fails, or the second one, for the indirect block or the
doubly indirect one. -/
theorem fullDisk_restored :
    (∃ m', addBlock (sampleDisk 0 0) 3136 = (.error .eNoSpc, m') ∧
      RolledBack sampleVolume 3136 (sampleDisk 0 0) m') ∧
    (∃ m', addBlock (sampleDisk 10 1) 3136 = (.error .eNoSpc, m') ∧
      RolledBack sampleVolume 3136 (sampleDisk 10 1) m') ∧
    (∃ m', addBlock (sampleDisk 266 1) 3136 = (.error .eNoSpc, m') ∧
      RolledBack sampleVolume 3136 (sampleDisk 266 1) m') := by
  have hfree : freeBlocks (sampleDisk 266 1) = 1 :=
    (sampleDisk_freeBlocks (by decide) (by decide)).trans (by decide)
  obtain ⟨m₁, he₁⟩ := sampleDisk_addBlock_short (n := 0) (f := 0) (by decide) (by decide) (by decide)
  obtain ⟨m₂, he₂⟩ :=
    sampleDisk_addBlock_short (n := 10) (f := 1) (by decide) (by decide) (by decide +kernel)
  obtain ⟨m₃, he₃⟩ :=
    sampleDisk_addBlock_short (n := 266) (f := 1) (by decide) (by decide) (by decide +kernel)
  have hone := addBlock_restores_iff (sampleDisk_wellFormed (n := 0) (f := 0) (by decide) (by decide))
  have hten := addBlock_restores_iff (sampleDisk_wellFormed (n := 10) (f := 1) (by decide) (by decide))
  have hlast :=
    addBlock_restores_iff (sampleDisk_wellFormed (n := 266) (f := 1) (by decide) (by decide))
  refine ⟨⟨m₁, he₁, hone.2 ?_ _ _ he₁⟩, ⟨m₂, he₂, hten.2 ?_ _ _ he₂⟩,
    ⟨m₃, he₃, hlast.2 ?_ _ _ he₃⟩⟩
  · exact fun h => absurd h.1 (by decide)
  · exact fun h => absurd h.1 (by decide)
  · exact fun h => by
      rw [hfree] at h
      exact absurd h.2 (by decide)

/-- A file of 266 blocks on a disk with two free blocks: `add_block` fails, and the
inode names a free block as its doubly indirect block. -/
theorem block266_left_behind : sampleVolume.WellFormed (sampleDisk 266 3) 3136 266 ∧
    oiIndirect2 (sampleDisk 266 3) 3136 = 0 ∧
    (addBlock (sampleDisk 266 3) 3136).1 = .error .eNoSpc ∧
    oiIndirect2 (addBlock (sampleDisk 266 3) 3136).2 3136 = 321 ∧
    isFree (addBlock (sampleDisk 266 3) 3136).2 321 = true := by
  refine ⟨sampleDisk_wellFormed (by decide) (by decide), ?_⟩
  decide +kernel

end Volume

end OsLabs.Ospfs
