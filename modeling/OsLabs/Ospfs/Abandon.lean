import OsLabs.Ospfs.Lengthen

/-!
# OSPFS: a growth that is given up

When `add_block` fails, `change_size` takes back as many blocks as it has added,
starting one index too high. So the first block that was added stays marked
allocated (`Pinned`). Where already the first `add_block` finds too few blocks,
nothing changes but the contents of a free block (`GivenBack`).
-/

namespace OsLabs.Ospfs

namespace Volume

variable {V : Volume} {m m₁ m' : Mem} {a b c n oi r x : Nat}

/-- Nothing is changed but the contents of a free block. -/
def GivenBack (V : Volume) (m m' : Mem) : Prop :=
  m' = m ∨ ∃ b, V.IsData b ∧ isFree m b = true ∧ m' = freeBlock (takeBlock m b) b

/-- Block `a` is allocated, and no place of the file but file block `n` can name it. -/
structure Pinned (V : Volume) (oi n a : Nat) (m : Mem) : Prop where
  data : V.IsData a
  taken : isFree m a = false
  only : ∀ p, ptr m oi p = a → p = .leaf n

theorem Pinned.lengthened (h : Pinned V oi n a m) (hl : Lengthened V oi c m m') :
    Pinned V oi n a m' := by
  have hfresh (d : Nat) (hd : isFree m d = true) : d ≠ a := by
    rintro rfl
    rw [h.taken] at hd
    cases hd
  refine ⟨h.data, ?_, fun p hp => ?_⟩
  · by_contra hf
    have := hl.free a h.data.2 (by simpa using hf)
    rw [h.taken] at this
    cases this
  · by_cases ht : p.IsTable
    · rcases hl.tables p ht with he | ⟨-, -, hf⟩
      · exact h.only p (he.symm.trans hp)
      · exact absurd hp (hfresh _ hf)
    · cases p with
      | leaf b =>
        by_cases hb : b = c
        · subst hb
          exact absurd hp (hfresh _ (hl.fresh (hp.trans_ne h.data.ne_zero)).1)
        · exact h.only _ ((hl.leaves b hb).symm.trans hp)
      | indirect => exact absurd trivial ht
      | indirect2 => exact absurd trivial ht
      | indir2 k => exact absurd trivial ht

theorem Pinned.failed (h : Pinned V oi n a m) (hf : Failed V oi c m m') : Pinned V oi n a m' := by
  refine ⟨h.data, (hf.bits a h.data.2).trans h.taken, fun p hp => ?_⟩
  rcases hf.ptrs p with he | ⟨-, -, hfree⟩
  · exact h.only p (he.symm.trans hp)
  · rw [hp, h.taken] at hfree
    cases hfree

theorem Pinned.trimmed (h : Pinned V oi n a m) (ht : Trimmed V oi c m m') (hc : n < c) :
    Pinned V oi n a m' := by
  refine ⟨h.data, ?_, fun p hp => ?_⟩
  · rw [ht.bits a h.data, h.taken]
    simp only [Bool.false_or, decide_eq_false_iff_not]
    intro hca
    have hleaf := h.only _ hca
    rw [Place.leaf.injEq] at hleaf
    omega
  · rcases ht.ptrs p with he | h0
    · exact h.only p (he.symm.trans hp)
    · exact absurd (hp.symm.trans h0) h.data.ne_zero

theorem Pinned.removeBlocks (h : Pinned V oi n a m) (hoi : V.Inode oi) (hh : Held V oi c m)
    (hc : c < maxfileblks) (hr : n + r ≤ c) : Pinned V oi n a (removeBlocks oi r m) := by
  induction r generalizing m c with
  | zero => exact h
  | succ r ih =>
    have htrim := hh.removeBlock hoi (by omega) hc.le (by omega)
    exact ih (h.trimmed htrim (by omega)) htrim.held (by omega) (by omega)

/-- **A growth that fails** keeps nothing, when the first `add_block` already finds too few
blocks; else a block is lost, or the inode has the number of a new doubly indirect block. -/
theorem Held.changeSize_fails (h : Held V oi n m) (ht : Taken m oi) (hoi : V.Inode oi)
    {newSize : Nat} (hk : n < ospfsSize2nblocks newSize) (hn : n ≤ maxfileblks) {e : Errno}
    (hr : changeSize m oi newSize = some (.error e, m')) :
    (freeBlocks m < blocksNeeded m oi n → GivenBack V m m') ∧
    (ospfsSize2nblocks newSize ≤ maxfileblks ∨ n + freeBlocks m < maxfileblks →
      ¬ freeBlocks m < blocksNeeded m oi n →
      (∃ a, V.IsData a ∧ isFree m a = true ∧ isFree m' a = false) ∨
        oiIndirect2 m' oi ≠ oiIndirect2 m oi) := by
  rcases changeSize_cases hr with ⟨e', hg, he'⟩ | ⟨_, _, -, -, he', -⟩
  case inr => cases he'
  cases he'
  obtain ⟨k, hk'⟩ : ∃ k, ospfsSize2nblocks newSize = k + 1 :=
    Nat.exists_eq_succ_of_ne_zero (by omega)
  have hsize : ospfsSize2nblocks (oiSize m oi) < ospfsSize2nblocks newSize := by
    rw [h.count]
    exact hk
  rw [hk'] at hg
  constructor
  · intro hroom
    rcases (h.along ht).addBlock_short_cases hoi h.count hn hroom with
      he | ⟨b, hb, hf, he⟩
    · rw [growLoop_full hsize he] at hg
      cases hg
      exact .inl rfl
    · rw [growLoop_full hsize he] at hg
      cases hg
      exact .inr ⟨b, hb, hf, rfl⟩
  · intro hlim hroom
    rcases h.addBlock ht hoi (by omega) with ⟨m₁, he, hl⟩ | ⟨m₁, he, -, hcause⟩
    · rw [growLoop_add hsize he] at hg
      obtain ⟨a, ha, hfree, htaken, honly⟩ := hl.gained
      have hless := hl.less
      obtain ⟨res, m₂, hg', hres⟩ := hl.held.growLoop newSize (r := 0 + 1)
        (P := fun c w => Pinned V oi n a w ∧ c + freeBlocks w ≤ n + freeBlocks m)
        (fun c w w' _ hP _ _ hl' => ⟨hP.1.lengthened hl', by have := hP.2; have := hl'.less; omega⟩)
        (fun c w hP hc => by have := hP.2; omega) hoi hl.taken
        ⟨⟨ha, htaken, honly⟩, by omega⟩ hk (show ospfsSize2nblocks newSize ≤ n + 1 + k by omega)
      have hsame : some (res, m₂) = some (.error e, m') := hg'.symm.trans hg
      cases hsame
      rcases hres with ⟨hok, -⟩ | ⟨-, c, w, w', hle, hlt, -, -, hP, hf, hm'⟩
      · cases hok
      have hc : c < maxfileblks := by
        have := hP.2
        omega
      have hend := (hP.1.failed hf).removeBlocks hoi hf.held hc (r := 0 + 1 + (c - (n + 1)))
        (by omega)
      rw [← hm'] at hend
      exact .inl ⟨a, ha, hfree, hend.taken⟩
    · rw [growLoop_full hsize he] at hg
      cases hg
      exact .inr (hcause.resolve_left hroom)

end Volume

end OsLabs.Ospfs
