import OsLabs.Ospfs.Allocator
import OsLabs.Ospfs.Resize

/-!
# OSPFS: the stores of `add_block` and `remove_block`

Both set `oi_size` in their last store. `AddClear` and `RemoveClear` say of the disk in front
of the call that no store before it hits `oi_size`: then the call moves the size by one block,
in 32 bits, and the block count by exactly one, also where the size passes the end of the range.
-/

namespace OsLabs.Ospfs

/-! ## Stores beside `oi_size` -/

/-- The `k` bytes from address `a` are none of those of `oi_size`. -/
def Misses (oi a k : Nat) : Prop := a + k ≤ oi ∨ oi + 4 ≤ a

instance (oi a k : Nat) : Decidable (Misses oi a k) := inferInstanceAs (Decidable (_ ∨ _))

section

variable (m : Mem) (oi : Nat)

/-- The entry of the doubly indirect block for file block `n`. -/
def tableSlot (n : Nat) : Nat := ospfsBlock (oiIndirect2 m oi) + 4 * (indirIndex n).toNat

def leafSlot (n : Nat) : Nat :=
  if n < 10 then oi + 16 + 4 * n
  else if n < 266 then ospfsBlock (oiIndirect m oi) + 4 * directIndex n
  else ospfsBlock (m.get32 (tableSlot m oi n)) + 4 * directIndex n

def bitmapEnd : Nat := 2048 + 4 * ((osNblocks m + 31) / 32)

/-- `add_block` stores nowhere in `oi_size`: the bitmap ends in front of the inode, no free
block holds it, and the pointer is not entered there. -/
structure AddClear : Prop where
  bitmap : bitmapEnd m ≤ oi
  free : ∀ b ∈ freeSet m, Misses oi (ospfsBlock b) 1024
  indirect : let n := ospfsSize2nblocks (oiSize m oi)
    10 ≤ n → n < 266 → oiIndirect m oi ≠ 0 → Misses oi (leafSlot m oi n) 4
  indirect2 : let n := ospfsSize2nblocks (oiSize m oi)
    266 ≤ n → n ≤ maxfileblks → if oiIndirect2 m oi = 0 then n < maxfileblks
      else (tableSlot m oi n + 4 ≤ 2048 ∨ bitmapEnd m ≤ tableSlot m oi n) ∧
        (m.get32 (tableSlot m oi n) ≠ 0 → Misses oi (leafSlot m oi n) 4)

/-- `remove_block` stores nowhere in `oi_size` before it sets it: not the pointer, not the entry of
the doubly indirect block, not the bit of the block. -/
structure RemoveClear : Prop where
  leaf : let n := ospfsSize2nblocks (oiSize m oi)
    Misses oi (leafSlot m oi n) 4
  table : let n := ospfsSize2nblocks (oiSize m oi)
    266 ≤ n → directIndex n = 0 → Misses oi (tableSlot m oi n) 4
  bit : let v := m.get32 (leafSlot m oi (ospfsSize2nblocks (oiSize m oi)))
    osFirstinob m ≤ v → isFree m v = false → Misses oi (2048 + 4 * (v / 32)) 4

end

variable {m m' m₁ : Mem} {oi ino a b c n v k : Nat}

theorem oiSize_set32 (h : Misses oi a 4) : oiSize (m.set32 a v) oi = oiSize m oi :=
  Mem.get32_set32_ne h

theorem ospfsBlock_mod (b : Nat) : ospfsBlock b % 1024 = 0 := by
  unfold ospfsBlock
  omega

theorem oiSize_clearBlock (h : Misses oi (ospfsBlock b) 1024) :
    oiSize (clearBlock m b) oi = oiSize m oi := by
  refine Mem.get32_congr fun x hx hx' => Mem.fill_of_ne ?_
  unfold Misses at h
  omega

theorem oiSize_freeBlock (h : osFirstinob m ≤ v → isFree m v = false →
    Misses oi (2048 + 4 * (v / 32)) 4) : oiSize (freeBlock m v) oi = oiSize m oi := by
  have h2 : ospfsBlock 2 = 2048 := rfl
  unfold freeBlock
  rw [h2]
  split
  · rfl
  · split
    · rfl
    · next hge hf =>
      exact oiSize_set32 (h (Nat.le_of_not_lt hge) (Bool.eq_false_iff.2 hf))

/-! ## `remove_block` -/

theorem leafSlot_direct (h : n < 10) : leafSlot m oi n = oi + 16 + 4 * n := if_pos h

theorem leafSlot_indirect (h : 10 ≤ n) (h' : n < 266) :
    leafSlot m oi n = ospfsBlock (oiIndirect m oi) + 4 * directIndex n := by
  unfold leafSlot
  rw [if_neg (by omega), if_pos h']

theorem leafSlot_indirect2 (h : 266 ≤ n) :
    leafSlot m oi n = ospfsBlock (m.get32 (tableSlot m oi n)) + 4 * directIndex n := by
  unfold leafSlot
  rw [if_neg (by omega), if_neg (by omega)]

/-- What every branch of `remove_block` does first. -/
def dropLeaf (m : Mem) (oi n : Nat) : Mem :=
  (freeBlock m (m.get32 (leafSlot m oi n))).set32 (leafSlot m oi n) 0

theorem removeBlock_eq (m : Mem) (oi : Nat) : removeBlock m oi =
    let n := ospfsSize2nblocks (oiSize m oi)
    let m' := dropLeaf m oi n
    let m' :=
      if 266 ≤ n ∧ directIndex n = 0 then
        let m' := m'.set32 (tableSlot m oi n) 0
        if (indirIndex n).toNat = 0 then m'.set32 (oi + 60) 0 else m'
      else if 10 ≤ n ∧ n < 266 ∧ directIndex n = 0 then m'.set32 (oi + 56) 0
      else m'
    m'.set32 oi (oiSize m' oi + (2 ^ 32 - 1024)) := by
  unfold removeBlock dropLeaf
  generalize ospfsSize2nblocks (oiSize m oi) = n
  dsimp only
  by_cases h10 : n < 10
  · have h2 : indir2Index n ≠ 0 := by
      unfold indir2Index
      rw [if_pos (by omega)]
      decide
    have h1 : indirIndex n ≠ 0 := by
      rw [indirIndex_direct h10]
      decide
    rw [if_neg h2, if_neg h1, if_neg (by omega), if_neg (by omega), leafSlot_direct h10]
    unfold removeDirect oiDirect
    rw [directIndex_direct h10]
  · by_cases h266 : n < 266
    · have h2 : indir2Index n ≠ 0 := by
        unfold indir2Index
        rw [if_pos (by omega)]
        decide
      rw [if_neg h2, if_pos (indirIndex_indirect (by omega) h266), if_neg (by omega),
        leafSlot_indirect (by omega) h266]
      unfold removeIndirect
      dsimp only
      by_cases hd : directIndex n = 0
      · rw [if_pos hd, if_pos ⟨by omega, h266, hd⟩]
      · rw [if_neg hd, if_neg fun h => hd h.2.2]
    · have h2 : indir2Index n = 0 := if_neg (by omega)
      rw [if_pos h2, leafSlot_indirect2 (by omega)]
      unfold removeIndirect2 tableSlot
      dsimp only
      by_cases hd : directIndex n = 0
      · have hboth : 266 ≤ n ∧ directIndex n = 0 := ⟨by omega, hd⟩
        rw [if_pos hd, if_pos hboth]
      · rw [if_neg hd, if_neg fun h => hd h.2, if_neg fun h => hd h.2.2]

theorem RemoveClear.removeBlock (h : RemoveClear m oi) :
    oiSize (removeBlock m oi) oi = (oiSize m oi + (2 ^ 32 - 1024)) % 2 ^ 32 := by
  obtain ⟨hleaf, htable, hbit⟩ := h
  rw [removeBlock_eq]
  dsimp only at *
  generalize ospfsSize2nblocks (oiSize m oi) = n at *
  have hdrop : oiSize (dropLeaf m oi n) oi = oiSize m oi :=
    (oiSize_set32 hleaf).trans (oiSize_freeBlock hbit)
  refine Mem.get32_set32.trans ?_
  congr 2
  split
  · next hd =>
    have htab := oiSize_set32 (m := dropLeaf m oi n) (v := 0) (htable hd.1 hd.2)
    split
    · exact (oiSize_set32 (.inr (by omega))).trans (htab.trans hdrop)
    · exact htab.trans hdrop
  · split
    · exact (oiSize_set32 (.inr (by omega))).trans hdrop
    · exact hdrop

/-! ## `add_block` -/

theorem get32_clearBlock (ha : a % 4 = 0) :
    (clearBlock m b).get32 a = m.get32 a ∨ (clearBlock m b).get32 a = 0 := by
  have hb := ospfsBlock_mod b
  by_cases hin : ospfsBlock b ≤ a ∧ a < ospfsBlock b + 1024
  · exact .inr (Mem.get32_of_zero fun i hi => Mem.fill_of_mem (by omega) (by omega))
  · exact .inl (Mem.get32_congr fun x hx hx' => Mem.fill_of_ne (by omega))

theorem get32_takeBlock (ha : a % 4 = 0) :
    (takeBlock m b).get32 a = (bitvectorClear m 2048 b).get32 a ∨ (takeBlock m b).get32 a = 0 :=
  get32_clearBlock ha

theorem osNblocks_takeBlock : osNblocks (takeBlock m b) ≤ osNblocks m := by
  unfold osNblocks
  rcases get32_takeBlock (m := m) (b := b) (a := 1028) rfl with h | h
  · rw [h, super_clear b (by decide)]
  · rw [h]
    exact Nat.zero_le _

theorem freeSet_takeBlock (h : c ∈ freeSet (takeBlock m b)) : c ∈ freeSet m := by
  have hle := osNblocks_takeBlock (m := m) (b := b)
  rw [mem_freeSet] at h ⊢
  obtain ⟨h2, hlt, hf⟩ := h
  refine ⟨h2, by omega, ?_⟩
  rw [isFree_eq] at hf
  rcases get32_takeBlock (m := m) (b := b) (a := 2048 + 4 * (c / 32)) (by omega) with hw | hw
  · rw [hw, ← isFree_eq, isFree_clear, Bool.and_eq_true] at hf
    exact hf.1
  · rw [hw, Nat.zero_testBit] at hf
    cases hf

/-- A pointer of the inode is stored behind the bitmap. -/
theorem freeSet_set32 (ha : bitmapEnd m ≤ a) (h : c ∈ freeSet (m.set32 a v)) : c ∈ freeSet m := by
  unfold bitmapEnd at ha
  have hn : osNblocks (m.set32 a v) = osNblocks m := Mem.get32_set32_ne (by omega)
  rw [mem_freeSet, hn] at h
  obtain ⟨h2, hlt, hf⟩ := h
  rw [isFree_eq, Mem.get32_set32_ne (by omega), ← isFree_eq] at hf
  exact mem_freeSet.2 ⟨h2, hlt, hf⟩

/-- What `add_block` has made of the disk `m` so far. -/
structure Taking (m : Mem) (oi : Nat) (m₁ : Mem) : Prop where
  size : oiSize m₁ oi = oiSize m oi
  nblocks : osNblocks m₁ ≤ osNblocks m
  free : ∀ b ∈ freeSet m₁, b ∈ freeSet m

theorem AddClear.bit (h : AddClear m oi) (hb : b ∈ freeSet m) : 2048 + 4 * (b / 32) + 4 ≤ oi := by
  have hend := h.bitmap
  have hlt := (mem_freeSet.1 hb).2.1
  unfold bitmapEnd at hend
  omega

theorem AddClear.oiSize_freeBlock (h : AddClear m oi) (hb : b ∈ freeSet m) :
    oiSize (freeBlock m₁ b) oi = oiSize m₁ oi :=
  Ospfs.oiSize_freeBlock fun _ _ => .inl (h.bit hb)

theorem AddClear.refl (_ : AddClear m oi) : Taking m oi m := ⟨rfl, Nat.le_refl _, fun _ h => h⟩

theorem Taking.take (h : Taking m oi m₁) (hc : AddClear m oi) (hb : b ∈ freeSet m₁) :
    Taking m oi (takeBlock m₁ b) := by
  have hbm := h.free b hb
  refine ⟨?_, Nat.le_trans osNblocks_takeBlock h.nblocks,
    fun c hcf => h.free c (freeSet_takeBlock hcf)⟩
  calc oiSize (takeBlock m₁ b) oi
      = oiSize (bitvectorClear m₁ 2048 b) oi := oiSize_clearBlock (hc.free b hbm)
    _ = oiSize m₁ oi := oiSize_set32 (.inl (hc.bit hbm))
    _ = oiSize m oi := h.size

theorem Taking.setField (h : Taking m oi m₁) (hc : AddClear m oi) (ha : oi + 4 ≤ a) :
    Taking m oi (m₁.set32 a v) := by
  have hend := hc.bitmap
  have hle := h.nblocks
  unfold bitmapEnd at hend
  refine ⟨(oiSize_set32 (.inr ha)).trans h.size, ?_, fun c hcf => h.free c (freeSet_set32 ?_ hcf)⟩
  · have hn : osNblocks (m₁.set32 a v) = osNblocks m₁ := Mem.get32_set32_ne (by omega)
    rw [hn]
    exact hle
  · unfold bitmapEnd
    omega

theorem AddClear.take_field (h : AddClear m oi) (halign : oi % 64 = 0) (hb : b ∈ freeSet m)
    (ha : oi ≤ a) (ha' : a + 4 ≤ oi + 64) : (takeBlock m b).get32 a = m.get32 a := by
  have hmiss := h.free b hb
  have hbit := h.bit hb
  have hblk := ospfsBlock_mod b
  unfold Misses at hmiss
  refine Mem.get32_congr fun x hx hx' => ?_
  refine (Mem.fill_of_ne (by omega)).trans ?_
  exact Mem.set32_of_ne (by omega)

def KeepsSize (m : Mem) (oi : Nat) (r : Ret × Mem) : Prop :=
  (r.1 = .ok () ∨ r.1 = .error .eNoSpc) ∧ oiSize r.2 oi = oiSize m oi

theorem AddClear.slot_misses (h : AddClear m oi) (hb : b ∈ freeSet m) (hk : k < 256) :
    Misses oi (ospfsBlock b + 4 * k) 4 := by
  have := h.free b hb
  unfold Misses at *
  omega

theorem mem_freeSet_ne_zero (hb : b ∈ freeSet m) : b ≠ 0 := by
  have := (mem_freeSet.1 hb).1
  omega

theorem mem_freeSet_lt (hb : b ∈ freeSet m) : b < 2 ^ 32 :=
  Nat.lt_trans (mem_freeSet.1 hb).2.1 Mem.get32_lt

theorem AddClear.addIndirect (h : AddClear m oi) (halign : oi % 64 = 0) (hb : b ∈ freeSet m)
    (hn : 10 ≤ n) (hslot : oiIndirect m oi ≠ 0 →
      Misses oi (ospfsBlock (oiIndirect m oi) + 4 * directIndex n) 4) :
    KeepsSize m oi (addIndirect (takeBlock m b) oi n b) := by
  have ht := h.refl.take h hb
  have hind : oiIndirect (takeBlock m b) oi = oiIndirect m oi :=
    h.take_field halign hb (by omega) (by omega)
  unfold Ospfs.addIndirect
  rw [hind]
  by_cases h0 : oiIndirect m oi = 0
  · rw [if_pos h0]
    obtain ⟨-, he⟩ | ⟨c, hc, -, he⟩ := allocateBlock_cases (takeBlock m b)
    · rw [he]
      dsimp only
      rw [if_pos rfl]
      exact ⟨.inr rfl, (h.oiSize_freeBlock hb).trans ht.size⟩
    · have hcm := ht.free c hc
      have htc := (ht.take h hc).setField (a := oi + 56) (v := c) h (by omega)
      have hset : oiIndirect ((takeBlock (takeBlock m b) c).set32 (oi + 56) c) oi = c :=
        Mem.get32_set32_of_lt (mem_freeSet_lt hcm)
      rw [he]
      dsimp only
      rw [if_neg (mem_freeSet_ne_zero hcm)]
      refine ⟨.inl rfl, (oiSize_set32 ?_).trans htc.size⟩
      show Misses oi (ospfsBlock (oiIndirect ((takeBlock (takeBlock m b) c).set32 (oi + 56) c) oi) +
        4 * directIndex n) 4
      rw [hset]
      exact h.slot_misses hcm (directIndex_lt hn)
  · rw [if_neg h0]
    exact ⟨.inl rfl, (oiSize_set32 (hslot h0)).trans ht.size⟩

theorem Taking.addUnder (ht : Taking m oi m₁) (h : AddClear m oi) (hb : b ∈ freeSet m)
    (hc : c ≠ 0 → c ∈ freeSet m) (hn : 10 ≤ n) (hslot : m₁.get32 (tableSlot m₁ oi n) ≠ 0 →
      Misses oi (ospfsBlock (m₁.get32 (tableSlot m₁ oi n)) + 4 * directIndex n) 4) :
    KeepsSize m oi (addUnder m₁ oi n b c) := by
  unfold Ospfs.addUnder
  dsimp only
  change m₁.get32 (ospfsBlock (oiIndirect2 m₁ oi) + 4 * (indirIndex n).toNat) ≠ 0 → _ at hslot
  by_cases h0 : m₁.get32 (ospfsBlock (oiIndirect2 m₁ oi) + 4 * (indirIndex n).toNat) = 0
  · rw [if_pos h0]
    obtain ⟨-, he⟩ | ⟨a, ha, -, he⟩ := allocateBlock_cases m₁
    · rw [he]
      dsimp only
      rw [if_pos rfl]
      have hfree : oiSize (freeBlock m₁ b) oi = oiSize m oi :=
        (h.oiSize_freeBlock hb).trans ht.size
      refine ⟨.inr rfl, ?_⟩
      dsimp only
      split
      · next hc0 => exact (h.oiSize_freeBlock (hc hc0)).trans hfree
      · exact hfree
    · have ham := ht.free a ha
      have hta := ht.take h ha
      rw [he]
      dsimp only
      rw [if_neg (mem_freeSet_ne_zero ham)]
      exact ⟨.inl rfl, (oiSize_set32 (h.slot_misses ham (directIndex_lt hn))).trans hta.size⟩
  · rw [if_neg h0]
    exact ⟨.inl rfl, (oiSize_set32 (hslot h0)).trans ht.size⟩

theorem take_word (hb : b ∈ freeSet m) (ha : a % 4 = 0)
    (hout : a + 4 ≤ 2048 ∨ bitmapEnd m ≤ a) :
    (takeBlock m b).get32 a = m.get32 a ∨ (takeBlock m b).get32 a = 0 := by
  have hlt := (mem_freeSet.1 hb).2.1
  unfold bitmapEnd at hout
  refine (get32_takeBlock ha).imp_left fun hw => hw.trans ?_
  exact Mem.get32_set32_ne (by
    show 2048 + 4 * (b / 32) + 4 ≤ a ∨ a + 4 ≤ 2048 + 4 * (b / 32)
    omega)

theorem AddClear.addIndirect2 (h : AddClear m oi) (halign : oi % 64 = 0) (hb : b ∈ freeSet m)
    (hsize : ospfsSize2nblocks (oiSize m oi) = n) (hn : 266 ≤ n) (hmax : n ≤ maxfileblks) :
    KeepsSize m oi (addIndirect2 (takeBlock m b) oi n b) := by
  have ht := h.refl.take h hb
  have hind : oiIndirect2 (takeBlock m b) oi = oiIndirect2 m oi :=
    h.take_field halign hb (by omega) (by omega)
  have htable := h.indirect2
  dsimp only at htable
  rw [hsize] at htable
  have htable := htable hn hmax
  unfold Ospfs.addIndirect2
  rw [hind]
  by_cases h0 : oiIndirect2 m oi = 0
  · rw [if_pos h0] at htable ⊢
    obtain ⟨-, he⟩ | ⟨c, hc, -, he⟩ := allocateBlock_cases (takeBlock m b)
    · rw [he]
      dsimp only
      rw [if_pos rfl]
      exact ⟨.inr rfl, (h.oiSize_freeBlock hb).trans ht.size⟩
    · have hcm := ht.free c hc
      rw [he]
      dsimp only
      rw [if_neg (mem_freeSet_ne_zero hcm)]
      refine ((ht.take h hc).setField h (by omega)).addUnder h hb (fun _ => hcm) (by omega)
        fun hw => absurd ?_ hw
      -- the new table is empty
      have hset : oiIndirect2 ((takeBlock (takeBlock m b) c).set32 (oi + 60) c) oi = c :=
        Mem.get32_set32_of_lt (mem_freeSet_lt hcm)
      have hk : (indirIndex n).toNat < 256 := by
        rw [toNat_indirIndex hn]
        unfold maxfileblks at htable
        omega
      have hmiss := h.free c hcm
      have hblk := ospfsBlock_mod c
      unfold Misses at hmiss
      show ((takeBlock (takeBlock m b) c).set32 (oi + 60) c).get32
        (ospfsBlock (oiIndirect2 ((takeBlock (takeBlock m b) c).set32 (oi + 60) c) oi) +
          4 * (indirIndex n).toNat) = 0
      rw [hset, Mem.get32_set32_ne (by omega)]
      exact Mem.get32_of_zero fun i hi => Mem.fill_of_mem (by omega) (by omega)
  · rw [if_neg h0] at htable ⊢
    obtain ⟨hout, hleaf⟩ := htable
    have hslot : tableSlot (takeBlock m b) oi n = tableSlot m oi n := by
      unfold tableSlot
      rw [hind]
    have hmod : tableSlot m oi n % 4 = 0 := by
      have := ospfsBlock_mod (oiIndirect2 m oi)
      unfold tableSlot
      omega
    refine ht.addUnder h hb (fun h => absurd rfl h) (by omega) fun hw => ?_
    rw [hslot] at hw ⊢
    have hword := (take_word hb hmod hout).resolve_right hw
    rw [hword] at hw ⊢
    rw [← leafSlot_indirect2 hn]
    exact hleaf hw

def Adds (m : Mem) (oi : Nat) (r : Ret × Mem) : Prop :=
  (r.1 = .ok () ∧ oiSize r.2 oi = (oiSize m oi + 1024) % 2 ^ 32) ∨
    (r.1 = .error .eNoSpc ∧ oiSize r.2 oi = oiSize m oi)

theorem KeepsSize.addSize {r : Ret × Mem} (h : KeepsSize m oi r) : Adds m oi (addSize oi r) := by
  obtain ⟨ret, m'⟩ := r
  obtain ⟨rfl | rfl, hsize⟩ := h
  · exact .inl ⟨rfl, Mem.get32_set32.trans (by rw [hsize])⟩
  · exact .inr ⟨rfl, hsize⟩

theorem AddClear.addBlock (h : AddClear m oi) (halign : oi % 64 = 0) :
    Adds m oi (addBlock m oi) := by
  rw [addBlock_eq]
  dsimp only
  by_cases hmax : ospfsSize2nblocks (oiSize m oi) > maxfileblks
  · rw [if_pos hmax]
    exact .inr ⟨rfl, rfl⟩
  · rw [if_neg hmax]
    obtain ⟨-, he⟩ | ⟨b, hb, -, he⟩ := allocateBlock_cases m
    · rw [he]
      exact .inr ⟨rfl, rfl⟩
    · rw [he]
      dsimp only
      rw [if_neg (mem_freeSet_ne_zero hb)]
      refine KeepsSize.addSize ?_
      split
      · exact ⟨.inl rfl, (oiSize_set32 (.inr (by omega))).trans (h.refl.take h hb).size⟩
      · next h10 =>
        split
        · next h266 =>
          refine h.addIndirect halign hb (by omega) fun h0 => ?_
          rw [← leafSlot_indirect (by omega) h266]
          exact h.indirect (by omega) h266 h0
        · next h266 => exact h.addIndirect2 halign hb rfl (by omega) (by omega)

/-! ## The block count moves by one -/

theorem AddClear.error {e : Errno} (h : AddClear m oi) (halign : oi % 64 = 0)
    (ha : Ospfs.addBlock m oi = (.error e, m')) : e = .eNoSpc ∧ oiSize m' oi = oiSize m oi := by
  obtain ⟨he, -⟩ | ⟨he, hsize⟩ := h.addBlock halign
  · rw [ha] at he
    cases he
  · rw [ha] at he hsize
    cases he
    exact ⟨rfl, hsize⟩

theorem AddClear.quotient (h : AddClear m oi) (halign : oi % 64 = 0)
    (hlt : ospfsSize2nblocks (oiSize m oi) + 1 < 2 ^ 22)
    (ha : Ospfs.addBlock m oi = (.ok (), m')) :
    oiSize m' oi = (oiSize m oi + 1024) % 2 ^ 32 ∧
      ospfsSize2nblocks (oiSize m' oi) = ospfsSize2nblocks (oiSize m oi) + 1 := by
  obtain ⟨-, hsize⟩ | ⟨he, -⟩ := h.addBlock halign
  · rw [ha] at hsize
    exact ⟨hsize, by rw [hsize, size2nblocks_add hlt]⟩
  · rw [ha] at he
    cases he

theorem RemoveClear.quotient (h : RemoveClear m oi) (hpos : 0 < ospfsSize2nblocks (oiSize m oi)) :
    ospfsSize2nblocks (oiSize (Ospfs.removeBlock m oi) oi) =
      ospfsSize2nblocks (oiSize m oi) - 1 := by
  rw [h.removeBlock, size2nblocks_sub hpos]

end OsLabs.Ospfs
