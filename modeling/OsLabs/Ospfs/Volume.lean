import OsLabs.Ospfs.Bitmap

/-!
# OSPFS: one file on a volume of any size

A `Volume` is what the superblock fixes: how many blocks and inodes there are
and where the inodes begin. Its blocks have 32-bit addresses, its bitmap may
take several blocks. `WellFormed V m oi n` is a file of `n` blocks in order.
The lemmas below say where the pointers of one inode stand and what a write
does to them: `ptr_update` for a pointer that is set, `ptr_erase` for words
that are cleared.
-/

namespace OsLabs.Ospfs

structure Volume where
  nblocks : Nat
  ninodes : Nat
  firstinob : Nat
  addressed : nblocks ≤ 2 ^ 22
  bitmap : 2048 + 4 * ((nblocks + 31) / 32) ≤ 1024 * firstinob
  inodes : firstinob + (ninodes + 15) / 16 ≤ nblocks

namespace Volume

variable (V : Volume)

/-- The first data block. -/
def firstdata : Nat := V.firstinob + (V.ninodes + 15) / 16

def IsData (b : Nat) : Prop := V.firstdata ≤ b ∧ b < V.nblocks

def Inode (oi : Nat) : Prop := ∃ ino < V.ninodes, oi = 1024 * V.firstinob + 64 * ino

def Allocated (m : Mem) (b : Nat) : Prop := V.IsData b ∧ isFree m b = false

/-- The superblock describes the volume, and no block below the data blocks is free. -/
structure Mounted (m : Mem) : Prop where
  nblocks : osNblocks m = V.nblocks
  ninodes : osNinodes m = V.ninodes
  firstinob : osFirstinob m = V.firstinob
  low : ∀ b < V.firstdata, isFree m b = false

def Points (m : Mem) (oi : Nat) : Prop := ∀ p, ptr m oi p ≠ 0 → V.IsData (ptr m oi p)

/-- A file of `n` blocks: the blocks it uses are allocated data blocks, each
used at one place, and all other pointers are 0. -/
structure WellFormed (m : Mem) (oi n : Nat) : Prop where
  mounted : V.Mounted m
  inode : V.Inode oi
  within : n ≤ maxfileblks
  size : oiSize m oi ≤ 1024 * n
  blocks : 1024 * n < oiSize m oi + 1024
  used : ∀ p : Place, p.InUse n → V.Allocated m (ptr m oi p)
  once : ∀ p q : Place, p.InUse n → q.InUse n → ptr m oi p = ptr m oi q → p = q
  beyond : ∀ p : Place, ¬ p.InUse n → ptr m oi p = 0

variable {V} {m m' : Mem} {oi n b x : Nat}

theorem firstinob_ge (V : Volume) : 3 ≤ V.firstinob := by
  have := V.bitmap
  have := V.inodes
  omega

theorem firstdata_ge (V : Volume) : V.firstinob ≤ V.firstdata := Nat.le_add_right _ _

theorem firstdata_le (V : Volume) : V.firstdata ≤ V.nblocks := V.inodes

theorem IsData.ne_zero (h : V.IsData b) : b ≠ 0 := by
  have := V.firstinob_ge
  have := V.firstdata_ge
  have := h.1
  omega

theorem IsData.block (h : V.IsData b) : ospfsBlock b = 1024 * b := by
  have := V.addressed
  have := h.2
  exact ospfsBlock_of_lt (by omega)

theorem IsData.address (h : V.IsData b) : 1024 * V.firstdata ≤ 1024 * b :=
  Nat.mul_le_mul_left _ h.1

theorem Inode.address (h : V.Inode oi) :
    1024 * V.firstinob ≤ oi ∧ oi + 64 ≤ 1024 * V.firstdata ∧ oi % 4 = 0 := by
  obtain ⟨ino, hlt, rfl⟩ := h
  unfold firstdata
  omega

theorem Mounted.inode (h : V.Mounted m) {ino : Nat} (hin : ospfsInode m ino = some oi) :
    V.Inode oi := by
  unfold ospfsInode at hin
  rw [h.ninodes, h.firstinob] at hin
  split at hin
  · cases hin
  · rename_i hlt
    cases hin
    have := V.addressed
    have := V.firstdata_ge
    have := V.firstdata_le
    refine ⟨ino, by omega, ?_⟩
    have hf : V.firstinob < 2 ^ 22 := by
      have := V.inodes
      omega
    rw [ospfsBlock_of_lt hf]

/-! ## The bitmap -/

theorem bit_word (hb : b < V.nblocks) :
    2048 + 4 * (b / 32) + 4 ≤ 1024 * V.firstinob := by
  have := V.bitmap
  omega

theorem clear_of_ne (hb : b < V.nblocks) (hx : x < 2048 ∨ 1024 * V.firstinob ≤ x) :
    bitvectorClear m 2048 b x = m x := by
  have := bit_word hb
  unfold bitvectorClear
  exact Mem.set32_of_ne (by omega)

theorem set_of_ne (hb : b < V.nblocks) (hx : x < 2048 ∨ 1024 * V.firstinob ≤ x) :
    bitvectorSet m 2048 b x = m x := by
  have := bit_word hb
  unfold bitvectorSet
  exact Mem.set32_of_ne (by omega)

theorem isFree_congr (h : ∀ x, 2048 ≤ x → x < 1024 * V.firstinob → m' x = m x)
    (hb : b < V.nblocks) : isFree m' b = isFree m b := by
  have := bit_word hb
  rw [isFree_eq, isFree_eq, Mem.get32_congr fun x _ _ => h x (by omega) (by omega)]

theorem take_of_ne (hb : V.IsData b) (hx : x < 2048 ∨ 1024 * V.firstinob ≤ x)
    (hx' : x < 1024 * b ∨ 1024 * b + 1024 ≤ x) : takeBlock m b x = m x := by
  unfold takeBlock clearBlock
  rw [hb.block, Mem.fill_of_ne hx', clear_of_ne hb.2 hx]

theorem take_zero (hb : V.IsData b) (hx : 1024 * b ≤ x) (hx' : x < 1024 * b + 1024) :
    takeBlock m b x = 0 := by
  unfold takeBlock clearBlock
  rw [hb.block, Mem.fill_of_mem hx hx']

theorem isFree_take (hb : V.IsData b) {c : Nat} (hc : c < V.nblocks) :
    isFree (takeBlock m b) c = (isFree m c && decide (b ≠ c)) := by
  have := V.firstdata_ge
  have := hb.address
  rw [← isFree_clear]
  refine isFree_congr (fun x _ _ => ?_) hc
  unfold takeBlock clearBlock
  rw [hb.block, Mem.fill_of_ne (by omega)]

theorem Mounted.allocateBlock (h : V.Mounted m) :
    (allocateBlock m = (0, m) ∧ ∀ b, V.IsData b → isFree m b = false) ∨
    ∃ b, V.IsData b ∧ isFree m b = true ∧ allocateBlock m = (b, bitvectorClear m 2048 b) := by
  have := V.firstdata_ge
  have := V.firstinob_ge
  unfold Ospfs.allocateBlock
  rw [h.nblocks]
  rcases allocateFrom_spec m (V.nblocks - 2) 2 with ⟨he, hno⟩ | ⟨b, h1, h2, hb, -, he⟩
  · refine .inl ⟨he, fun b hb => hno b ?_ ?_⟩
    · have := hb.1; omega
    · have := hb.1; have := hb.2; omega
  · refine .inr ⟨b, ⟨?_, by omega⟩, hb, he⟩
    by_contra hlt
    rw [h.low b (by omega)] at hb
    cases hb

theorem Mounted.isData (h : V.Mounted m) (hb : b < V.nblocks) (hf : isFree m b = true) :
    V.IsData b := by
  refine ⟨?_, hb⟩
  by_contra hlt
  rw [h.low b (by omega)] at hf
  cases hf

theorem freeBlock_of_allocated (hf : osFirstinob m = V.firstinob) (hb : V.Allocated m b) :
    freeBlock m b = bitvectorSet m 2048 b := by
  have := V.firstdata_ge
  have := hb.1.1
  have htest : bitvectorTest m (ospfsBlock 2) b = false := hb.2
  unfold freeBlock
  rw [if_neg (by omega), htest]
  rfl

theorem freeBlock_zero (hf : osFirstinob m = V.firstinob) : freeBlock m 0 = m := by
  have := V.firstinob_ge
  unfold freeBlock
  rw [if_pos (by omega)]

/-- `free_block` of any block of the volume sets at most its bit. -/
theorem freeBlock_cases (b : Nat) (m : Mem) :
    freeBlock m b = m ∨ freeBlock m b = bitvectorSet m 2048 b := by
  unfold freeBlock
  split
  · exact .inl rfl
  split
  · exact .inl rfl
  · exact .inr rfl

/-! ### Counting free blocks -/

theorem freeBlocks_take (h : V.Mounted m) (hb : V.IsData b) (hf : isFree m b = true) :
    freeBlocks (takeBlock m b) + 1 = freeBlocks m := by
  have := V.firstinob_ge
  have := V.firstdata_ge
  have := hb.address
  have hn : osNblocks (takeBlock m b) = osNblocks m :=
    Mem.get32_congr fun x _ _ => take_of_ne hb (by omega) (by omega)
  have hset : (Finset.range (osNblocks m)).filter (isFree (takeBlock m b) ·) =
      ((Finset.range (osNblocks m)).filter (isFree m ·)).erase b := by
    ext c
    simp only [Finset.mem_filter, Finset.mem_range, Finset.mem_erase, h.nblocks]
    constructor
    · rintro ⟨hc, hcf⟩
      rw [isFree_take hb hc] at hcf
      simp only [Bool.and_eq_true, decide_eq_true_eq] at hcf
      exact ⟨Ne.symm hcf.2, hc, hcf.1⟩
    · rintro ⟨hne, hc, hcf⟩
      rw [isFree_take hb hc, hcf]
      simpa using ⟨hc, Ne.symm hne⟩
  unfold freeBlocks
  rw [hn, hset]
  exact Finset.card_erase_add_one (by simp [h.nblocks, hb.2, hf])

theorem Mounted.freeBlocks_eq_zero (h : V.Mounted m) :
    freeBlocks m = 0 ↔ ∀ b, V.IsData b → isFree m b = false := by
  unfold freeBlocks
  rw [Finset.card_eq_zero, Finset.filter_eq_empty_iff, h.nblocks]
  constructor
  · intro hno b hb
    simpa using hno (Finset.mem_range.2 hb.2)
  · intro hno b hb hf
    rw [hno b (h.isData (Finset.mem_range.1 hb) hf)] at hf
    cases hf

theorem Mounted.congr (h : V.Mounted m) (hs : ∀ x, 1024 ≤ x → x < 2048 → m' x = m x)
    (hlow : ∀ b < V.firstdata, isFree m' b = false) : V.Mounted m' := by
  refine ⟨?_, ?_, ?_, hlow⟩
  · rw [← h.nblocks]
    exact Mem.get32_congr fun x _ _ => hs x (by omega) (by omega)
  · rw [← h.ninodes]
    exact Mem.get32_congr fun x _ _ => hs x (by omega) (by omega)
  · rw [← h.firstinob]
    exact Mem.get32_congr fun x _ _ => hs x (by omega) (by omega)

/-! ## Slots -/

theorem Points.slot_cases (h : V.Points m oi) {p : Place} (hp : Present m oi p) :
    (p.parent = none ∧ p.idx < 12 ∧ slot m oi p = oi + 16 + 4 * p.idx) ∨
    ∃ q, p.parent = some q ∧ q.IsTable ∧ V.IsData (ptr m oi q) ∧ p.idx < 256 ∧
      slot m oi p = 1024 * ptr m oi q + 4 * p.idx := by
  rcases hpp : p.parent with _ | q
  · exact .inl ⟨rfl, Place.idx_lt_of_none hpp, slot_of_none hpp m oi⟩
  · have hd := h q (hp.2 q hpp)
    refine .inr ⟨q, rfl, Place.parent_isTable hpp, hd, Place.idx_lt_of_some hp.1 hpp, ?_⟩
    rw [slot_of_some hpp, hd.block]

theorem Points.slot_range (h : V.Points m oi) (hoi : V.Inode oi) {p : Place}
    (hp : Present m oi p) :
    slot m oi p % 4 = 0 ∧ 1024 * V.firstinob ≤ slot m oi p ∧
      ((oi + 16 ≤ slot m oi p ∧ slot m oi p + 4 ≤ oi + 64) ∨
        1024 * V.firstdata ≤ slot m oi p) := by
  obtain ⟨hlo, hhi, hal⟩ := hoi.address
  have := V.firstdata_ge
  rcases h.slot_cases hp with ⟨-, hi, hs⟩ | ⟨q, -, -, hd, hi, hs⟩
  · rw [hs]
    omega
  · have := hd.address
    rw [hs]
    omega

theorem Points.slot_sep (h : V.Points m oi) (hoi : V.Inode oi)
    (hinj : ∀ p q, ptr m oi p ≠ 0 → ptr m oi p = ptr m oi q → p = q) {p q : Place}
    (hp : Present m oi p) (hq : Present m oi q) (hne : p ≠ q) :
    slot m oi p + 4 ≤ slot m oi q ∨ slot m oi q + 4 ≤ slot m oi p := by
  obtain ⟨hlo, hhi, -⟩ := hoi.address
  have hsame (he : p.parent = q.parent) : p.idx ≠ q.idx :=
    fun hidx => hne (Place.parent_idx_inj he hidx)
  rcases h.slot_cases hp with ⟨hpp, hi, hs⟩ | ⟨r, hpp, -, hd, hi, hs⟩ <;>
    rcases h.slot_cases hq with ⟨hqp, hi', hs'⟩ | ⟨r', hqp, -, hd', hi', hs'⟩
  · have := hsame (hpp.trans hqp.symm)
    omega
  · have := hd'.address
    omega
  · have := hd.address
    omega
  · by_cases heq : ptr m oi r = ptr m oi r'
    · have := hsame (by rw [hpp, hqp, hinj r r' hd.ne_zero heq])
      omega
    · omega

/-! ## Pointers under a write -/

/-- A pointer is set: of a file block, or of a table that was missing and is
entered as a block of zeros. -/
theorem ptr_update {p : Place} (hp : Present m oi p)
    (hsame : ∀ q : Place, Present m oi q → q ≠ p → m'.get32 (slot m oi q) = m.get32 (slot m oi q))
    (hnew : ∀ q : Place, q.parent = some p → ptr m oi p = 0 ∧
      (q.Valid → m'.get32 (ospfsBlock (m'.get32 (slot m oi p)) + 4 * q.idx) = 0)) (q : Place) :
    ptr m' oi q = if q = p then m'.get32 (slot m oi p) else ptr m oi q := by
  induction q using Place.parent_induction with
  | h q ih =>
    by_cases hqp : q.parent = some p
    · obtain ⟨h0, hz⟩ := hnew q hqp
      rw [if_neg (Place.parent_ne hqp), ptr_of_not_present (m := m) fun hq => hq.2 p hqp h0]
      by_cases hq : Present m' oi q
      · rw [ptr_of_present hq, slot_of_some hqp, ih p hqp, if_pos rfl]
        exact hz hq.1
      · exact ptr_of_not_present hq
    have ih' : ∀ r, q.parent = some r → ptr m' oi r = ptr m oi r := by
      intro r hr
      rw [ih r hr, if_neg]
      rintro rfl
      exact hqp hr
    obtain ⟨hpres, hslot⟩ := place_congr ih'
    by_cases hq : Present m oi q
    · rw [ptr_of_present (hpres.2 hq), hslot]
      split
      · rename_i heq
        rw [heq]
      · rename_i hne
        rw [ptr_of_present hq, hsame q hq hne]
    · rw [ptr_of_not_present fun h' => hq (hpres.1 h'), ptr_of_not_present hq, if_neg]
      rintro rfl
      exact hq hp

/-- Words are cleared: each pointer stays or goes. -/
theorem ptr_erase
    (h : ∀ p, Present m oi p → m'.get32 (slot m oi p) = m.get32 (slot m oi p) ∨
      m'.get32 (slot m oi p) = 0) (p : Place) : ptr m' oi p = ptr m oi p ∨ ptr m' oi p = 0 := by
  induction p using Place.parent_induction with
  | h p ih =>
    by_cases hgone : ∃ q, p.parent = some q ∧ ptr m' oi q = 0
    · obtain ⟨q, hq, h0⟩ := hgone
      exact .inr (ptr_of_not_present fun hp => hp.2 q hq h0)
    have ih' : ∀ q, p.parent = some q → ptr m' oi q = ptr m oi q := by
      intro q hq
      exact (ih q hq).resolve_right fun h0 => hgone ⟨q, hq, h0⟩
    obtain ⟨hpres, hslot⟩ := place_congr ih'
    by_cases hp : Present m oi p
    · rw [ptr_of_present (hpres.2 hp), ptr_of_present hp, hslot]
      exact h p hp
    · exact .inr (ptr_of_not_present fun h' => hp (hpres.1 h'))

theorem ptr_under_ne_zero {p q : Place} (h : p.Under q) (h0 : ptr m oi q ≠ 0) :
    ptr m oi p ≠ 0 := by
  induction h with
  | refl => exact h0
  | step hpar _ ih =>
    refine ih ?_
    by_contra hr
    exact h0 (ptr_of_not_present fun hq => hq.2 _ hpar hr)

/-! ## Facts about well-formed files -/

theorem WellFormed.points (h : V.WellFormed m oi n) : V.Points m oi := by
  intro p h0
  by_cases hp : p.InUse n
  · exact (h.used p hp).1
  · exact absurd (h.beyond p hp) h0

theorem WellFormed.ptr_ne_zero (h : V.WellFormed m oi n) {p : Place} :
    ptr m oi p ≠ 0 ↔ p.InUse n := by
  constructor
  · intro h0
    by_contra hp
    exact h0 (h.beyond p hp)
  · exact fun hp => (h.used p hp).1.ne_zero

theorem WellFormed.inj (h : V.WellFormed m oi n) (p q : Place) (hp : ptr m oi p ≠ 0)
    (he : ptr m oi p = ptr m oi q) : p = q :=
  h.once p q (h.ptr_ne_zero.1 hp) (h.ptr_ne_zero.1 (he ▸ hp)) he

theorem WellFormed.size2nblocks (h : V.WellFormed m oi n) :
    ospfsSize2nblocks (oiSize m oi) = n := by
  have h1 := h.size
  have h2 := h.blocks
  have h3 := h.within
  unfold maxfileblks at h3
  unfold ospfsSize2nblocks
  omega

/-! ## A sample volume

A volume of 1024 blocks with one bitmap block. Inode 1 is a file of `n` blocks,
at most 266: blocks 4 to 13, the indirect block 14, and the blocks from 15 on.
The bits of `f` say which of the blocks from 320 to 351 are free. -/

def sampleWord (n f j : Nat) : Nat :=
  if j = 257 then 1024
  else if j = 258 then 16
  else if j = 259 then 3
  else if j = 522 then f
  else if j = 784 then 1024 * n
  else if 788 ≤ j ∧ j < 798 then if j - 788 < n then j - 784 else 0
  else if j = 798 then if 10 < n then 14 else 0
  else if 3584 ≤ j ∧ j < 3840 then if j - 3574 < n then j - 3569 else 0
  else 0

def sampleDisk (n f : Nat) : Mem := Mem.ofWords (sampleWord n f)

def sampleVolume : Volume := ⟨1024, 16, 3, by decide, by decide, by decide⟩

section

variable {f j : Nat}

theorem sampleWord_le (hn : n ≤ 266) : sampleWord n f j ≤ max f 300000 := by
  unfold sampleWord
  grind

theorem sampleWord_boot (h : j < 257) : sampleWord n f j = 0 := by
  unfold sampleWord
  grind

theorem sampleWord_bitmap (h : 512 ≤ j) (h' : j < 544) (hj : j ≠ 522) : sampleWord n f j = 0 := by
  unfold sampleWord
  grind

theorem sampleWord_direct (h : j < 10) :
    sampleWord n f (788 + j) = if j < n then j + 4 else 0 := by
  unfold sampleWord
  grind

theorem sampleWord_indirect (h : j < 256) :
    sampleWord n f (3584 + j) = if j + 10 < n then j + 15 else 0 := by
  unfold sampleWord
  grind

end

theorem sampleDisk_word {f j : Nat} (hn : n ≤ 266) (hf : f < 2 ^ 32) :
    (sampleDisk n f).get32 (4 * j) = sampleWord n f j := by
  have hle := sampleWord_le (f := f) (j := j) hn
  exact (Mem.get32_ofWords _ j).trans (Nat.mod_eq_of_lt (by omega))

theorem sampleDisk_boot {f : Nat} (hx : x < 1024) : sampleDisk n f x = 0 := by
  have hw : sampleWord n f (x / 4) = 0 := sampleWord_boot (by omega)
  show UInt8.ofNat (sampleWord n f (x / 4) / 2 ^ (8 * (x % 4))) = 0
  rw [hw, Nat.zero_div]
  rfl

theorem sampleDisk_isFree {f : Nat} (hn : n ≤ 266) (hf : f < 2 ^ 32) (hb : b < 1024) :
    isFree (sampleDisk n f) b = (decide (320 ≤ b) && f.testBit (b - 320)) := by
  have haddr : 2048 + 4 * (b / 32) = 4 * (512 + b / 32) := by omega
  rw [isFree_eq, haddr, sampleDisk_word hn hf]
  by_cases h : b / 32 = 10
  · have hw : sampleWord n f (512 + b / 32) = f := by
      rw [h]
      rfl
    rw [hw, show b % 32 = b - 320 by omega]
    simp [show 320 ≤ b by omega]
  · have hw : sampleWord n f (512 + b / 32) = 0 :=
      sampleWord_bitmap (by omega) (by omega) (by omega)
    rw [hw, Nat.zero_testBit]
    by_cases h320 : 320 ≤ b
    · have hbit : f.testBit (b - 320) = false :=
        Nat.testBit_lt_two_pow (Nat.lt_of_lt_of_le hf (Nat.pow_le_pow_right (by decide) (by omega)))
      simp [hbit]
    · simp [h320]

theorem sampleDisk_indirect {f : Nat} (hn : n ≤ 266) (hf : f < 2 ^ 32) :
    oiIndirect (sampleDisk n f) 3136 = if 10 < n then 14 else 0 :=
  sampleDisk_word (j := 798) hn hf

theorem sampleDisk_indirect2 {f : Nat} (hn : n ≤ 266) (hf : f < 2 ^ 32) :
    oiIndirect2 (sampleDisk n f) 3136 = 0 :=
  sampleDisk_word (j := 799) hn hf

theorem sampleDisk_leaf {f : Nat} (hn : n ≤ 266) (hf : f < 2 ^ 32) (b : Nat) :
    ptr (sampleDisk n f) 3136 (.leaf b) =
      if b < n then if b < 10 then b + 4 else b + 5 else 0 := by
  have h0 (j : Nat) : entry (sampleDisk n f) 0 j = 0 := rfl
  simp only [ptr, sampleDisk_indirect hn hf, sampleDisk_indirect2 hn hf, h0, ite_self]
  by_cases h10 : b < 10
  · have hw : oiDirect (sampleDisk n f) 3136 b = sampleWord n f (788 + b) := by
      unfold oiDirect
      rw [show 3136 + 16 + 4 * b = 4 * (788 + b) by omega]
      exact sampleDisk_word hn hf
    rw [if_pos h10, if_pos h10, hw, sampleWord_direct h10]
  by_cases h266 : b < 266
  · rw [if_neg h10, if_pos h266, if_neg h10]
    by_cases h : 10 < n
    · have hw : (sampleDisk n f).get32 (ospfsBlock 14 + 4 * (b - 10)) =
          sampleWord n f (3584 + (b - 10)) := by
        rw [show ospfsBlock 14 + 4 * (b - 10) = 4 * (3584 + (b - 10)) by
          rw [show ospfsBlock 14 = 14336 from rfl]; omega]
        exact sampleDisk_word hn hf
      rw [if_pos h, entry, if_neg (by decide), hw, sampleWord_indirect (by omega)]
      rw [show b - 10 + 10 = b by omega, show b - 10 + 15 = b + 5 by omega]
    · rw [if_neg h, h0, if_neg (by omega)]
  · rw [if_neg h10, if_neg h266, if_neg (show ¬ b < n by omega)]

theorem sampleDisk_wellFormed {f : Nat} (hn : n ≤ 266) (hf : f < 2 ^ 32) :
    sampleVolume.WellFormed (sampleDisk n f) 3136 n := by
  have hleaf := sampleDisk_leaf hn hf
  have hind (h : Place.indirect.InUse n) : ptr (sampleDisk n f) 3136 .indirect = 14 :=
    (sampleDisk_indirect hn hf).trans (if_pos h)
  have hind2 : ptr (sampleDisk n f) 3136 .indirect2 = 0 := sampleDisk_indirect2 hn hf
  have hunder (k : Nat) : ptr (sampleDisk n f) 3136 (.indir2 k) = 0 :=
    ptr_of_not_present fun hp => hp.2 _ rfl hind2
  have hsize : oiSize (sampleDisk n f) 3136 = 1024 * n := sampleDisk_word (j := 784) hn hf
  have hdata (b : Nat) (h : 4 ≤ b) (h' : b < 320) :
      sampleVolume.Allocated (sampleDisk n f) b := by
    refine ⟨⟨h, show b < 1024 by omega⟩, ?_⟩
    rw [sampleDisk_isFree hn hf (by omega)]
    simp [show ¬ 320 ≤ b by omega]
  have h2 : ¬ Place.indirect2.InUse n := by
    show ¬ 266 < n
    omega
  have h3 (k : Nat) : ¬ (Place.indir2 k).InUse n := by
    show ¬ 266 + 256 * k < n
    omega
  have hm : sampleVolume.Mounted (sampleDisk n f) := by
    refine ⟨sampleDisk_word (j := 257) hn hf, sampleDisk_word (j := 258) hn hf,
      sampleDisk_word (j := 259) hn hf, fun b hb => ?_⟩
    have hfd : sampleVolume.firstdata = 4 := by decide
    rw [sampleDisk_isFree hn hf (by omega)]
    simp [show ¬ 320 ≤ b by omega]
  have hino : ospfsInode (sampleDisk n f) 1 = some 3136 := by
    unfold ospfsInode
    rw [hm.ninodes, hm.firstinob]
    rfl
  refine ⟨hm, hm.inode hino, ?_, by omega, by omega, fun p hp => ?_, fun p q hp hq he => ?_,
    fun p hp => ?_⟩
  · unfold maxfileblks
    omega
  · cases p with
    | leaf b =>
      have hlt : b < n := hp
      rw [hleaf, if_pos hlt]
      split <;> exact hdata _ (by omega) (by omega)
    | indirect =>
      rw [hind hp]
      exact hdata 14 (by omega) (by omega)
    | indirect2 => exact absurd hp h2
    | indir2 k => exact absurd hp (h3 k)
  · cases p with
    | leaf b =>
      have hb : b < n := hp
      cases q with
      | leaf c =>
        have hc : c < n := hq
        rw [hleaf, hleaf, if_pos hb, if_pos hc] at he
        congr 1
        split at he <;> split at he <;> omega
      | indirect =>
        rw [hleaf, hind hq, if_pos hb] at he
        split at he <;> omega
      | indirect2 => exact absurd hq h2
      | indir2 k => exact absurd hq (h3 k)
    | indirect =>
      cases q with
      | leaf c =>
        have hc : c < n := hq
        rw [hleaf, hind hp, if_pos hc] at he
        split at he <;> omega
      | indirect => rfl
      | indirect2 => exact absurd hq h2
      | indir2 k => exact absurd hq (h3 k)
    | indirect2 => exact absurd hp h2
    | indir2 k => exact absurd hp (h3 k)
  · cases p with
    | leaf b => rw [hleaf, if_neg (show ¬ b < n from hp)]
    | indirect => exact (sampleDisk_indirect hn hf).trans (if_neg hp)
    | indirect2 => exact hind2
    | indir2 k => exact hunder k

theorem sampleDisk_freeBlocks {f : Nat} (hn : n ≤ 266) (hf : f < 2 ^ 32) :
    freeBlocks (sampleDisk n f) = ((Finset.range 32).filter (f.testBit ·)).card := by
  have hnb : osNblocks (sampleDisk n f) = 1024 := sampleDisk_word (j := 257) hn hf
  have hset : (Finset.range 1024).filter (isFree (sampleDisk n f) ·) =
      ((Finset.range 32).filter (f.testBit ·)).image (· + 320) := by
    ext b
    simp only [Finset.mem_filter, Finset.mem_range, Finset.mem_image]
    constructor
    · rintro ⟨hb, hfree⟩
      rw [sampleDisk_isFree hn hf hb, Bool.and_eq_true, decide_eq_true_eq] at hfree
      refine ⟨b - 320, ⟨?_, hfree.2⟩, by omega⟩
      by_contra hge
      have := Nat.testBit_lt_two_pow (Nat.lt_of_lt_of_le hf
        (Nat.pow_le_pow_right (n := 2) (by decide) (show 32 ≤ b - 320 by omega)))
      rw [hfree.2] at this
      cases this
    · rintro ⟨i, ⟨hi, hbit⟩, rfl⟩
      refine ⟨by omega, ?_⟩
      rw [sampleDisk_isFree hn hf (by omega)]
      simp [hbit]
  unfold freeBlocks
  rw [hnb, hset]
  exact Finset.card_image_of_injective _ fun i j h => by simpa using h

end Volume

end OsLabs.Ospfs
