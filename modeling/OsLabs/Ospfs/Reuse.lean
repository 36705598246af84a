import OsLabs.Ospfs.Lengthen
import OsLabs.Ospfs.Transfer

/-!
# OSPFS: what a file that was cut shows when it grows again

`change_size` clears the blocks it adds, and nothing else. So the bytes behind
the end in the last block that a file keeps are those of the longer file.
-/

namespace OsLabs.Ospfs

open Chunks

namespace Volume

variable {V : Volume} {m m' m₁ m₂ : Mem} {a b k n oi p : Nat}

/-- What a `change_size` from `n` to `k` blocks does to the file blocks. -/
structure Resized (V : Volume) (oi n k : Nat) (m m' : Mem) : Prop where
  held : Held V oi k m'
  taken : Taken m' oi
  ftype : oiFtype m' oi = oiFtype m oi
  leaves : ∀ b, b < n → b < k → ptr m' oi (.leaf b) = ptr m oi (.leaf b)
  bytes : ∀ b, b < n → b < k → ptr m oi (.leaf b) ≠ 0 → ∀ x, 1024 * ptr m oi (.leaf b) ≤ x →
    x < 1024 * ptr m oi (.leaf b) + 1024 → m' x = m x
  zero : ∀ b, n ≤ b → b < k → ptr m' oi (.leaf b) ≠ 0 → ∀ x, 1024 * ptr m' oi (.leaf b) ≤ x →
    x < 1024 * ptr m' oi (.leaf b) + 1024 → m' x = 0

theorem Resized.set_size (h : Resized V oi n k m m₁) (hoi : V.Inode oi) {v : Nat}
    (hv : v < 2 ^ 32) (hk : ospfsSize2nblocks v = k) : Resized V oi n k m (m₁.set32 oi v) := by
  obtain ⟨-, hhi, -⟩ := hoi.address
  have := V.firstdata_ge
  obtain ⟨hh, ht, hptr⟩ := h.held.set_size hoi hv hk
  have hbyte (q : Place) (h0 : ptr m₁ oi q ≠ 0) (x : Nat) (hx : 1024 * ptr m₁ oi q ≤ x) :
      m₁.set32 oi v x = m₁ x := by
    have := (h.held.points q h0).address
    exact Mem.set32_of_ne (by omega)
  refine ⟨hh, ht h.taken, ?_, fun b hn hk => (hptr _).trans (h.leaves b hn hk),
    fun b hn hk h0 x hx hx' => ?_, fun b hn hk h0 x hx hx' => ?_⟩
  · rw [← h.ftype]
    exact Mem.get32_set32_ne (by omega)
  · have hsame := h.leaves b hn hk
    rw [hbyte _ (hsame.trans_ne h0) x (hsame ▸ hx)]
    exact h.bytes b hn hk h0 x hx hx'
  · rw [hptr] at h0 hx hx'
    rw [hbyte _ h0 x hx]
    exact h.zero b hn hk h0 x hx hx'

theorem Grows.resized (h : Grows V oi n m k m₁) (hm : Held V oi n m) (ht : Taken m oi)
    (hoi : V.Inode oi) (hh : Held V oi k m₁) (ht₁ : Taken m₁ oi) : Resized V oi n k m m₁ :=
  ⟨hh, ht₁, h.ftype, fun b hn _ => h.leaves b hn,
    fun _ _ _ h0 x hx hx' => (h.far x (hm.leaf_far ht hoi h0 hx hx')).2, h.zero⟩

theorem Chopped.resized (h : Chopped V oi n k m m₁) (hm : Held V oi n m) (ht : Taken m oi)
    (hoi : V.Inode oi) (hkn : k ≤ n) : Resized V oi n k m m₁ := by
  refine ⟨h.held, h.taken ht, Mem.get32_congr fun x hx hx' => ?_,
    fun b _ hk => h.kept (.leaf b) (Nat.lt_succ_of_lt hk), fun b _ _ h0 x hx hx' => ?_,
    fun b hn hk => by omega⟩
  · have hfar := hm.head_far hoi hx (by omega : x < oi + 16)
    exact h.bytes x hfar.bitmap hfar.inode hfar.tables
  · have hfar := hm.leaf_far ht hoi h0 hx hx'
    exact h.bytes x hfar.bitmap hfar.inode hfar.tables

/-- **A `change_size` that returns 0**: the blocks the file had and has are as they
were, the others that are mapped are zero. -/
theorem Held.changeSize_resized (h : Held V oi n m) (ht : Taken m oi) (hoi : V.Inode oi)
    (hend : ospfsSize2nblocks a < n → n ≤ maxfileblks ∧
      (n = maxfileblks → m.get32 (ospfsBlock (oiIndirect2 m oi) + 1024) = 0))
    (ha : a ≤ 1024 * maxfileblks) (hr : changeSize m oi a = some (.ok (), m')) :
    Resized V oi n (ospfsSize2nblocks a) m m' ∧ oiSize m' oi = a := by
  unfold maxfileblks at ha
  rcases Nat.lt_or_ge (ospfsSize2nblocks a) n with hlt | hge
  · obtain ⟨hn, hlast⟩ := hend hlt
    obtain ⟨m₁, he, hchop⟩ := h.changeSize_shrink hoi a hlt.le hn hlast
    rw [hr] at he
    cases he
    exact ⟨(hchop.resized h ht hoi hlt.le).set_size hoi (by omega) rfl,
      Mem.get32_set32_of_lt (by omega)⟩
  · have hlim : ospfsSize2nblocks a ≤ maxfileblks := by
      unfold maxfileblks ospfsSize2nblocks
      omega
    rcases h.changeSize_grow ht hoi a hge (.inl hlim) with ⟨m₁, he, hh, ht₁, hg⟩ | ⟨m₁, he, -⟩
    · rw [hr] at he
      cases he
      exact ⟨(hg.resized h ht hoi hh ht₁).set_size hoi (by omega) rfl,
        Mem.get32_set32_of_lt (by omega)⟩
    · rw [hr] at he
      cases he

/-! ## Reading it back -/

/-- The bytes behind position `a`, up to `b`, in the blocks that a file of `n` blocks
keeps when its size is set to `a`: there are none where `a` ends a block. -/
def TailZero (m : Mem) (oi n a b : Nat) : Prop :=
  ∀ p, a ≤ p → p < b → p / 1024 < n → p / 1024 < ospfsSize2nblocks a →
    ptr m oi (.leaf (p / 1024)) ≠ 0 → m (1024 * ptr m oi (.leaf (p / 1024)) + p % 1024) = 0

/-- What any `ospfs_read` delivers of the positions from `a` to `b` is zero. -/
def ReadsZero (m : Mem) (oi a b : Nat) : Prop :=
  ∀ count pos copyToUser t, ospfsRead m oi count pos copyToUser = some t →
    ∀ i (h : i < t.out.length), a ≤ pos + i → pos + i < b → t.out[i] = 0

theorem ospfsRead_one (hp : p < oiSize m oi) (h0 : ospfsInodeBlockno m oi p ≠ 0) :
    ∃ t, ospfsRead m oi 1 p (fun _ => true) = some t ∧ t.out = [m (ospfsInodeData m oi p)] := by
  have hsize : oiSize m oi < 2 ^ 32 := Mem.get32_lt
  obtain ⟨t, ht, hend, hout⟩ := ospfsRead_run m oi 1 p fun _ => true
  have hcount : readCount m oi 1 p = 1 := by
    rw [readCount_of_le hp.le (by decide)]
    omega
  rw [hcount] at hend
  refine ⟨t, ht, ?_⟩
  rcases hend with ⟨-, hpos, -⟩ | ⟨_, j, -, -, ⟨hlt, hfail⟩, -⟩
  · rw [hpos] at hout
    have hlen := hout.length
    refine List.ext_getElem (by rw [List.length_singleton]; omega) fun i hi _ => ?_
    obtain rfl : i = 0 := by omega
    exact (hout.byte 0 hi hp).2
  · have hle : p ≤ cut 1024 p j := le_cut (by decide)
    have hcut : cut 1024 p j = p := by omega
    rw [hcut, Nat.mod_eq_of_lt (by omega)] at hfail
    rcases hfail with hno | hc
    · exact absurd hno h0
    · cases hc

theorem readsZero_iff (hb : b = oiSize m oi) : ReadsZero m oi a b ↔
    ∀ p, a ≤ p → p < b → ospfsInodeBlockno m oi p ≠ 0 → m (ospfsInodeData m oi p) = 0 := by
  subst hb
  constructor
  · intro h p hap hpb h0
    obtain ⟨t, ht, hout⟩ := ospfsRead_one hpb h0
    have hz := h 1 p _ t ht 0 (by rw [hout]; exact Nat.one_pos) hap hpb
    simp only [hout, List.getElem_cons_zero] at hz
    exact hz
  · intro h count pos copyToUser t ht i hi hap hpb
    obtain ⟨t', ht', -, hout⟩ := ospfsRead_run m oi count pos copyToUser
    rw [ht] at ht'
    cases ht'
    obtain ⟨h0, hbyte⟩ := hout.byte i hi hpb
    rw [hbyte]
    exact h _ hap hpb h0

/-- A byte of a file that has been cut to `a` and grown to `b`: it is the byte of the
file before, where the block was kept, or zero. -/
theorem Resized.reused {kb : Nat} (h₁ : Resized V oi n k m m₁) (h₂ : Resized V oi k kb m₁ m₂)
    (hp : p / 1024 < kb) (h0 : ptr m₂ oi (.leaf (p / 1024)) ≠ 0) :
    m₂ (1024 * ptr m₂ oi (.leaf (p / 1024)) + p % 1024) =
      if p / 1024 < n ∧ p / 1024 < k then m (1024 * ptr m oi (.leaf (p / 1024)) + p % 1024)
      else 0 := by
  rcases Nat.lt_or_ge (p / 1024) k with hk | hk
  · have hleaf₂ := h₂.leaves _ hk hp
    rw [hleaf₂] at h0 ⊢
    rw [h₂.bytes _ hk hp h0 _ (by omega) (by omega)]
    rcases Nat.lt_or_ge (p / 1024) n with hn | hn
    · have hleaf₁ := h₁.leaves _ hn hk
      rw [hleaf₁] at h0 ⊢
      rw [if_pos ⟨hn, hk⟩]
      exact h₁.bytes _ hn hk h0 _ (by omega) (by omega)
    · rw [if_neg (by omega)]
      exact h₁.zero _ hn hk h0 _ (by omega) (by omega)
  · rw [if_neg (by omega)]
    exact h₂.zero _ hk hp h0 _ (by omega) (by omega)

/-- **Growing again shows no old data** iff the last block that was kept is zero
behind the end. -/
theorem changeSize_reuse_iff (h : Held V oi n m) (ht : Taken m oi) (hoi : V.Inode oi)
    (hreg : oiFtype m oi = ftypeReg) (hn : n ≤ maxfileblks)
    (hend : n = maxfileblks → m.get32 (ospfsBlock (oiIndirect2 m oi) + 1024) = 0)
    (hab : a < b) (hb : b ≤ 1024 * maxfileblks)
    (h₁ : changeSize m oi a = some (.ok (), m₁)) (h₂ : changeSize m₁ oi b = some (.ok (), m₂)) :
    ReadsZero m₂ oi a b ↔ TailZero m oi n a b := by
  have hk : ospfsSize2nblocks a ≤ ospfsSize2nblocks b ∧ ospfsSize2nblocks b ≤ maxfileblks ∧
      ∀ p < b, p / 1024 < ospfsSize2nblocks b := by
    unfold maxfileblks at hb ⊢
    unfold ospfsSize2nblocks
    refine ⟨by omega, by omega, fun p hp => by omega⟩
  obtain ⟨hr₁, -⟩ := h.changeSize_resized ht hoi (fun _ => ⟨hn, hend⟩) (by omega) h₁
  obtain ⟨hr₂, hsize⟩ := hr₁.held.changeSize_resized hr₁.taken hoi (fun _ => by omega) hb h₂
  have hty : oiFtype m₂ oi ≠ ftypeSymlink := by
    rw [hr₂.ftype, hr₁.ftype, hreg]
    decide
  have hno (p : Nat) (hp : p < b) :
      ospfsInodeBlockno m₂ oi p = ptr m₂ oi (.leaf (p / 1024)) :=
    hr₂.held.boot.ospfsInodeBlockno (by omega) hty (Nat.lt_of_lt_of_le (hk.2.2 p hp) hk.2.1)
  have hbyte (p : Nat) (hp : p < b) (h0 : ptr m₂ oi (.leaf (p / 1024)) ≠ 0) :
      ospfsInodeData m₂ oi p = 1024 * ptr m₂ oi (.leaf (p / 1024)) + p % 1024 := by
    unfold ospfsInodeData
    rw [hno p hp, (hr₂.held.points _ h0).block]
  rw [readsZero_iff hsize.symm]
  constructor
  · intro hz p hap hpb hpn hpk h0
    have hleaf : ptr m₂ oi (.leaf (p / 1024)) = ptr m oi (.leaf (p / 1024)) :=
      (hr₂.leaves _ hpk (hk.2.2 p hpb)).trans (hr₁.leaves _ hpn hpk)
    have h0₂ := hleaf.trans_ne h0
    have hval := hr₁.reused hr₂ (hk.2.2 p hpb) h0₂
    rw [if_pos ⟨hpn, hpk⟩, ← hbyte p hpb h0₂] at hval
    rw [← hval]
    exact hz p hap hpb ((hno p hpb).trans_ne h0₂)
  · intro htail p hap hpb h0
    rw [hno p hpb] at h0
    rw [hbyte p hpb h0, hr₁.reused hr₂ (hk.2.2 p hpb) h0]
    split
    · rename_i hp
      refine htail p hap hpb hp.1 hp.2 ?_
      rwa [← hr₁.leaves _ hp.1 hp.2, ← hr₂.leaves _ hp.2 (hk.2.2 p hpb)]
    · rfl

theorem changeSize_down_up {d : Mem} {u v : Nat} (hu : u < 1024) (hv : v ≤ 1024) (hv' : 0 < v)
    (hd : ospfsSize2nblocks (oiSize d oi) = 1) (hu' : 0 < u) :
    changeSize d oi u = some (.ok (), d.set32 oi u) ∧
      changeSize (d.set32 oi u) oi v = some (.ok (), (d.set32 oi u).set32 oi v) := by
  have hsize : oiSize (d.set32 oi u) oi = u := Mem.get32_set32_of_lt (by omega)
  refine ⟨changeSize_same ?_, changeSize_same ?_⟩
  · rw [hd]
    unfold ospfsSize2nblocks
    omega
  · rw [hsize]
    unfold ospfsSize2nblocks
    omega

/-- A file of one block of zeros is cut to one byte and gets a second one. -/
theorem sampleDisk_reused :
    ReadsZero (((sampleDisk 1 7).set32 3136 1).set32 3136 2) 3136 1 2 := by
  have hwf : sampleVolume.WellFormed (sampleDisk 1 7) 3136 1 :=
    sampleDisk_wellFormed (by decide) (by decide)
  obtain ⟨h₁, h₂⟩ := changeSize_down_up (u := 1) (v := 2) (by decide) (by decide) (by decide)
    hwf.size2nblocks (by decide)
  refine (changeSize_reuse_iff (hwf.held fun x hx => sampleDisk_boot hx) hwf.taken hwf.inode
    (sampleDisk_word (j := 785) (by decide) (by decide)) (by decide) (by decide) (by decide)
    (by decide) h₁ h₂).2 fun p hp hp' _ _ _ => ?_
  obtain rfl : p = 1 := by omega
  rw [show ptr (sampleDisk 1 7) 3136 (.leaf (1 / 1024)) = 4 by decide +kernel]
  decide +kernel

/-- The sample disk with a file of one block whose byte 4 is 9. -/
def usedDisk : Mem := (sampleDisk 1 7).set32 4100 9

theorem usedDisk_held : Held sampleVolume 3136 1 usedDisk ∧ Taken usedDisk 3136 := by
  have hwf : sampleVolume.WellFormed (sampleDisk 1 7) 3136 1 :=
    sampleDisk_wellFormed (by decide) (by decide)
  have hh := hwf.held fun x hx => sampleDisk_boot hx
  have hptr : ∀ p, ptr usedDisk 3136 p = ptr (sampleDisk 1 7) 3136 p := by
    refine ptr_congr fun q hq => Mem.get32_set32_ne ?_
    rcases hh.points.slot_cases hq with ⟨-, hi, hs⟩ | ⟨t, -, ht, hd, -⟩
    · omega
    · refine absurd (hwf.beyond t fun hu => ?_) hd.ne_zero
      unfold Place.InUse at hu
      cases t with
      | leaf b => exact ht
      | indirect => omega
      | indirect2 => omega
      | indir2 k => omega
  have hlow : ∀ x < 1024 * sampleVolume.firstinob, usedDisk x = sampleDisk 1 7 x := by
    intro x hx
    have : sampleVolume.firstinob = 3 := rfl
    exact Mem.set32_of_ne (by omega)
  have hsize : oiSize usedDisk 3136 = oiSize (sampleDisk 1 7) 3136 := Mem.get32_set32_ne (by decide)
  obtain ⟨hh', ht⟩ := hh.congr hlow hptr (hsize.symm ▸ hwf.size2nblocks)
  exact ⟨hh', ht hwf.taken⟩

/-- That file is cut to one byte and grows back to 1024: the byte 9 can be read. -/
theorem usedDisk_shows_old_data :
    Held sampleVolume 3136 1 usedDisk ∧ Taken usedDisk 3136 ∧ oiFtype usedDisk 3136 = ftypeReg ∧
    changeSize usedDisk 3136 1 = some (.ok (), usedDisk.set32 3136 1) ∧
    changeSize (usedDisk.set32 3136 1) 3136 1024 =
      some (.ok (), (usedDisk.set32 3136 1).set32 3136 1024) ∧
    ¬ ReadsZero ((usedDisk.set32 3136 1).set32 3136 1024) 3136 1 1024 := by
  obtain ⟨hh, ht⟩ := usedDisk_held
  obtain ⟨h₁, h₂⟩ := changeSize_down_up (u := 1) (v := 1024) (by decide) (by decide) (by decide)
    hh.count (by decide)
  refine ⟨hh, ht, by decide +kernel, h₁, h₂, fun hz => ?_⟩
  have hsize : 1024 = oiSize ((usedDisk.set32 3136 1).set32 3136 1024) 3136 :=
    (Mem.get32_set32_of_lt (by decide)).symm
  have hbyte := (readsZero_iff hsize).1 hz 4 (by decide) (by decide) (by decide +kernel)
  revert hbyte
  decide +kernel

end Volume

end OsLabs.Ospfs
