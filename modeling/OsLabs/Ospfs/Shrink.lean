import OsLabs.Ospfs.Volume

/-!
# OSPFS: shrinking a file

`remove_block` works on the block index behind the file's last block, so a file
that is cut from `n` to `k` blocks loses the blocks at `k + 1, …, n` and keeps
the one at `k`. `Keeps` is what every step of the loop leaves alone: the block
of index `i`, below the indexes that are removed, stays allocated. The one
other effect is on the boot block, whose words are taken for pointers when a
table is missing (`BootHit`).
-/

namespace OsLabs.Ospfs

namespace Volume

variable {V : Volume} {m m₁ m' : Mem} {oi n i k a b c w s x : Nat}

def BootHit (m m' : Mem) : Prop := ∃ x < 1024, m x ≠ 0 ∧ m' x = 0

/-- What `remove_block` changes before it sets the size: the bit of block `w`,
and words that are cleared. -/
structure Cleared (V : Volume) (oi c w : Nat) (m m' : Mem) : Prop where
  word : ∀ s, s % 4 = 0 → 1024 * V.firstinob ≤ s →
    m'.get32 s = m.get32 s ∨ m'.get32 s = 0
  super : ∀ x, 1024 ≤ x → x < 2048 → m' x = m x
  size : oiSize m' oi = oiSize m oi
  bit : ∀ b, b < V.nblocks → b ≠ w → isFree m' b = isFree m b
  top : oiIndirect2 m' oi = oiIndirect2 m oi ∨ c = 266

/-- The block `a` of file block `i` in a file of `c` blocks. -/
structure Keeps (V : Volume) (oi i a c : Nat) (m : Mem) : Prop where
  firstinob : osFirstinob m = V.firstinob
  count : ospfsSize2nblocks (oiSize m oi) = c
  points : V.Points m oi
  taken : V.Allocated m a
  mine : ∀ p, ptr m oi p = a → p = .leaf i
  deep : 266 < c → oiIndirect2 m oi ≠ 0

/-! ## Clearing words and bits -/

theorem Cleared.refl : Cleared V oi c w m m :=
  ⟨fun _ _ _ => .inl rfl, fun _ _ _ => rfl, rfl, fun _ _ _ => rfl, .inl rfl⟩

theorem Cleared.free (hoi : V.Inode oi) (hf : osFirstinob m = V.firstinob)
    (hw : w = 0 ∨ V.IsData w) : Cleared V oi c w m (freeBlock m w) := by
  rcases hw with rfl | hw
  · rw [freeBlock_zero hf]
    exact .refl
  rcases freeBlock_cases w m with he | he
  · rw [he]
    exact .refl
  obtain ⟨hlo, -, -⟩ := hoi.address
  rw [he]
  refine ⟨fun s _ hs => .inl ?_, fun x _ hx => set_of_ne hw.2 (by omega), ?_, fun b _ hb => ?_,
    .inl ?_⟩
  · exact Mem.get32_congr fun x hx _ => set_of_ne hw.2 (by omega)
  · exact Mem.get32_congr fun x hx _ => set_of_ne hw.2 (by omega)
  · rw [isFree_set]
    simp [Ne.symm hb]
  · exact Mem.get32_congr fun x hx _ => set_of_ne hw.2 (by omega)

theorem Cleared.zero (h : Cleared V oi c w m m₁) (hoi : V.Inode oi) (hal : s % 4 = 0)
    (hs : s < 1024 ∨ (oi + 16 ≤ s ∧ s < oi + 64) ∨ 1024 * V.firstdata ≤ s)
    (htop : s = oi + 60 → c = 266) : Cleared V oi c w m (m₁.set32 s 0) := by
  obtain ⟨hlo, hhi, hal'⟩ := hoi.address
  have := V.firstinob_ge
  have := V.firstdata_ge
  refine ⟨fun t ht hge => ?_, fun x h1 h2 => ?_, ?_, fun b hb hbw => ?_, ?_⟩
  · by_cases heq : t = s
    · subst heq
      exact .inr (Mem.get32_set32_of_lt (by decide))
    · rw [Mem.get32_set32_ne (by omega)]
      exact h.word t ht hge
  · rw [Mem.set32_of_ne (by omega)]
    exact h.super x h1 h2
  · rw [← h.size]
    exact Mem.get32_set32_ne (by omega)
  · rw [← h.bit b hb hbw]
    exact isFree_congr (fun x hx hx' => Mem.set32_of_ne (by omega)) hb
  · by_cases heq : s = oi + 60
    · exact .inr (htop heq)
    · have hsame : oiIndirect2 (m₁.set32 s 0) oi = oiIndirect2 m₁ oi :=
        Mem.get32_set32_ne (by omega)
      rw [hsame]
      exact h.top

theorem bootHit_of_word (h0 : m.get32 s ≠ 0) (hs : s + 4 ≤ 1024) :
    BootHit m (m₁.set32 s 0) := by
  have hbyte : ∃ i < 4, m (s + i) ≠ 0 := by
    by_contra hno
    simp only [not_exists, not_and, not_not] at hno
    exact h0 (Mem.get32_of_zero hno)
  obtain ⟨i, hi, hne⟩ := hbyte
  refine ⟨s + i, by omega, hne, ?_⟩
  unfold Mem.set32
  rw [if_pos (by omega), Nat.zero_div]
  rfl

theorem BootHit.zero (h : BootHit m m₁) : BootHit m (m₁.set32 s 0) := by
  obtain ⟨x, hx, h0, h1⟩ := h
  refine ⟨x, hx, h0, ?_⟩
  unfold Mem.set32
  split
  · rw [Nat.zero_div]
    rfl
  · exact h1

/-! ## `remove_block` -/

theorem Keeps.owned (h : Keeps V oi i a c m) (hi : i < c) :
    ptr m oi (.leaf c) ≠ a ∧ (ptr m oi (.leaf c) = 0 ∨ V.IsData (ptr m oi (.leaf c))) := by
  refine ⟨fun he => ?_, ?_⟩
  · have := h.mine _ he
    simp only [Place.leaf.injEq] at this
    omega
  · by_cases h0 : ptr m oi (.leaf c) = 0
    · exact .inl h0
    · exact .inr (h.points _ h0)

theorem Keeps.ne_zero (h : Keeps V oi i a c m) : a ≠ 0 := h.taken.1.ne_zero

theorem Keeps.removeDirect (h : Keeps V oi i a c m) (hoi : V.Inode oi) (hi : i < c) (hc : c < 10) :
    ∃ w, w ≠ a ∧ Cleared V oi c w m (removeDirect m oi c) := by
  obtain ⟨hne, hw⟩ := h.owned hi
  obtain ⟨-, -, hal⟩ := hoi.address
  have hptr : ptr m oi (.leaf c) = oiDirect m oi c := by
    simp only [ptr, hc, if_true]
  have hdir : directIndex c = c := directIndex_direct hc
  rw [hptr] at hne hw
  unfold Ospfs.removeDirect
  rw [hdir]
  exact ⟨_, hne, (Cleared.free hoi h.firstinob hw).zero hoi (by omega) (by omega) (by omega)⟩

theorem Keeps.clear_entry (h : Keeps V oi i a c m) (hoi : V.Inode oi) (hi : i < c)
    {t j : Nat} (ht : V.IsData t) (hptr : ptr m oi (.leaf c) = m.get32 (ospfsBlock t + 4 * j)) :
    ∃ w, w ≠ a ∧ Cleared V oi c w m
      ((freeBlock m (m.get32 (ospfsBlock t + 4 * j))).set32 (ospfsBlock t + 4 * j) 0) := by
  obtain ⟨hne, hw⟩ := h.owned hi
  obtain ⟨-, hhi, -⟩ := hoi.address
  have := ht.address
  rw [hptr] at hne hw
  refine ⟨_, hne, (Cleared.free hoi h.firstinob hw).zero hoi ?_ ?_ ?_⟩
  · rw [ht.block]
    omega
  · rw [ht.block]
    omega
  · rw [ht.block]
    omega

/-- There is no table: the word of the boot block is freed and cleared. -/
theorem Keeps.clear_boot (h : Keeps V oi i a c m) (hoi : V.Inode oi) {j : Nat} (hj : j < 256) :
    (∃ w, w ≠ a ∧ Cleared V oi c w m
      ((freeBlock m (m.get32 (ospfsBlock 0 + 4 * j))).set32 (ospfsBlock 0 + 4 * j) 0)) ∨
    BootHit m ((freeBlock m (m.get32 (ospfsBlock 0 + 4 * j))).set32 (ospfsBlock 0 + 4 * j) 0) := by
  have hz : ospfsBlock 0 = 0 := rfl
  obtain ⟨hlo, -, -⟩ := hoi.address
  have := V.firstinob_ge
  rw [hz]
  by_cases h0 : m.get32 (0 + 4 * j) = 0
  · refine .inl ⟨0, Ne.symm h.ne_zero, ?_⟩
    rw [h0]
    exact (Cleared.free hoi h.firstinob (.inl rfl)).zero hoi (by omega) (by omega) (by omega)
  · exact .inr (bootHit_of_word h0 (by omega))

theorem Keeps.removeIndirect (h : Keeps V oi i a c m) (hoi : V.Inode oi) (hi : i < c)
    (hc : 10 ≤ c) (hc' : c < 266) :
    (∃ w, w ≠ a ∧ Cleared V oi c w m (removeIndirect m oi c)) ∨
      BootHit m (removeIndirect m oi c) := by
  obtain ⟨-, -, hal⟩ := hoi.address
  have hdir : directIndex c = c - 10 := directIndex_indirect (by omega) (by omega)
  have hstep : (∃ w, w ≠ a ∧ Cleared V oi c w m
      ((freeBlock m (m.get32 (ospfsBlock (oiIndirect m oi) + 4 * (c - 10)))).set32
        (ospfsBlock (oiIndirect m oi) + 4 * (c - 10)) 0)) ∨
      BootHit m ((freeBlock m (m.get32 (ospfsBlock (oiIndirect m oi) + 4 * (c - 10)))).set32
        (ospfsBlock (oiIndirect m oi) + 4 * (c - 10)) 0) := by
    by_cases h0 : oiIndirect m oi = 0
    · rw [h0]
      exact h.clear_boot hoi (by omega)
    · refine .inl (h.clear_entry hoi hi (h.points .indirect h0) ?_)
      have h10 : ¬ c < 10 := by omega
      simp only [ptr, h10, hc', entry, h0, if_true, if_false]
  unfold Ospfs.removeIndirect
  rw [hdir]
  simp only
  split
  · rcases hstep with ⟨w, hne, hcl⟩ | hb
    · exact .inl ⟨w, hne, hcl.zero hoi (by omega) (by omega) (by omega)⟩
    · exact .inr hb.zero
  · exact hstep

/-- The words that `remove_block` clears when it drops a table under the doubly
indirect block at address `d`. -/
theorem drop_table (hoi : V.Inode oi) {d j : Nat} (hd : d < 1024 ∨ 1024 * V.firstdata ≤ d)
    (hdal : d % 4 = 0) (hlow : d < 1024 → d + 4 * j < 1024) (hj : j = 0 → c = 266)
    (h : (∃ w, w ≠ a ∧ Cleared V oi c w m m₁) ∨ BootHit m m₁) :
    let m₂ := m₁.set32 (d + 4 * j) 0
    let m₃ := if j = 0 then m₂.set32 (oi + 60) 0 else m₂
    (∃ w, w ≠ a ∧ Cleared V oi c w m m₃) ∨ BootHit m m₃ := by
  obtain ⟨hlo, hhi, hal⟩ := hoi.address
  have := V.firstinob_ge
  intro m₂ m₃
  rcases h with ⟨w, hne, hcl⟩ | hb
  · have h₂ : Cleared V oi c w m m₂ := hcl.zero hoi (by omega) (by omega) (by omega)
    refine .inl ⟨w, hne, ?_⟩
    show Cleared V oi c w m (if j = 0 then m₂.set32 (oi + 60) 0 else m₂)
    split
    · rename_i h0
      exact h₂.zero hoi (by omega) (by omega) fun _ => hj h0
    · exact h₂
  · refine .inr ?_
    show BootHit m (if j = 0 then m₂.set32 (oi + 60) 0 else m₂)
    split
    · exact hb.zero.zero
    · exact hb.zero

theorem Keeps.removeIndirect2 (h : Keeps V oi i a c m) (hoi : V.Inode oi) (hi : i < c)
    (hc : 266 ≤ c) (hc' : c ≤ maxfileblks)
    (hend : c = maxfileblks → m.get32 (ospfsBlock (oiIndirect2 m oi) + 1024) = 0) :
    (∃ w, w ≠ a ∧ Cleared V oi c w m (removeIndirect2 m oi c)) ∨
      BootHit m (removeIndirect2 m oi c) := by
  unfold maxfileblks at hc' hend
  have hdir : directIndex c = (c - 266) % 256 := directIndex_indirect2 (by omega)
  have hind : (indirIndex c).toNat = (c - 266) / 256 := toNat_indirIndex (by omega)
  unfold Ospfs.removeIndirect2
  rw [hdir, hind]
  simp only
  generalize hd : ospfsBlock (oiIndirect2 m oi) = d
  generalize ht : m.get32 (d + 4 * ((c - 266) / 256)) = t
  by_cases hD : oiIndirect2 m oi = 0
  · -- no doubly indirect block: its entry is the first word of the boot block
    have hc266 : c = 266 := by
      by_contra hne
      exact h.deep (by omega) hD
    subst hc266
    have hd0 : d = 0 := by
      rw [← hd, hD]
      rfl
    subst hd0
    by_cases h0 : t = 0
    · subst h0
      rw [if_pos rfl]
      exact drop_table hoi (.inl (by omega)) rfl (by omega) (fun _ => rfl)
        (h.clear_boot hoi (by omega))
    · rw [if_pos rfl, if_pos rfl]
      refine .inr (BootHit.zero (bootHit_of_word ?_ (by omega)))
      rw [ht]
      exact h0
  have hDd : V.IsData (oiIndirect2 m oi) := h.points .indirect2 hD
  have haddr := hDd.address
  have hblock : 1024 * oiIndirect2 m oi = d := by rw [← hd, hDd.block]
  have hstep : (∃ w, w ≠ a ∧ Cleared V oi c w m
      ((freeBlock m (m.get32 (ospfsBlock t + 4 * ((c - 266) % 256)))).set32
        (ospfsBlock t + 4 * ((c - 266) % 256)) 0)) ∨
      BootHit m ((freeBlock m (m.get32 (ospfsBlock t + 4 * ((c - 266) % 256)))).set32
        (ospfsBlock t + 4 * ((c - 266) % 256)) 0) := by
    by_cases h0 : t = 0
    · rw [h0]
      exact h.clear_boot hoi (by omega)
    have hlt : c < 65802 := by
      by_contra hge
      have hmax : (c - 266) / 256 = 256 := by omega
      rw [hd] at hend
      rw [hmax, hend (by omega)] at ht
      exact h0 ht.symm
    have hk : (c - 266) / 256 < 256 := by omega
    have hpt : ptr m oi (.indir2 ((c - 266) / 256)) = t := by
      simp only [ptr, hk, if_true, entry, hD, if_false]
      rw [hd, ht]
    refine .inl (h.clear_entry hoi hi (hpt ▸ h.points _ (hpt.trans_ne h0)) ?_)
    rw [← hpt]
    have h10 : ¬ c < 10 := by omega
    have h266 : ¬ c < 266 := by omega
    have hmax : c < maxfileblks := hlt
    have he0 : entry m (oiIndirect2 m oi) ((c - 266) / 256) ≠ 0 := by
      have := hpt.trans_ne h0
      simpa only [ptr, hk, if_true] using this
    simp only [ptr, h10, h266, hmax, hk, if_true, if_false]
    rw [entry, if_neg he0]
  split
  · have := V.firstinob_ge
    have := V.firstdata_ge
    exact drop_table hoi (.inr (by omega)) (by omega) (by omega) (by omega) hstep
  · exact hstep

/-- **One step of the loop**: the block of index `i` stays, or the boot block is hit. -/
theorem Keeps.removeBlock (h : Keeps V oi i a c m) (hoi : V.Inode oi) (hi : i < c)
    (hc : c ≤ maxfileblks)
    (hend : c = maxfileblks → m.get32 (ospfsBlock (oiIndirect2 m oi) + 1024) = 0) :
    Keeps V oi i a (c - 1) (removeBlock m oi) ∨ BootHit m (removeBlock m oi) := by
  obtain ⟨hlo, hhi, hal⟩ := hoi.address
  have := V.firstinob_ge
  have := V.firstdata_ge
  generalize hm₁ : (if indir2Index c = 0 then Ospfs.removeIndirect2 m oi c
    else if indirIndex c = 0 then Ospfs.removeIndirect m oi c
    else Ospfs.removeDirect m oi c) = m₁
  have heq : Ospfs.removeBlock m oi = m₁.set32 oi (oiSize m₁ oi + (2 ^ 32 - 1024)) := by
    unfold Ospfs.removeBlock
    rw [h.count]
    simp only [hm₁]
  have hstep : (∃ w, w ≠ a ∧ Cleared V oi c w m m₁) ∨ BootHit m m₁ := by
    rw [← hm₁]
    by_cases h10 : c < 10
    · have h2 : indir2Index c ≠ 0 := by
        unfold indir2Index
        rw [if_pos (by omega)]
        decide
      have h1 : indirIndex c ≠ 0 := by
        rw [indirIndex_direct h10]
        decide
      rw [if_neg h2, if_neg h1]
      exact .inl (h.removeDirect hoi hi h10)
    by_cases h266 : c < 266
    · have h2 : indir2Index c ≠ 0 := by
        unfold indir2Index
        rw [if_pos h266]
        decide
      have h1 : indirIndex c = 0 := indirIndex_indirect (by omega) h266
      rw [if_neg h2, if_pos h1]
      exact h.removeIndirect hoi hi (by omega) h266
    · have h2 : indir2Index c = 0 := by
        unfold indir2Index
        rw [if_neg h266]
      rw [if_pos h2]
      exact h.removeIndirect2 hoi hi (by omega) hc hend
  rw [heq]
  rcases hstep with ⟨w, hne, hcl⟩ | ⟨x, hx, h0, h1⟩
  · have hptr : ∀ p, ptr (m₁.set32 oi (oiSize m₁ oi + (2 ^ 32 - 1024))) oi p = ptr m oi p ∨
        ptr (m₁.set32 oi (oiSize m₁ oi + (2 ^ 32 - 1024))) oi p = 0 := by
      refine ptr_erase fun p hp => ?_
      obtain ⟨hsal, hge, hsl⟩ := h.points.slot_range hoi hp
      rw [Mem.get32_set32_ne (by omega)]
      exact hcl.word _ hsal hge
    refine .inl ⟨?_, ?_, fun p h0 => ?_, ⟨h.taken.1, ?_⟩, fun p hp => ?_, fun hdeep => ?_⟩
    · rw [← h.firstinob]
      refine Mem.get32_congr fun x hx hx' => ?_
      rw [Mem.set32_of_ne (by omega)]
      exact hcl.super x (by omega) (by omega)
    · have hcount := h.count
      have hsize : oiSize (m₁.set32 oi (oiSize m₁ oi + (2 ^ 32 - 1024))) oi =
          (oiSize m oi + (2 ^ 32 - 1024)) % 2 ^ 32 := by
        rw [← hcl.size]
        exact Mem.get32_set32
      rw [hsize, size2nblocks_sub (by omega), hcount]
    · rcases hptr p with hp | hp
      · rw [hp] at h0 ⊢
        exact h.points p h0
      · exact absurd hp h0
    · rw [isFree_congr (fun x _ _ => Mem.set32_of_ne (by omega)) h.taken.1.2,
        hcl.bit a h.taken.1.2 (Ne.symm hne)]
      exact h.taken.2
    · rcases hptr p with hp' | hp'
      · exact h.mine p (hp' ▸ hp)
      · exact absurd (hp.symm.trans hp') h.ne_zero
    · have htop : oiIndirect2 (m₁.set32 oi (oiSize m₁ oi + (2 ^ 32 - 1024))) oi =
          oiIndirect2 m₁ oi := Mem.get32_set32_ne (by omega)
      rw [htop]
      rcases hcl.top with ht | ht
      · rw [ht]
        exact h.deep (by omega)
      · omega
  · exact .inr ⟨x, hx, h0, by rw [Mem.set32_of_ne (by omega)]; exact h1⟩

theorem removeBlock_boot (hoi : V.Inode oi) (hx : x < 1024) (h0 : m x = 0) :
    removeBlock m oi x = 0 := by
  obtain ⟨hlo, -, -⟩ := hoi.address
  have := V.firstinob_ge
  have hset (m₁ : Mem) (s : Nat) (h : m₁ x = 0) : m₁.set32 s 0 x = 0 := by
    unfold Mem.set32
    split
    · rw [Nat.zero_div]
      rfl
    · exact h
  have hfree (w : Nat) : freeBlock m w x = 0 := by
    rcases freeBlock_cases w m with he | he
    · rw [he]
      exact h0
    · rw [he]
      unfold bitvectorSet
      rw [Mem.set32_of_ne (by omega)]
      exact h0
  unfold Ospfs.removeBlock
  rw [Mem.set32_of_ne (by omega)]
  split
  · unfold Ospfs.removeIndirect2
    simp only
    split
    · split
      · exact hset _ _ (hset _ _ (hset _ _ (hfree _)))
      · exact hset _ _ (hset _ _ (hfree _))
    · exact hset _ _ (hfree _)
  split
  · unfold Ospfs.removeIndirect
    split
    · exact hset _ _ (hset _ _ (hfree _))
    · exact hset _ _ (hfree _)
  · exact hset _ _ (hfree _)

theorem shrinkLoop_boot (hoi : V.Inode oi) (hx : x < 1024) {newSize fuel : Nat} (h0 : m x = 0)
    (hr : shrinkLoop oi newSize fuel m = some m') : m' x = 0 := by
  induction fuel generalizing m with
  | zero =>
    rw [shrinkLoop] at hr
    split at hr
    · cases hr
    · cases hr
      exact h0
  | succ fuel ih =>
    rw [shrinkLoop] at hr
    split at hr
    · exact ih (removeBlock_boot hoi hx h0) hr
    · cases hr
      exact h0

/-! ## `change_size` to a smaller size -/

theorem Keeps.shrinkLoop (hoi : V.Inode oi) {newSize fuel : Nat}
    (hi : ospfsSize2nblocks newSize = i)
    (h : Keeps V oi i a c m) (hic : i ≤ c) (hc : c ≤ maxfileblks)
    (hend : c = maxfileblks → m.get32 (ospfsBlock (oiIndirect2 m oi) + 1024) = 0)
    (hfuel : c ≤ fuel) :
    (∃ m', shrinkLoop oi newSize fuel m = some m' ∧ Keeps V oi i a i m') ∨
      ∃ x < 1024, m x ≠ 0 ∧ ∀ m', Ospfs.shrinkLoop oi newSize fuel m = some m' → m' x = 0 := by
  induction fuel generalizing m c with
  | zero =>
    obtain rfl : c = 0 := by omega
    obtain rfl : i = 0 := by omega
    exact .inl ⟨m, shrinkLoop_done (by rw [h.count, hi]), h⟩
  | succ fuel ih =>
    rcases Nat.eq_or_lt_of_le hic with rfl | hlt
    · exact .inl ⟨m, shrinkLoop_done (by rw [h.count, hi]), h⟩
    rw [shrinkLoop_remove (by rw [h.count, hi]; exact hlt)]
    rcases h.removeBlock hoi hlt hc hend with hk | ⟨x, hx, h0, h1⟩
    · rcases ih hk (by omega) (by omega) (by omega) (by omega) with hdone | ⟨x, hx, h0, hz⟩
      · exact .inl hdone
      · exact .inr ⟨x, hx, fun hm => h0 (removeBlock_boot hoi hx hm), hz⟩
    · exact .inr ⟨x, hx, h0, fun m' hr => shrinkLoop_boot hoi hx h1 hr⟩

theorem WellFormed.keeps (h : V.WellFormed m oi n) (hi : i < n) :
    Keeps V oi i (ptr m oi (.leaf i)) n m :=
  ⟨h.mounted.firstinob, h.size2nblocks, h.points, h.used _ hi,
    fun _ hp => (h.inj _ _ (h.used (.leaf i) hi).1.ne_zero hp.symm).symm,
    fun hn => (h.used .indirect2 hn).1.ne_zero⟩

theorem WellFormed.changeSize_shrink (h : V.WellFormed m oi n) (newSize : Nat)
    (hk : ospfsSize2nblocks newSize < n)
    (hend : n = maxfileblks → m.get32 (ospfsBlock (oiIndirect2 m oi) + 1024) = 0) :
    (∃ m', changeSize m oi newSize = some (.ok (), m') ∧
      isFree m' (ptr m oi (.leaf (ospfsSize2nblocks newSize))) = false) ∨
    ∃ x < 1024, m x ≠ 0 ∧ ∀ m', changeSize m oi newSize = some (.ok (), m') → m' x = 0 := by
  obtain ⟨hlo, -, -⟩ := h.inode.address
  have := V.firstinob_ge
  have hgrow : growLoop oi newSize (ospfsSize2nblocks newSize) 0 m = some (.ok (), m) :=
    growLoop_done (by rw [h.size2nblocks]; omega)
  have heq : changeSize m oi newSize = (shrinkLoop oi newSize n m).map fun m =>
      (.ok (), m.set32 oi newSize) := by
    unfold changeSize
    rw [hgrow]
    simp only [Option.bind_eq_bind, Option.bind_some, h.size2nblocks]
    cases shrinkLoop oi newSize n m <;> rfl
  rw [heq]
  have hkeeps := h.keeps hk
  rcases hkeeps.shrinkLoop h.inode rfl (Nat.le_of_lt hk) h.within hend (Nat.le_refl n) with
    ⟨m', hm', hk'⟩ | ⟨x, hx, h0, hz⟩
  · refine .inl ⟨_, by rw [hm']; rfl, ?_⟩
    rw [isFree_congr (fun x _ _ => Mem.set32_of_ne (by omega)) hk'.taken.1.2]
    exact hk'.taken.2
  · refine .inr ⟨x, hx, h0, fun m' hr => ?_⟩
    cases hs : shrinkLoop oi newSize n m with
    | none =>
      rw [hs] at hr
      cases hr
    | some m₁ =>
      rw [hs] at hr
      cases hr
      rw [Mem.set32_of_ne (by omega)]
      exact hz m₁ hs

/-- The tail of a file of `n` blocks is freed and nothing else: the outcome of
`change_size` to `k` blocks as its comment has it. -/
structure TailFreed (V : Volume) (oi n k : Nat) (m m' : Mem) : Prop where
  kept : ∀ p : Place, p.InUse k → ptr m' oi p = ptr m oi p
  freed : ∀ p : Place, p.InUse n → ¬ p.InUse k →
    isFree m' (ptr m oi p) = true ∧ ptr m' oi p = 0
  beyond : ∀ p : Place, ¬ p.InUse n → ptr m' oi p = 0
  bits : ∀ b < V.nblocks, (∀ p : Place, p.InUse n → ¬ p.InUse k → ptr m oi p ≠ b) →
    isFree m' b = isFree m b
  bytes : ∀ x, x < 2048 ∨ 1024 * V.firstinob ≤ x → x < oi ∨ oi + 64 ≤ x →
    (∀ p : Place, p.IsTable → p.InUse n → x < 1024 * ptr m oi p ∨ 1024 * ptr m oi p + 1024 ≤ x) →
    m' x = m x

/-- **Shrinking never frees exactly the tail**: whatever the file and the new
size, `change_size` leaves the first block it should free marked allocated, or
clears bytes of the boot block. -/
theorem changeSize_not_tailFreed (h : V.WellFormed m oi n) {newSize : Nat}
    (hk : ospfsSize2nblocks newSize < n)
    (hend : n = maxfileblks → m.get32 (ospfsBlock (oiIndirect2 m oi) + 1024) = 0) :
    ¬ ∃ m', changeSize m oi newSize = some (.ok (), m') ∧
      TailFreed V oi n (ospfsSize2nblocks newSize) m m' := by
  rintro ⟨m', hr, ht⟩
  rcases h.changeSize_shrink _ hk hend with ⟨m₁, hr₁, hbit⟩ | ⟨x, hx, h0, hz⟩
  · rw [hr₁] at hr
    cases hr
    have hfree := (ht.freed (.leaf (ospfsSize2nblocks newSize)) hk (Nat.lt_irrefl _)).1
    rw [hbit] at hfree
    cases hfree
  · obtain ⟨hlo, -, -⟩ := h.inode.address
    have := V.firstinob_ge
    have := V.firstdata_ge
    refine h0 ?_
    rw [← hz m' hr]
    refine (ht.bytes x (.inl (by omega)) (.inl (by omega)) fun p _ hp => .inl ?_).symm
    have := (h.used p hp).1.address
    omega

/-- The same for a file of one block that is emptied. -/
theorem sampleDisk_not_tailFreed : ¬ ∃ m', changeSize (sampleDisk 1 0) 3136 0 = some (.ok (), m') ∧
    TailFreed sampleVolume 3136 1 0 (sampleDisk 1 0) m' :=
  changeSize_not_tailFreed (sampleDisk_wellFormed (by decide) (by decide)) (by decide)
    fun h => absurd h (by decide)

/-- A file of one block is emptied: the call returns 0, and the block is still
marked allocated. -/
theorem firstBlock_not_freed : sampleVolume.WellFormed (sampleDisk 1 0) 3136 1 ∧
    ∃ m', changeSize (sampleDisk 1 0) 3136 0 = some (.ok (), m') ∧
      ptr (sampleDisk 1 0) 3136 (.leaf 0) = 4 ∧ isFree m' 4 = false ∧
      ¬ TailFreed sampleVolume 3136 1 0 (sampleDisk 1 0) m' := by
  have hwf : sampleVolume.WellFormed (sampleDisk 1 0) 3136 1 :=
    sampleDisk_wellFormed (by decide) (by decide)
  have hptr : ptr (sampleDisk 1 0) 3136 (.leaf 0) = 4 :=
    (sampleDisk_leaf (by decide) (by decide) 0).trans rfl
  rcases hwf.changeSize_shrink 0 (by decide) (fun h => absurd h (by decide)) with
    ⟨m', hr, hbit⟩ | ⟨x, hx, h0, -⟩
  · have hk : ospfsSize2nblocks 0 = 0 := rfl
    rw [hk, hptr] at hbit
    refine ⟨hwf, m', hr, hptr, hbit, fun ht => ?_⟩
    have hfree := (ht.freed (.leaf 0) Nat.one_pos (Nat.lt_irrefl 0)).1
    rw [hptr, hbit] at hfree
    cases hfree
  · exact absurd (sampleDisk_boot hx) h0

end Volume

end OsLabs.Ospfs
