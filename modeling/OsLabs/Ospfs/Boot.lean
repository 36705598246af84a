import OsLabs.Ospfs.Lengthen

/-!
# OSPFS: growing without the boot block

A missing table leads `remove_block` to the boot block, but `add_block` never
reads it. So a file grows the same way on two disks that agree behind the boot
block (`Above`), as long as the rollback meets no missing table, and what is
proved for an empty boot block holds for any (`Intact.grow_unread` in `Extend`).
-/

namespace OsLabs.Ospfs

def Above (m w : Mem) : Prop := ∀ x, 1024 ≤ x → w x = m x

def AboveBoth {α : Type} (r s : α × Mem) : Prop := s.1 = r.1 ∧ Above r.2 s.2

def emptyBoot (m : Mem) : Mem := m.fill 0 1024 0

variable {m w : Mem} {oi n a b c d i r : Nat}

theorem emptyBoot_above (m : Mem) : Above m (emptyBoot m) := fun _ hx =>
  Mem.fill_of_ne (by omega)

theorem emptyBoot_zero (m : Mem) : BootZero (emptyBoot m) := fun _ hx =>
  Mem.fill_of_mem (Nat.zero_le _) (by omega)

theorem Above.symm (h : Above m w) : Above w m := fun x hx => (h x hx).symm

/-! ## Words and blocks -/

theorem Above.get32 (h : Above m w) (ha : 1024 ≤ a) : w.get32 a = m.get32 a :=
  Mem.get32_congr fun x hx _ => h x (by omega)

theorem Above.set32 (h : Above m w) (a v : Nat) : Above (m.set32 a v) (w.set32 a v) := by
  intro x hx
  unfold Mem.set32
  rw [h x hx]

theorem Above.clearBlock (h : Above m w) (b : Nat) :
    Above (Ospfs.clearBlock m b) (Ospfs.clearBlock w b) := by
  intro x hx
  unfold Ospfs.clearBlock Mem.fill
  rw [h x hx]

theorem Above.bitvectorTest (h : Above m w) (i : Nat) :
    Ospfs.bitvectorTest w (ospfsBlock 2) i = Ospfs.bitvectorTest m (ospfsBlock 2) i := by
  have h2 : ospfsBlock 2 = 2048 := by decide
  unfold Ospfs.bitvectorTest
  rw [h.get32 (by omega)]

theorem Above.bitvectorSet (h : Above m w) (i : Nat) :
    Above (Ospfs.bitvectorSet m (ospfsBlock 2) i) (Ospfs.bitvectorSet w (ospfsBlock 2) i) := by
  have h2 : ospfsBlock 2 = 2048 := by decide
  unfold Ospfs.bitvectorSet
  rw [h.get32 (by omega)]
  exact h.set32 _ _

theorem Above.bitvectorClear (h : Above m w) (i : Nat) :
    Above (Ospfs.bitvectorClear m (ospfsBlock 2) i) (Ospfs.bitvectorClear w (ospfsBlock 2) i) := by
  have h2 : ospfsBlock 2 = 2048 := by decide
  unfold Ospfs.bitvectorClear
  rw [h.get32 (by omega)]
  exact h.set32 _ _

theorem Above.allocateBlock (h : Above m w) :
    AboveBoth (Ospfs.allocateBlock m) (Ospfs.allocateBlock w) := by
  have hfrom (k i : Nat) : AboveBoth (allocateFrom m k i) (allocateFrom w k i) := by
    induction k generalizing i with
    | zero => exact ⟨rfl, h⟩
    | succ k ih =>
      rw [allocateFrom, allocateFrom, h.bitvectorTest]
      split
      · exact ⟨rfl, h.bitvectorClear i⟩
      · exact ih (i + 1)
  have hn : osNblocks w = osNblocks m := h.get32 (by decide)
  unfold Ospfs.allocateBlock
  rw [hn]
  exact hfrom _ _

theorem Above.freeBlock (h : Above m w) (b : Nat) :
    Above (Ospfs.freeBlock m b) (Ospfs.freeBlock w b) := by
  have hf : osFirstinob w = osFirstinob m := h.get32 (by decide)
  unfold Ospfs.freeBlock
  rw [hf, h.bitvectorTest]
  split
  · exact h
  split
  · exact h
  · exact h.bitvectorSet b

theorem Above.freeBlocks (hm : Above m w) : Ospfs.freeBlocks w = Ospfs.freeBlocks m := by
  have hn : osNblocks w = osNblocks m := hm.get32 (by decide)
  unfold Ospfs.freeBlocks
  rw [hn]
  congr 1
  exact Finset.filter_congr fun b _ => by rw [show isFree w b = isFree m b from hm.bitvectorTest b]

/-! ## `add_block` -/

theorem AboveBoth.addSize {r s : Ret × Mem} (h : AboveBoth r s) (hoi : 1024 ≤ oi) :
    AboveBoth (addSize oi r) (addSize oi s) := by
  obtain ⟨r, m⟩ := r
  obtain ⟨s, w⟩ := s
  obtain ⟨hr, hm⟩ := h
  obtain rfl : s = r := hr
  have hsize : oiSize w oi = oiSize m oi := hm.get32 hoi
  rcases s with e | u
  · exact ⟨rfl, hm⟩
  · refine ⟨rfl, ?_⟩
    simp only [Ospfs.addSize, hsize]
    exact hm.set32 _ _

theorem Above.addIndirect (h : Above m w) (hoi : 1024 ≤ oi) (n b : Nat) :
    AboveBoth (Ospfs.addIndirect m oi n b) (Ospfs.addIndirect w oi n b) := by
  obtain ⟨ha, hm⟩ := h.allocateBlock
  have hI : oiIndirect w oi = oiIndirect m oi := h.get32 (by omega)
  unfold Ospfs.addIndirect
  simp only [hI, ha]
  split
  · split
    · exact ⟨rfl, hm.freeBlock b⟩
    · have hm' := (hm.clearBlock (Ospfs.allocateBlock m).1).set32 (oi + 56)
        (Ospfs.allocateBlock m).1
      have hI' := hm'.get32 (a := oi + 56) (by omega)
      unfold oiIndirect
      rw [hI']
      exact ⟨rfl, hm'.set32 _ _⟩
  · exact ⟨rfl, h.set32 _ _⟩

theorem Above.addUnder (h : Above m w) (hoi : 1024 ≤ oi)
    (hd : 1024 ≤ ospfsBlock (oiIndirect2 w oi)) (n b d : Nat) :
    AboveBoth (Ospfs.addUnder m oi n b d) (Ospfs.addUnder w oi n b d) := by
  obtain ⟨ha, hm⟩ := h.allocateBlock
  have hD : oiIndirect2 w oi = oiIndirect2 m oi := h.get32 (by omega)
  rw [hD] at hd
  have hread := h.get32 (a := ospfsBlock (oiIndirect2 m oi) + 4 * (indirIndex n).toNat) (by omega)
  unfold Ospfs.addUnder
  simp only [hD, hread, ha]
  split
  · split
    · refine ⟨rfl, ?_⟩
      split
      · exact (hm.freeBlock b).freeBlock d
      · exact hm.freeBlock b
    · exact ⟨rfl, (hm.clearBlock _).set32 _ _⟩
  · exact ⟨rfl, h.set32 _ _⟩

namespace Volume

variable {V : Volume} {w₀ : Mem} {p : Place}

theorem IsData.behind (h : V.IsData b) : 1024 ≤ ospfsBlock b := by
  have := Nat.pos_of_ne_zero h.ne_zero
  rw [h.block]
  omega

theorem Inode.behind (h : V.Inode oi) : 1024 ≤ oi := by
  obtain ⟨hlo, -, -⟩ := h.address
  have := V.firstinob_ge
  omega

theorem Along.addIndirect2_above (h : Along V oi w₀ w) (hoi : V.Inode oi) (hm : Above m w)
    (n b : Nat) : AboveBoth (addIndirect2 m oi n b) (addIndirect2 w oi n b) := by
  have hin := hoi.behind
  have hD : oiIndirect2 w oi = oiIndirect2 m oi := hm.get32 (by omega)
  obtain ⟨ha, hm₁⟩ := hm.allocateBlock
  unfold addIndirect2
  simp only [hD, ← ha]
  split
  · split
    · exact ⟨rfl, hm₁.freeBlock b⟩
    · rename_i h0
      obtain ⟨he, -⟩ | ⟨d, he, -, hd, -⟩ := h.allocate hoi
      · exact absurd (congrArg Prod.fst he) h0
      rw [he] at hm₁ ⊢
      refine ((hm₁.clearBlock d).set32 (oi + 60) d).addUnder hin ?_ n b d
      have hval : oiIndirect2 ((clearBlock (bitvectorClear w 2048 d) d).set32 (oi + 60) d) oi = d :=
        Mem.get32_set32_of_lt (by have := hd.2; have := V.addressed; omega)
      rw [hval]
      exact hd.behind
  · rename_i h0
    rw [← hD] at h0
    exact hm.addUnder hin (h.points .indirect2 h0).behind n b 0

/-- `add_block` does not read the boot block. -/
theorem Along.addBlock_above (h : Along V oi w w) (hoi : V.Inode oi) (hm : Above m w) :
    AboveBoth (addBlock m oi) (addBlock w oi) := by
  have hin := hoi.behind
  have hsize : oiSize w oi = oiSize m oi := hm.get32 hin
  obtain ⟨hb, hm₁⟩ := hm.allocateBlock
  rw [addBlock_eq, addBlock_eq]
  simp only [hsize, ← hb]
  split
  · exact ⟨rfl, hm⟩
  split
  · exact ⟨rfl, hm₁⟩
  rename_i h0
  obtain ⟨he, -⟩ | ⟨b, he, hcl, hbd, -, h₁, -⟩ := h.allocate hoi
  · exact absurd (congrArg Prod.fst he) h0
  have hm₂ := hm₁.clearBlock b
  rw [he] at hm₂ ⊢
  rw [hcl] at hm₂ ⊢
  refine AboveBoth.addSize ?_ hin
  split
  · exact ⟨rfl, hm₂.set32 _ _⟩
  split
  · exact hm₂.addIndirect hin _ b
  · exact h₁.addIndirect2_above hoi hm₂ _ b

/-! ## `remove_block` -/

/-- Nor does `remove_block` where the table of its block is there. -/
theorem Held.removeBlock_above (h : Held V oi c w) (hoi : V.Inode oi) (hm : Above m w)
    (hp : Present w oi (.leaf c)) : Above (Ospfs.removeBlock m oi) (Ospfs.removeBlock w oi) := by
  have hin := hoi.behind
  have hsize : oiSize w oi = oiSize m oi := hm.get32 hin
  have hcount : ospfsSize2nblocks (oiSize m oi) = c := by rw [← hsize, h.count]
  have hcl : Above
      (if indir2Index c = 0 then Ospfs.removeIndirect2 m oi c
        else if indirIndex c = 0 then Ospfs.removeIndirect m oi c
        else Ospfs.removeDirect m oi c)
      (if indir2Index c = 0 then Ospfs.removeIndirect2 w oi c
        else if indirIndex c = 0 then Ospfs.removeIndirect w oi c
        else Ospfs.removeDirect w oi c) := by
    unfold indir2Index
    obtain ⟨h10, -⟩ | ⟨h10, h266, hpar, -⟩ | ⟨h266, hpar, -⟩ := Place.leaf_cases c
    · rw [if_pos (show c < 10 + 256 by omega), if_neg (by decide), indirIndex_direct h10,
        if_neg (by decide)]
      have hd : oiDirect w oi (directIndex c) = oiDirect m oi (directIndex c) :=
        hm.get32 (by omega)
      unfold Ospfs.removeDirect
      simp only [hd]
      exact (hm.freeBlock _).set32 _ _
    · rw [if_pos (show c < 10 + 256 from h266), if_neg (by decide), indirIndex_indirect h10 h266,
        if_pos rfl]
      have hI : oiIndirect w oi = oiIndirect m oi := hm.get32 (by omega)
      have htab : 1024 ≤ ospfsBlock (oiIndirect m oi) := by
        rw [← hI]
        exact (h.points .indirect (hp.2 _ hpar)).behind
      unfold Ospfs.removeIndirect
      simp only [hI]
      rw [hm.get32 (by omega)]
      split
      · exact ((hm.freeBlock _).set32 _ _).set32 _ _
      · exact (hm.freeBlock _).set32 _ _
    · rw [if_neg (show ¬ c < 10 + 256 by omega), if_pos rfl]
      have hD : oiIndirect2 w oi = oiIndirect2 m oi := hm.get32 (by omega)
      have ht0 := hp.2 _ hpar
      have ht := present_of_ne_zero ht0
      have htop : 1024 ≤ ospfsBlock (oiIndirect2 m oi) := by
        rw [← hD]
        exact (h.points .indirect2 (ht.2 _ rfl)).behind
      have hi : (indirIndex c).toNat = (c - 266) / 256 := toNat_indirIndex h266
      have hread : w.get32 (ospfsBlock (oiIndirect2 m oi) + 4 * ((c - 266) / 256)) =
          ptr w oi (.indir2 ((c - 266) / 256)) := by
        rw [ptr_of_present ht, ← hD]
        rfl
      have htab : 1024 ≤ ospfsBlock (m.get32 (ospfsBlock (oiIndirect2 m oi) +
          4 * ((c - 266) / 256))) := by
        rw [← hm.get32 (by omega), hread]
        exact (h.points _ ht0).behind
      unfold Ospfs.removeIndirect2
      simp only [hD, hi]
      rw [hm.get32 (a := ospfsBlock (oiIndirect2 m oi) + 4 * ((c - 266) / 256)) (by omega),
        hm.get32 (by omega)]
      split
      · split
        · exact (((hm.freeBlock _).set32 _ _).set32 _ _).set32 _ _
        · exact ((hm.freeBlock _).set32 _ _).set32 _ _
      · exact (hm.freeBlock _).set32 _ _
  unfold Ospfs.removeBlock
  simp only [h.count, hcount]
  have hsize' := hcl.get32 hin
  unfold oiSize
  rw [hsize']
  exact hcl.set32 _ _

theorem Held.removeBlocks_above (h : Held V oi c w) (hoi : V.Inode oi) (hm : Above m w)
    (hc : c < maxfileblks) (hr : r ≤ c)
    (hp : ∀ b ≤ c, c < b + r → Present w oi (.leaf b)) :
    Above (Ospfs.removeBlocks oi r m) (Ospfs.removeBlocks oi r w) := by
  induction r generalizing m w c with
  | zero => exact hm
  | succ r ih =>
    have htrim := h.removeBlock hoi (by omega) (Nat.le_of_lt hc) (by omega)
    refine ih htrim.held (h.removeBlock_above hoi hm (hp c (Nat.le_refl c) (by omega))) (by omega)
      (by omega) fun b hb hlt => ?_
    refine (place_congr fun q hq => htrim.kept q ?_).1.2 (hp b (by omega) (by omega))
    exact Place.inUse_of_parent hq (n := c) (show b < c by omega)

/-! ## Growing -/

/-- The blocks that are taken until a file of `n` blocks has `c`, as long as no table is
missing under the doubly indirect block. -/
def blocksTo (m : Mem) (oi n c : Nat) : Nat :=
  c - n + if n ≤ 10 ∧ 10 < c ∧ oiIndirect m oi = 0 then 1 else 0

/-- A file of `n` blocks that grows to `k` blocks, or has no room to, comes to no missing
table but the indirect block, and not to the end of the free blocks there. -/
structure PastTables (m : Mem) (oi n k : Nat) : Prop where
  indirect : n < 10 → 10 < k → oiIndirect m oi = 0 →
    freeBlocks m + n < 10 ∨ 12 ≤ freeBlocks m + n
  under : ∀ c, n ≤ c → c < k → 266 ≤ c → ptr m oi (.indir2 ((c - 266) / 256)) = 0 →
    freeBlocks m < blocksTo m oi n c

/-- How such a file grows. -/
structure Rises (V : Volume) (oi n : Nat) (w₀ : Mem) (c : Nat) (w : Mem) : Prop where
  grows : Grows V oi n w₀ c w
  mapped : ∀ b < c, ptr w oi (.leaf b) ≠ 0
  indirect : c ≤ 10 → oiIndirect w oi = oiIndirect w₀ oi
  under : ∀ k, ptr w oi (.indir2 k) = ptr w₀ oi (.indir2 k)
  direct : c ≤ 10 → freeBlocks w + c = freeBlocks w₀ + n
  used : freeBlocks w + blocksTo w₀ oi n c ≤ freeBlocks w₀

theorem Rises.refl (h : ∀ b < n, ptr w oi (.leaf b) ≠ 0) : Rises V oi n w n w := by
  refine ⟨.refl, h, fun _ => rfl, fun _ => rfl, fun _ => rfl, ?_⟩
  unfold blocksTo
  rw [if_neg (by omega)]
  omega

theorem Rises.next (h : Rises V oi n w₀ c w) (hc : c < maxfileblks) :
    Present w oi (.leaf c) ∨ (c = 10 ∧ oiIndirect w oi = 0) ∨
      (266 ≤ c ∧ ptr w₀ oi (.indir2 ((c - 266) / 256)) = 0) := by
  obtain ⟨-, hpar, -⟩ | ⟨h10, -, hpar, -⟩ | ⟨h266, hpar, -⟩ := Place.leaf_cases c
  · exact .inl (present_of_root (leaf_valid hc) hpar)
  · by_cases h0 : oiIndirect w oi = 0
    · refine .inr (.inl ⟨?_, h0⟩)
      by_contra hne
      exact (present_of_ne_zero (h.mapped 10 (by omega))).2 .indirect rfl h0
    · exact .inl (present_of_parent (leaf_valid hc) hpar h0)
  · by_cases h0 : ptr w oi (.indir2 ((c - 266) / 256)) = 0
    · exact .inr (.inr ⟨h266, (h.under _).symm.trans h0⟩)
    · exact .inl (present_of_parent (leaf_valid hc) hpar h0)

theorem Rises.present (h : Rises V oi n w₀ c w) (hp : Present w oi (.leaf c)) (hb : b ≤ c) :
    Present w oi (.leaf b) := by
  rcases Nat.lt_or_eq_of_le hb with hlt | rfl
  · exact present_of_ne_zero (h.mapped b hlt)
  · exact hp

theorem Rises.enter (h : Rises V oi n w₀ c w) (hh : Held V oi c w) (ht : Taken w oi)
    (hoi : V.Inode oi) (hc : c < maxfileblks) (hp : Present w oi (.leaf c)) (hb : V.IsData b)
    (hbf : isFree w b = true) :
    Rises V oi n w₀ (c + 1) (enterBlock w oi b (slot w oi (.leaf c))) := by
  have hn := h.grows.from_n
  have hptr := hh.ptr_enterBlock ht hoi hp hb hbf
  have hcount := hh.freeBlocks_enterBlock ht hoi hp hb hbf
  have htab (q : Place) (hq : q.IsTable) :
      ptr (enterBlock w oi b (slot w oi (.leaf c))) oi q = ptr w oi q := by
    rw [hptr, if_neg]
    rintro rfl
    exact hq
  refine ⟨h.grows.step hh ht hoi (hh.enterBlock ht hoi hp hb hbf hc), fun d hd => ?_, fun hc' => ?_,
    fun k => (htab (.indir2 k) trivial).trans (h.under k), fun hc' => ?_, ?_⟩
  · rw [hptr]
    split
    · exact hb.ne_zero
    · rename_i hne
      exact h.mapped d (by
        rcases Nat.lt_succ_iff_lt_or_eq.1 hd with hlt | rfl
        · exact hlt
        · exact absurd rfl hne)
  · exact (htab .indirect trivial).trans (h.indirect (by omega))
  · have := h.direct (by omega)
    omega
  · -- the indirect block is counted with block 10 only if it is missing there
    have hused := h.used
    have hI : c = 10 → oiIndirect w₀ oi ≠ 0 := by
      rintro rfl
      rw [← h.indirect (Nat.le_refl 10)]
      exact hp.2 .indirect rfl
    unfold blocksTo at hused ⊢
    split
    · rename_i hif
      have hif' : n ≤ 10 ∧ 10 < c ∧ oiIndirect w₀ oi = 0 := by
        refine ⟨hif.1, ?_, hif.2.2⟩
        have := fun h10 => hI h10 hif.2.2
        omega
      rw [if_pos hif'] at hused
      omega
    · omega

theorem Extended.freeBlocks_two (he : Extended V oi 10 a w m) (hm : V.Mounted w)
    (h0 : oiIndirect w oi = 0) : freeBlocks m + 2 ≤ freeBlocks w := by
  have hleaf : ptr m oi (.leaf 10) = a := he.entered.resolve_right fun hge => by omega
  have hI : ptr m oi .indirect ≠ 0 :=
    ptr_under_ne_zero (.step rfl .refl) (hleaf.trans_ne he.taken.1.ne_zero)
  obtain ⟨-, ht, htf⟩ := (he.grew.ptrs .indirect).resolve_left fun hs => hI (hs.trans h0)
  have hne : ptr m oi .indirect ≠ a := fun hs => by cases he.leaf _ hs
  have htaken := (he.owns.ok _ hI).2
  unfold freeBlocks
  rw [he.mounted.nblocks, hm.nblocks]
  have ha' : a ∉ (Finset.range V.nblocks).filter (isFree m ·) := by
    rw [Finset.mem_filter, he.taken.2]
    exact fun hx => Bool.false_ne_true hx.2
  have ht' : ptr m oi .indirect ∉ insert a ((Finset.range V.nblocks).filter (isFree m ·)) := by
    rw [Finset.mem_insert, Finset.mem_filter, htaken]
    exact fun hx => hx.elim hne fun hx => Bool.false_ne_true hx.2
  rw [show ∀ x : Nat, x + 2 = x + 1 + 1 from fun _ => rfl, ← Finset.card_insert_of_notMem ha',
    ← Finset.card_insert_of_notMem ht']
  refine Finset.card_le_card fun x hx => ?_
  rw [Finset.mem_insert, Finset.mem_insert] at hx
  rw [Finset.mem_filter, Finset.mem_range]
  rcases hx with rfl | rfl | hx
  · exact ⟨ht.2, htf⟩
  · exact ⟨he.taken.1.2, he.fresh⟩
  · rw [Finset.mem_filter, Finset.mem_range] at hx
    exact ⟨hx.1, he.grew.free x hx.1 hx.2⟩

theorem Rises.start (h : Rises V oi n w₀ 10 w) (hh : Held V oi 10 w) (ht : Taken w oi)
    (hoi : V.Inode oi) (h0 : oiIndirect w oi = 0) (hroom : 2 ≤ freeBlocks w) :
    ∃ w', addBlock w oi = (.ok (), w') ∧ Held V oi 11 w' ∧ Taken w' oi ∧ Rises V oi n w₀ 11 w' := by
  have hal := hh.along ht
  have hnone : ¬ Present w oi (.leaf 10) := fun hp => hp.2 .indirect rfl h0
  have hopen : Open V oi 10 w := ⟨hh.mounted, hal.owns, hh.count, ptr_of_not_present hnone⟩
  have hneed : blocksNeeded w oi 10 ≤ freeBlocks w := by
    unfold blocksNeeded
    split <;> omega
  rcases hopen.addBlock hoi (by decide) hneed with ⟨a, w', he, hext⟩ | ⟨hge, -⟩
  case inr => omega
  have hl := hext.lengthened hh (by decide) fun x hx => by
    have := hal.addBlock_far hoi hh.count (by decide) hx
    rwa [he] at this
  have htwo := hext.freeBlocks_two hh.mounted h0
  have hused := h.used
  refine ⟨w', he, hl.held, hl.taken, h.grows.step hh ht hoi hl, fun b hb => ?_, by omega,
    fun k => (hext.grew.under k).trans (h.under k), by omega, ?_⟩
  · rcases Nat.lt_succ_iff_lt_or_eq.1 hb with hlt | rfl
    · rw [hl.leaves b (by omega)]
      exact h.mapped b hlt
    · rw [hext.entered.resolve_right fun hge => by omega]
      exact hext.taken.1.ne_zero
  · have hn := h.grows.from_n
    unfold blocksTo at hused ⊢
    rw [if_neg (by omega)] at hused
    split <;> omega

/-- The first loop of `change_size` comes out alike on both disks; where it succeeds, all
blocks of the file are mapped. -/
def GrowAlike (V : Volume) (oi newSize fuel r : Nat) (m w : Mem) : Prop :=
  ∃ res m' w', growLoop oi newSize fuel r m = some (res, m') ∧
    growLoop oi newSize fuel r w = some (res, w') ∧ Above m' w' ∧
    (res = .ok () → Held V oi (ospfsSize2nblocks newSize) w' ∧
      ∀ b < ospfsSize2nblocks newSize, ptr w' oi (.leaf b) ≠ 0)

section

variable {newSize fuel : Nat} {w₁ : Mem} (h : Held V oi c w) (hoi : V.Inode oi) (hm : Above m w)
  (hlt : c < ospfsSize2nblocks newSize)

include h hoi hm hlt

theorem Held.blocks_lt : ospfsSize2nblocks (oiSize w oi) < ospfsSize2nblocks newSize ∧
    ospfsSize2nblocks (oiSize m oi) < ospfsSize2nblocks newSize := by
  have hsize : oiSize w oi = oiSize m oi := hm.get32 hoi.behind
  rw [← hsize, h.count]
  exact ⟨hlt, hlt⟩

theorem GrowAlike.add (ht : Taken w oi) (he : addBlock w oi = (.ok (), w₁))
    (hrec : ∀ m₁, Above m₁ w₁ → GrowAlike V oi newSize fuel (r + 1) m₁ w₁) :
    GrowAlike V oi newSize (fuel + 1) r m w := by
  obtain ⟨hres, hm₁⟩ := (h.along ht).addBlock_above hoi hm
  obtain ⟨hw', hm'⟩ := h.blocks_lt hoi hm hlt
  rw [he] at hres hm₁
  have hem : addBlock m oi = (.ok (), (addBlock m oi).2) := Prod.ext hres.symm rfl
  obtain ⟨res, m', w', hgm, hgw, hend⟩ := hrec _ hm₁
  exact ⟨res, m', w', (growLoop_add hm' hem).trans hgm, (growLoop_add hw' he).trans hgw, hend⟩

theorem GrowAlike.full (ht : Taken w oi) (he : addBlock w oi = (.error .eNoSpc, w₁))
    (hback : ∀ m₁, Above m₁ w₁ → Above (removeBlocks oi r m₁) (removeBlocks oi r w₁)) :
    GrowAlike V oi newSize (fuel + 1) r m w := by
  obtain ⟨hres, hm₁⟩ := (h.along ht).addBlock_above hoi hm
  obtain ⟨hw', hm'⟩ := h.blocks_lt hoi hm hlt
  rw [he] at hres hm₁
  have hem : addBlock m oi = (.error .eNoSpc, (addBlock m oi).2) := Prod.ext hres.symm rfl
  exact ⟨_, _, _, growLoop_full hm' hem, growLoop_full hw' he, hback _ hm₁,
    fun hok => by cases hok⟩

end

/-- **Growing past the tables.** -/
theorem Held.growLoop_above {newSize fuel : Nat}
    (hpast : PastTables w₀ oi n (ospfsSize2nblocks newSize))
    (hlim : ∀ c w, Grows V oi n w₀ c w → c < ospfsSize2nblocks newSize → c < maxfileblks)
    (hoi : V.Inode oi) (h : Held V oi c w) (ht : Taken w oi) (hr : Rises V oi n w₀ c w)
    (hm : Above m w) (hck : c ≤ ospfsSize2nblocks newSize)
    (hfuel : ospfsSize2nblocks newSize ≤ c + fuel) (hcr : c = n + r) :
    GrowAlike V oi newSize fuel r m w := by
  have hdone (hc : c = ospfsSize2nblocks newSize) : GrowAlike V oi newSize fuel r m w := by
    subst hc
    have hsize : oiSize w oi = oiSize m oi := hm.get32 hoi.behind
    refine ⟨.ok (), m, w, growLoop_done ?_, growLoop_done h.count.ge, hm, fun _ => ⟨h, hr.mapped⟩⟩
    rw [← hsize, h.count]
  induction fuel generalizing m w c r with
  | zero => exact hdone (by omega)
  | succ fuel ih =>
    rcases Nat.eq_or_lt_of_le hck with hc | hlt
    · exact hdone hc
    have hc := hlim c w hr.grows hlt
    have hnext {w₁ : Mem} (h₁ : Held V oi (c + 1) w₁) (ht₁ : Taken w₁ oi)
        (hr₁ : Rises V oi n w₀ (c + 1) w₁) (m₁ : Mem) (hm₁ : Above m₁ w₁) :
        GrowAlike V oi newSize fuel (r + 1) m₁ w₁ := by
      refine ih h₁ ht₁ hr₁ hm₁ hlt (by omega) (by omega) fun hc => ?_
      have hsize : oiSize w₁ oi = oiSize m₁ oi := hm₁.get32 hoi.behind
      refine ⟨.ok (), m₁, w₁, growLoop_done ?_, growLoop_done ?_, hm₁, fun _ => ?_⟩
      · rw [← hsize, h₁.count, hc]
      · rw [h₁.count, hc]
      · rw [← hc]
        exact ⟨h₁, hr₁.mapped⟩
    rcases hr.next hc with hp | ⟨rfl, h0⟩ | ⟨h266, h0⟩
    · rcases h.addBlock_present ht hoi hc hp with ⟨he, -⟩ | ⟨b, hb, hbf, he⟩
      · refine .full h hoi hm hlt ht he fun m₁ hm₁ => ?_
        exact h.removeBlocks_above hoi hm₁ hc (by omega) fun b hb _ => hr.present hp hb
      · have hl := h.enterBlock ht hoi hp hb hbf hc
        exact .add h hoi hm hlt ht he (hnext hl.held hl.taken (hr.enter h ht hoi hc hp hb hbf))
    · rcases Nat.lt_or_ge (freeBlocks w) 2 with hfew | hroom
      · -- the file has had ten blocks from the start, and nothing is undone
        have hI := (hr.indirect (Nat.le_refl 10)).symm.trans h0
        have hdirect := hr.direct (Nat.le_refl 10)
        have hpast10 := fun hn => hpast.indirect hn hlt hI
        obtain rfl : r = 0 := by omega
        have hneed : freeBlocks w < blocksNeeded w oi 10 := by
          have htab : nextTable w oi 10 = 0 := h0
          rw [blocksNeeded, if_pos htab]
          exact hfew
        obtain ⟨w₁, he, -⟩ := (h.along ht).addBlock_short hoi h.count (by decide) hneed
        exact .full h hoi hm hlt ht he fun m₁ hm₁ => hm₁
      · obtain ⟨w₁, he, h₁, ht₁, hr₁⟩ := hr.start h ht hoi h0 hroom
        exact .add h hoi hm hlt ht he (hnext h₁ ht₁ hr₁)
    · -- so far does the file not get
      have := hpast.under c hr.grows.from_n hlt h266 h0
      have := hr.used
      omega

/-! ## `change_size` -/

/-- A file of `n` blocks grows to `k` blocks, or is left as it is, without a look at the boot
block: it comes past its tables, or has no room for the first block. -/
def BootUnread (m : Mem) (oi n k : Nat) : Prop :=
  PastTables m oi n k ∨ freeBlocks m < blocksNeeded m oi n ∨
    (n = 266 ∧ oiIndirect2 m oi = 0 ∧ freeBlocks m = 2)

/-- What goes for the disk with the empty boot block goes for the other one too. -/
theorem Held.changeSize_above (h : Held V oi n w) (ht : Taken w oi) (hoi : V.Inode oi)
    (hm : Above m w) (hmap : ∀ b < n, ptr w oi (.leaf b) ≠ 0) {newSize : Nat}
    (hk : n ≤ ospfsSize2nblocks newSize)
    (hlim : ospfsSize2nblocks newSize ≤ maxfileblks ∨ n + freeBlocks w < maxfileblks)
    (hu : BootUnread w oi n (ospfsSize2nblocks newSize)) :
    ∃ res m' w', changeSize m oi newSize = some (res, m') ∧
      changeSize w oi newSize = some (res, w') ∧ Above m' w' ∧
      (res = .ok () → ∀ b < ospfsSize2nblocks newSize, ptr w' oi (.leaf b) ≠ 0) := by
  have hlim' (c : Nat) (w₁ : Mem) (hg : Grows V oi n w c w₁)
      (hc : c < ospfsSize2nblocks newSize) : c < maxfileblks := by
    have := hg.room
    omega
  have hgrow : GrowAlike V oi newSize (ospfsSize2nblocks newSize) 0 m w := by
    have hall (hpast : PastTables w oi n (ospfsSize2nblocks newSize)) :=
      h.growLoop_above (r := 0) hpast hlim' hoi ht (.refl hmap) hm hk (Nat.le_add_left _ n) rfl
    rcases Nat.eq_or_lt_of_le hk with rfl | hlt
    · exact hall ⟨by omega, by omega⟩
    have hmax := hlim' n w .refl hlt
    have hone {w₁ : Mem} (he : Ospfs.addBlock w oi = (.error .eNoSpc, w₁)) :
        GrowAlike V oi newSize (ospfsSize2nblocks newSize) 0 m w := by
      obtain ⟨fuel, hfuel⟩ := Nat.exists_eq_succ_of_ne_zero (Nat.ne_zero_of_lt hlt)
      conv => arg 4; rw [hfuel]
      exact .full h hoi hm hlt ht he fun _ hm₁ => hm₁
    rcases hu with hpast | hfew | ⟨rfl, hD, htwo⟩
    · exact hall hpast
    · obtain ⟨w₁, he, -⟩ := (h.along ht).addBlock_short hoi h.count (Nat.le_of_lt hmax) hfew
      exact hone he
    · have hnone : ptr w oi (.leaf 266) = 0 := ptr_of_not_present fun hp =>
        (present_of_ne_zero (hp.2 (.indir2 0) rfl)).2 .indirect2 rfl hD
      obtain ⟨w₁, he, -⟩ := Open.addBlock_two ⟨h.mounted, (h.along ht).owns, h.count, hnone⟩ hoi
        (Nat.le_refl 266) hmax hD htwo
      exact hone he
  obtain ⟨res, m', w', hgm, hgw, hab, hend⟩ := hgrow
  rcases res with e | u
  · exact ⟨_, m', w', changeSize_error hgm, changeSize_error hgw, hab, fun hok => by cases hok⟩
  · obtain ⟨hh, hmap'⟩ := hend rfl
    have hsize : oiSize w' oi = oiSize m' oi := hab.get32 hoi.behind
    refine ⟨.ok (), _, _, changeSize_ok hgm (shrinkLoop_done ?_),
      changeSize_ok hgw (shrinkLoop_done hh.count.le), hab.set32 oi newSize, fun _ b hb => ?_⟩
    · rw [← hsize, hh.count]
    · rw [ptr_set_size hh.points hoi newSize]
      exact hmap' b hb

/-! ## Reading the disks -/

theorem Points.ptr_above (hpts : V.Points w oi) (hm : Above m w) (hoi : V.Inode oi) (p : Place) :
    ptr m oi p = ptr w oi p := by
  refine ptr_congr (fun q hq => (hm.get32 ?_).symm) p
  have := (hpts.slot_range hoi hq).2.1
  have := V.firstinob_ge
  omega

theorem BootUnread.above {k : Nat} (h : BootUnread m oi n k) (hm : Above m w)
    (hpts : V.Points w oi) (hoi : V.Inode oi) : BootUnread w oi n k := by
  have hin := hoi.behind
  have hI : oiIndirect w oi = oiIndirect m oi := hm.get32 (by omega)
  have hD : oiIndirect2 w oi = oiIndirect2 m oi := hm.get32 (by omega)
  have hfree := hm.freeBlocks
  have hptr := hpts.ptr_above hm hoi
  have htab : nextTable w oi n = nextTable m oi n := by
    unfold nextTable
    rw [hI]
    by_cases h0 : oiIndirect2 w oi = 0
    · rw [if_pos h0, if_pos (hD.symm.trans h0)]
    · have htop : 1024 ≤ ospfsBlock (oiIndirect2 w oi) := (hpts .indirect2 h0).behind
      rw [if_neg h0, if_neg (fun h => h0 (hD.trans h)), ← hD, hm.get32 (by omega)]
  unfold BootUnread blocksNeeded
  rw [hfree, htab, hD]
  refine h.imp_left fun hp => ⟨?_, fun c => ?_⟩
  · rw [hI, hfree]
    exact hp.indirect
  · have hto : blocksTo w oi n c = blocksTo m oi n c := by
      unfold blocksTo
      rw [hI]
    rw [hfree, hto, ← hptr]
    exact hp.under c

end Volume

end OsLabs.Ospfs
