import OsLabs.Ospfs.Grow
import OsLabs.Ospfs.Shrink

/-!
# OSPFS: what a grown file maps

The first loop of `change_size` (`Sound.growLoop`), and what
`ospfs_inode_blockno` reads from a file that has grown: every new block, unless
the growth starts an indirect block under the doubly indirect block.
-/

namespace OsLabs.Ospfs

namespace Volume

variable {V : Volume} {m₀ m m' : Mem} {oi a b c i k n : Nat}

/-! ## The first loop of `change_size` -/

theorem Extended.freeBlocks_lt {a : Nat} (h : Extended V oi c a m m') (hm : V.Mounted m) :
    freeBlocks m' < freeBlocks m := by
  unfold freeBlocks
  rw [h.mounted.nblocks, hm.nblocks]
  refine Finset.card_lt_card ⟨fun b hb => ?_, fun hsub => ?_⟩
  · simp only [Finset.mem_filter, Finset.mem_range] at hb ⊢
    exact ⟨hb.1, h.grew.free b hb.1 hb.2⟩
  · have ha := hsub (Finset.mem_filter.2 ⟨Finset.mem_range.2 h.taken.1.2, h.fresh⟩)
    rw [Finset.mem_filter, h.taken.2] at ha
    cases ha.2

theorem under_isTable {p q : Place} (h : p.Under q) : p = q ∨ p.IsTable := by
  induction h with
  | refl => exact .inl rfl
  | step hpar _ ih =>
    rcases ih with rfl | ht
    · exact .inr (Place.parent_isTable hpar)
    · exact .inr ht

theorem Extended.sound {a : Nat} (h : Extended V oi c a m m') (hs : Sound V oi c m)
    (hc : c < maxfileblks) : Sound V oi (c + 1) m' := by
  have hcount := hs.count
  refine ⟨h.mounted, h.owns, ?_, fun b hb => ?_⟩
  · unfold maxfileblks at hc
    rw [h.size, size2nblocks_add (by omega), hcount]
  · rw [h.keeps _ fun hu => ?_]
    · exact hs.beyond b (by omega)
    · rcases under_isTable hu with he | ht
      · simp only [Place.leaf.injEq] at he
        omega
      · exact ht

/-- The loop ended by a failed `add_block`, in a file of `c'` blocks for which `P` holds. -/
def Stopped (V : Volume) (oi : Nat) (P : Nat → Mem → Prop) (newSize r c : Nat) (m' : Mem) : Prop :=
  ∃ c' m₁ m₂, c ≤ c' ∧ c' < ospfsSize2nblocks newSize ∧ Sound V oi c' m₁ ∧ P c' m₁ ∧
    addBlock m₁ oi = (.error .eNoSpc, m₂) ∧ Backed V oi m₁ m₂ ∧
    m' = removeBlocks oi (r + (c' - c)) m₂

/-- **The growing loop** returns: what every successful `add_block` keeps holds
at the end, or where `add_block` fails. -/
theorem Sound.growLoop {P : Nat → Mem → Prop} (newSize : Nat) {fuel r : Nat}
    (hstep : ∀ c a m m', c < ospfsSize2nblocks newSize → P c m → Sound V oi c m →
      Extended V oi c a m m' → P (c + 1) m')
    (hlim : ∀ c m, P c m → c < ospfsSize2nblocks newSize → c < maxfileblks)
    (hoi : V.Inode oi) (hs : Sound V oi c m) (hP : P c m) (hck : c ≤ ospfsSize2nblocks newSize)
    (hfuel : ospfsSize2nblocks newSize ≤ c + fuel) :
    ∃ res m', growLoop oi newSize fuel r m = some (res, m') ∧
      ((res = .ok () ∧ Sound V oi (ospfsSize2nblocks newSize) m' ∧
        P (ospfsSize2nblocks newSize) m') ∨
      (res = .error .eNoSpc ∧ Stopped V oi P newSize r c m')) := by
  induction fuel generalizing m c r with
  | zero =>
    obtain rfl : c = ospfsSize2nblocks newSize := by omega
    exact ⟨.ok (), m, growLoop_done (Nat.le_of_eq hs.count.symm), .inl ⟨rfl, hs, hP⟩⟩
  | succ fuel ih =>
    by_cases hlt : c < ospfsSize2nblocks newSize
    case neg =>
      obtain rfl : c = ospfsSize2nblocks newSize := by omega
      exact ⟨.ok (), m, growLoop_done (Nat.le_of_eq hs.count.symm), .inl ⟨rfl, hs, hP⟩⟩
    have hsize : ospfsSize2nblocks (oiSize m oi) < ospfsSize2nblocks newSize := by
      rw [hs.count]
      exact hlt
    have hc := hlim c m hP hlt
    have hfail (m₂ : Mem) (hb : Backed V oi m m₂)
        (he : Ospfs.addBlock m oi = (.error .eNoSpc, m₂)) :
        Stopped V oi P newSize r c (removeBlocks oi r m₂) :=
      ⟨c, m, m₂, Nat.le_refl c, hlt, hs, hP, he, hb, by rw [Nat.sub_self]; rfl⟩
    rcases Nat.lt_or_ge (freeBlocks m) (blocksNeeded m oi c) with hroom | hroom
    · obtain ⟨m₂, he, hb, -⟩ := hs.along.addBlock_short hoi hs.count (Nat.le_of_lt hc) hroom
      rw [growLoop_full hsize he]
      exact ⟨_, _, rfl, .inr ⟨rfl, hfail m₂ hb he⟩⟩
    · rcases hs.toOpen.addBlock hoi hc hroom with ⟨a, m₁, he, hext⟩ | ⟨-, -, -, m₂, he, hb, -⟩
      · rw [growLoop_add hsize he]
        obtain ⟨res, m', hg, hres⟩ := ih (r := r + 1) (hext.sound hs hc)
          (hstep c a m m₁ hlt hP hs hext) (by omega) (by omega)
        refine ⟨res, m', hg, ?_⟩
        rcases hres with hdone | ⟨hres, c', m₁', m₂, hle, hlt', hs', hP', he', hb, hm'⟩
        · exact .inl hdone
        · refine .inr ⟨hres, c', m₁', m₂, by omega, hlt', hs', hP', he', hb, ?_⟩
          rw [hm']
          congr 1
          omega
      · rw [growLoop_full hsize he]
        exact ⟨_, _, rfl, .inr ⟨rfl, hfail m₂ hb he⟩⟩

theorem ptr_set_size (h : V.Points m oi) (hoi : V.Inode oi) (v : Nat) (p : Place) :
    ptr (m.set32 oi v) oi p = ptr m oi p := by
  obtain ⟨hlo, hhi, -⟩ := hoi.address
  have := V.firstdata_ge
  refine ptr_congr (fun q hq => Mem.get32_set32_ne ?_) p
  have := h.slot_range hoi hq
  omega

theorem WellFormed.sound (h : V.WellFormed m oi n) : Sound V oi n m := by
  refine ⟨h.mounted, ⟨fun p h0 => h.used p (h.ptr_ne_zero.1 h0), h.inj⟩, h.size2nblocks,
    fun b hb => h.beyond _ ?_⟩
  show ¬ b < n
  omega

theorem present_of_ne_zero {p : Place} (h0 : ptr m oi p ≠ 0) : Present m oi p := by
  by_contra hp
  exact h0 (ptr_of_not_present hp)

/-! ## The block map of a grown file -/

/-- File block `i` is not the first one of an indirect block under the doubly
indirect block, for all `i` from `n` to `k - 1`. -/
def NoNewTable (n k : Nat) : Prop := ∀ i, n ≤ i → i < k → i < 266 ∨ (i - 266) % 256 ≠ 0

/-- A file grown from `n` to `c` blocks with every block entered. -/
structure Filled (V : Volume) (oi n : Nat) (m₀ : Mem) (c : Nat) (m : Mem) : Prop where
  grew : Grew V oi m₀ m
  used : ∀ p : Place, p.InUse c → ptr m oi p ≠ 0
  fresh : ∀ i, n ≤ i → i < c → isFree m₀ (ptr m oi (.leaf i)) = true ∧
    ∀ x, 1024 * ptr m oi (.leaf i) ≤ x → x < 1024 * ptr m oi (.leaf i) + 1024 → m x = 0

theorem WellFormed.filled (h : V.WellFormed m oi n) : Filled V oi n m n m :=
  ⟨.refl, fun _ hp => h.ptr_ne_zero.2 hp, fun _ h1 h2 => by omega⟩

theorem Filled.extend (h : Filled V oi n m₀ c m) (hs : Sound V oi c m)
    (he : Extended V oi c a m m') (hno : c < 266 ∨ (c - 266) % 256 ≠ 0) :
    Filled V oi n m₀ (c + 1) m' := by
  have hleaf : ptr m' oi (.leaf c) = a := by
    rcases he.entered with heq | ⟨hge, h0⟩
    · exact heq
    · refine absurd h0 (h.used _ ?_)
      show 266 + 256 * ((c - 266) / 256) < c
      omega
  refine ⟨h.grew.trans he.grew, fun p hp => ?_, fun i hi hic => ?_⟩
  · rcases Place.inUse_succ.1 hp with hp | hu
    · rw [he.grew.ne_zero (h.used p hp)]
      exact h.used p hp
    · exact ptr_under_ne_zero hu (hleaf.trans_ne he.taken.1.ne_zero)
  · rcases Nat.lt_succ_iff_lt_or_eq.1 hic with hlt | rfl
    · have h0 := h.used (.leaf i) hlt
      have hok := hs.owns.ok _ h0
      obtain ⟨hf, hz⟩ := h.fresh i hi hlt
      rw [he.grew.ne_zero h0]
      refine ⟨hf, fun x hx hx' => ?_⟩
      rw [he.grew.bytes _ hok (fun p hp heq => ?_) x hx hx']
      · exact hz x hx hx'
      · have := hs.owns.inj (.leaf i) p h0 heq.symm
        subst this
        exact hp
    · rw [hleaf]
      exact ⟨h.grew.free a he.taken.1.2 he.fresh, he.zero⟩

structure Reached (V : Volume) (oi : Nat) (m₀ : Mem) (c : Nat) (m : Mem) : Prop where
  grew : Grew V oi m₀ m
  deep : 266 < c → oiIndirect2 m oi ≠ 0

theorem Reached.extend (h : Reached V oi m₀ c m) (he : Extended V oi c a m m') :
    Reached V oi m₀ (c + 1) m' :=
  ⟨h.grew.trans he.grew, fun hc => he.deep (by omega)⟩

theorem WellFormed.reached (h : V.WellFormed m oi n) : Reached V oi m n m :=
  ⟨.refl, fun hn => h.ptr_ne_zero (p := .indirect2).2 hn⟩

/-- After a growth from `n` to `k` blocks: every file block is mapped, the old
ones as before, the new ones to distinct blocks of zeros that were free. -/
structure AllMapped (oi n k : Nat) (m m' : Mem) : Prop where
  nonzero : ∀ i < k, ospfsInodeBlockno m' oi (1024 * i) ≠ 0
  kept : ∀ i < n, ospfsInodeBlockno m' oi (1024 * i) = ospfsInodeBlockno m oi (1024 * i)
  fresh : ∀ i, n ≤ i → i < k →
    isFree m (ospfsInodeBlockno m' oi (1024 * i)) = true ∧
    isFree m' (ospfsInodeBlockno m' oi (1024 * i)) = false ∧
    ∀ x, 1024 * ospfsInodeBlockno m' oi (1024 * i) ≤ x →
      x < 1024 * ospfsInodeBlockno m' oi (1024 * i) + 1024 → m' x = 0
  distinct : ∀ i j, n ≤ i → i < k → n ≤ j → j < k →
    ospfsInodeBlockno m' oi (1024 * i) = ospfsInodeBlockno m' oi (1024 * j) → i = j

theorem inodeBlockno_ptr (hlt : 1024 * i < oiSize m oi) (hty : oiFtype m oi ≠ ftypeSymlink)
    (h0 : ptr m oi (.leaf i) ≠ 0) : ospfsInodeBlockno m oi (1024 * i) = ptr m oi (.leaf i) := by
  have hp := present_of_ne_zero h0
  have hdiv : 1024 * i / 1024 = i := by omega
  rw [ospfsInodeBlockno_slot hlt hty, hdiv, ptr_of_present hp]
  rw [hdiv]
  intro hi
  obtain ⟨hb, -⟩ | ⟨-, hb, -⟩ | ⟨-, hpar, -⟩ := Place.leaf_cases i
  · omega
  · omega
  · exact (ptr_of_present (present_of_ne_zero (hp.2 _ hpar))).symm

theorem WellFormed.changeSize_grow (h : V.WellFormed m oi n) {newSize : Nat}
    {P : Nat → Mem → Prop} (hmax : newSize < 1024 * maxfileblks)
    (hk : n < ospfsSize2nblocks newSize) (hP : P n m)
    (hstep : ∀ c a m m', c < ospfsSize2nblocks newSize → n ≤ c → P c m → Sound V oi c m →
      Extended V oi c a m m' → P (c + 1) m')
    (hr : changeSize m oi newSize = some (.ok (), m')) :
    ∃ m₁, Sound V oi (ospfsSize2nblocks newSize) m₁ ∧ P (ospfsSize2nblocks newSize) m₁ ∧
      m' = m₁.set32 oi newSize := by
  have hkmax : ospfsSize2nblocks newSize ≤ maxfileblks := by
    unfold maxfileblks at hmax ⊢
    unfold ospfsSize2nblocks
    omega
  rcases changeSize_cases hr with ⟨e, -, he⟩ | ⟨m₁, m₂, hg, hs, -, hm'⟩
  · cases he
  obtain ⟨res, m₁', hg', hres⟩ := h.sound.growLoop _ (P := fun c m => n ≤ c ∧ P c m)
    (r := 0) (fun c a m m' hc hP hs he => ⟨by omega, hstep c a m m' hc hP.1 hP.2 hs he⟩)
    (fun c m _ hc => by omega) h.inode ⟨Nat.le_refl n, hP⟩ (Nat.le_of_lt hk)
    (Nat.le_add_left _ n)
  rw [hg] at hg'
  cases hg'
  rcases hres with ⟨-, hs₁, -, hP₁⟩ | ⟨hres, -⟩
  · refine ⟨m₁, hs₁, hP₁, ?_⟩
    rw [hm']
    have hdone : shrinkLoop oi newSize (ospfsSize2nblocks (oiSize m₁ oi)) m₁ = some m₁ :=
      shrinkLoop_done (Nat.le_of_eq hs₁.count)
    rw [hdone] at hs
    cases hs
    rfl
  · cases hres

theorem Filled.inodeBlockno (h : Filled V oi n m k m') (hwf : V.WellFormed m oi n)
    (hs : Sound V oi k m') (hty : oiFtype m oi ≠ ftypeSymlink) {newSize : Nat}
    (hv : newSize < 2 ^ 32) (hk : k = ospfsSize2nblocks newSize) (hi : i < k) :
    ospfsInodeBlockno (m'.set32 oi newSize) oi (1024 * i) = ptr m' oi (.leaf i) := by
  have hptr := ptr_set_size (fun p h0 => (hs.owns.ok p h0).1) hwf.inode newSize (m := m')
  have hsize : oiSize (m'.set32 oi newSize) oi = newSize := Mem.get32_set32_of_lt hv
  have hty' : oiFtype (m'.set32 oi newSize) oi ≠ ftypeSymlink := by
    have : oiFtype (m'.set32 oi newSize) oi = oiFtype m' oi := Mem.get32_set32_ne (by omega)
    rw [this, h.grew.ftype]
    exact hty
  have h0 := h.used (.leaf i) hi
  rw [← hptr] at h0
  rw [inodeBlockno_ptr ?_ hty' h0, hptr]
  rw [hsize]
  unfold ospfsSize2nblocks at hk
  omega

theorem Filled.allMapped (h : Filled V oi n m k m') (hwf : V.WellFormed m oi n)
    (hs : Sound V oi k m') (hty : oiFtype m oi ≠ ftypeSymlink) (hnk : n ≤ k) {newSize : Nat}
    (hv : newSize < 2 ^ 32) (hk : k = ospfsSize2nblocks newSize) :
    AllMapped oi n k m (m'.set32 oi newSize) := by
  obtain ⟨hlo, hhi, -⟩ := hwf.inode.address
  have := V.firstdata_ge
  have hbno (i : Nat) (hi : i < k) := h.inodeBlockno hwf hs hty hv hk hi
  have hok (i : Nat) (hi : i < k) := hs.owns.ok _ (h.used (.leaf i) hi)
  refine ⟨fun i hi => ?_, fun i hi => ?_, fun i hi hik => ?_, fun i j _ hi _ hj he => ?_⟩
  · rw [hbno i hi]
    exact h.used (.leaf i) hi
  · have h0 := hwf.ptr_ne_zero.2 (show (Place.leaf i).InUse n from hi)
    have hn := hwf.blocks
    rw [hbno i (by omega), inodeBlockno_ptr (by omega) hty h0, h.grew.ne_zero h0]
  · obtain ⟨hf, hz⟩ := h.fresh i hi hik
    have haddr := (hok i hik).1.address
    rw [hbno i hik]
    refine ⟨hf, ?_, fun x hx hx' => ?_⟩
    · rw [isFree_congr (fun x _ hx => Mem.set32_of_ne (by omega)) (hok i hik).1.2]
      exact (hok i hik).2
    · rw [Mem.set32_of_ne (by omega)]
      exact hz x hx hx'
  · rw [hbno i hi, hbno j hj] at he
    have := hs.owns.inj _ _ (h.used (.leaf i) hi) he
    simpa using this

/-- The first block of an indirect block under the doubly indirect block is not
mapped: its number is read from the boot block. -/
theorem Reached.inodeBlockno (h : Reached V oi m k m') (hwf : V.WellFormed m oi n)
    (hs : Sound V oi k m') (hty : oiFtype m oi ≠ ftypeSymlink) (newSize : Nat)
    (hv : newSize < 2 ^ 32) (hk : k = ospfsSize2nblocks newSize) (hkmax : k ≤ maxfileblks)
    (hni : n ≤ i) (hik : i < k) (hi : 266 ≤ i) (hi' : (i - 266) % 256 = 0) :
    ospfsInodeBlockno (m'.set32 oi newSize) oi (1024 * i) = m.get32 0 := by
  obtain ⟨hlo, hhi, -⟩ := hwf.inode.address
  have := V.firstdata_ge
  have := V.firstinob_ge
  have hptr := ptr_set_size (fun p h0 => (hs.owns.ok p h0).1) hwf.inode newSize (m := m')
  have hdiv : 1024 * i / 1024 = i := by omega
  have h0 : ptr (m'.set32 oi newSize) oi (.indir2 ((i - 266) / 256)) = 0 := by
    rw [hptr, h.grew.under]
    refine hwf.beyond _ ?_
    show ¬ 266 + 256 * ((i - 266) / 256) < n
    omega
  have hdeep : ptr (m'.set32 oi newSize) oi .indirect2 ≠ 0 := by
    rw [hptr]
    exact h.deep (by omega)
  have hpres : (Place.indir2 ((i - 266) / 256)).Valid →
      Present (m'.set32 oi newSize) oi (.indir2 ((i - 266) / 256)) := by
    refine fun hval => ⟨hval, fun q hq => ?_⟩
    cases hq
    exact hdeep
  obtain ⟨hlt, -⟩ | ⟨-, hlt, -⟩ | ⟨-, hpar, hidx⟩ := Place.leaf_cases i
  · omega
  · omega
  rw [ospfsInodeBlockno_slot, hdiv, slot_of_some hpar, hidx, h0, hi']
  · have hz : ospfsBlock 0 + 4 * 0 = 0 := rfl
    rw [hz]
    refine Mem.get32_congr fun x _ hx => ?_
    rw [Mem.set32_of_ne (by omega)]
    exact h.grew.super x (by omega)
  · have hsize : oiSize (m'.set32 oi newSize) oi = newSize := Mem.get32_set32_of_lt hv
    rw [hsize]
    unfold ospfsSize2nblocks at hk
    omega
  · have : oiFtype (m'.set32 oi newSize) oi = oiFtype m' oi := Mem.get32_set32_ne (by omega)
    rw [this, h.grew.ftype]
    exact hty
  · rw [hdiv]
    intro _
    refine (ptr_of_present (hpres ?_)).symm
    show (i - 266) / 256 < 256
    unfold maxfileblks at hkmax
    omega

theorem WellFormed.changeSize_one (h : V.WellFormed m oi n) (newSize : Nat) (hn : n < maxfileblks)
    (hk : ospfsSize2nblocks newSize = n + 1) (hroom : 3 ≤ freeBlocks m) :
    ∃ m', changeSize m oi newSize = some (.ok (), m') := by
  have hneed : blocksNeeded m oi n ≤ freeBlocks m := by
    unfold blocksNeeded
    split <;> omega
  rcases h.sound.toOpen.addBlock h.inode hn hneed with ⟨a, m₁, he, hext⟩ | ⟨-, -, htwo, -⟩
  case inr => omega
  have hs := hext.sound h.sound hn
  have hgrow : growLoop oi newSize (ospfsSize2nblocks newSize) 0 m = some (.ok (), m₁) := by
    rw [hk, growLoop_add (by rw [h.size2nblocks, hk]; exact Nat.lt_succ_self n) he]
    exact growLoop_done (by rw [hs.count, hk])
  exact ⟨_, changeSize_ok hgrow (shrinkLoop_done (by rw [hs.count, hk]))⟩

/-- **Growing maps every new block** iff it starts no indirect block under the
doubly indirect block. (Where it does, the boot block is read in the place of
the missing table; its first word is 0 on a formatted disk.) -/
theorem changeSize_allMapped_iff (h : V.WellFormed m oi n) (hty : oiFtype m oi ≠ ftypeSymlink)
    {newSize : Nat} (hmax : newSize < 1024 * maxfileblks) (hk : n < ospfsSize2nblocks newSize)
    (hr : changeSize m oi newSize = some (.ok (), m')) :
    (NoNewTable n (ospfsSize2nblocks newSize) →
      AllMapped oi n (ospfsSize2nblocks newSize) m m') ∧
    (m.get32 0 = 0 → AllMapped oi n (ospfsSize2nblocks newSize) m m' →
      NoNewTable n (ospfsSize2nblocks newSize)) := by
  have hv : newSize < 2 ^ 32 := by
    unfold maxfileblks at hmax
    omega
  have hkmax : ospfsSize2nblocks newSize ≤ maxfileblks := by
    unfold maxfileblks at hmax ⊢
    unfold ospfsSize2nblocks
    omega
  constructor
  · intro hno
    obtain ⟨m₁, hs, hf, rfl⟩ := h.changeSize_grow hmax hk h.filled
      (fun c a m₁ m₂ hc hnc hP hs he => hP.extend hs he (hno c hnc hc)) hr
    exact hf.allMapped h hs hty (Nat.le_of_lt hk) hv rfl
  · intro hboot hall i hni hik
    obtain ⟨m₁, hs, hf, rfl⟩ := h.changeSize_grow hmax hk h.reached
      (fun c a m₁ m₂ _ _ hP _ he => hP.extend he) hr
    by_contra hnew
    refine hall.nonzero i hik ?_
    rw [hf.inodeBlockno h hs hty _ hv rfl hkmax hni hik (by omega) (by omega)]
    exact hboot

theorem allMapped_firstBlock : ∃ m', changeSize (sampleDisk 0 7) 3136 1024 = some (.ok (), m') ∧
    AllMapped 3136 0 1 (sampleDisk 0 7) m' := by
  have hwf : sampleVolume.WellFormed (sampleDisk 0 7) 3136 0 :=
    sampleDisk_wellFormed (by decide) (by decide)
  have hfree : freeBlocks (sampleDisk 0 7) = 3 :=
    (sampleDisk_freeBlocks (by decide) (by decide)).trans (by decide)
  obtain ⟨m', hr⟩ := hwf.changeSize_one 1024 (by decide) (by decide) (by omega)
  have hty : oiFtype (sampleDisk 0 7) 3136 ≠ ftypeSymlink := by
    have h0 : oiFtype (sampleDisk 0 7) 3136 = 0 :=
      sampleDisk_word (j := 785) (by decide) (by decide)
    rw [h0]
    decide
  exact ⟨m', hr, (changeSize_allMapped_iff hwf hty (by decide) (by decide) hr).1 fun i _ hi =>
    .inl (Nat.lt_of_lt_of_le hi (by decide))⟩

/-- A file of 266 blocks grows by one: the call returns 0, and its last block is not mapped. -/
theorem block266_not_mapped : sampleVolume.WellFormed (sampleDisk 266 7) 3136 266 ∧
    ∃ m', changeSize (sampleDisk 266 7) 3136 (267 * 1024) = some (.ok (), m') ∧
      ospfsInodeBlockno m' 3136 (1024 * 266) = 0 ∧
      ¬ AllMapped 3136 266 267 (sampleDisk 266 7) m' := by
  have hwf : sampleVolume.WellFormed (sampleDisk 266 7) 3136 266 :=
    sampleDisk_wellFormed (by decide) (by decide)
  have hfree : freeBlocks (sampleDisk 266 7) = 3 :=
    (sampleDisk_freeBlocks (by decide) (by decide)).trans (by decide)
  have hty : oiFtype (sampleDisk 266 7) 3136 ≠ ftypeSymlink := by
    have h0 : oiFtype (sampleDisk 266 7) 3136 = 0 :=
      sampleDisk_word (j := 785) (by decide) (by decide)
    rw [h0]
    decide
  have hboot : (sampleDisk 266 7).get32 0 = 0 := sampleDisk_word (j := 0) (by decide) (by decide)
  obtain ⟨m', hr⟩ := hwf.changeSize_one (267 * 1024) (by decide) (by decide) (by omega)
  obtain ⟨m₁, hs, hf, rfl⟩ := hwf.changeSize_grow (by decide) (by decide) hwf.reached
    (fun c a m₁ m₂ _ _ hP _ he => hP.extend he) hr
  have hlast := hf.inodeBlockno hwf hs hty (267 * 1024) (by decide) rfl (by decide)
    (Nat.le_refl 266) (by decide) (Nat.le_refl 266) rfl
  rw [hboot] at hlast
  exact ⟨hwf, _, hr, hlast, fun hall => hall.nonzero 266 (by decide) hlast⟩

end Volume

end OsLabs.Ospfs
