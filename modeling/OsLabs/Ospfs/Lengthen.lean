import OsLabs.Ospfs.Trim

/-!
# OSPFS: adding blocks to a file

`add_block` on a file that may have pointers behind its last block, as
`remove_block` leaves them (`Held`). Where the table for the next block is
there, the new block is entered at once and replaces what stood there; else
`add_block` sees a file in order. `Far` addresses are never written.
-/

namespace OsLabs.Ospfs

namespace Volume

variable {V : Volume} {m m₀ m₁ m' : Mem} {oi b c i k n r t x : Nat} {p q : Place}

/-! ## What is never written -/

/-- Outside the bitmap, the inode's size and pointers, its tables and the free blocks. -/
structure Far (V : Volume) (oi : Nat) (m : Mem) (x : Nat) : Prop where
  bitmap : x < 2048 ∨ 1024 * V.firstinob ≤ x
  inode : x < oi ∨ (oi + 4 ≤ x ∧ x < oi + 16) ∨ oi + 64 ≤ x
  tables : ∀ p : Place, p.IsTable → ptr m oi p ≠ 0 →
    x < 1024 * ptr m oi p ∨ 1024 * ptr m oi p + 1024 ≤ x
  free : ∀ b, V.IsData b → isFree m b = true → x < 1024 * b ∨ 1024 * b + 1024 ≤ x

/-- The tables that the file has got during the call were free blocks. -/
theorem Far.table (hx : Far V oi m x) (h : Along V oi m m₁) (hp : p.IsTable)
    (h0 : ptr m₁ oi p ≠ 0) : x < 1024 * ptr m₁ oi p ∨ 1024 * ptr m₁ oi p + 1024 ≤ x := by
  rcases h.grew.ptrs p with he | ⟨-, hd, hf⟩
  · rw [he] at h0 ⊢
    exact hx.tables p hp h0
  · exact hx.free _ hd hf

theorem Far.take (hx : Far V oi m x) (h : Along V oi m m₁) (hb : V.IsData b)
    (hf : isFree m₁ b = true) : takeBlock m₁ b x = m₁ x :=
  take_of_ne hb hx.bitmap (hx.free b hb (h.grew.free b hb.2 hf))

theorem Far.freeBlock (hx : Far V oi m x) (h : Along V oi m m₁) (hb : V.IsData b) :
    freeBlock m₁ b x = m₁ x := (freeBlock_data h.mounted.firstinob hb).1 x hx.bitmap

theorem Far.set_inode (hx : Far V oi m x) {j v : Nat} (hj : j = 0 ∨ 16 ≤ j) (hj' : j + 4 ≤ 64) :
    m₁.set32 (oi + j) v x = m₁ x := by
  have := hx.inode
  exact Mem.set32_of_ne (by omega)

theorem set_entry_far {j v : Nat} (hb : V.IsData b) (hx : x < 1024 * b ∨ 1024 * b + 1024 ≤ x)
    (hj : j < 256) : m₁.set32 (ospfsBlock b + 4 * j) v x = m₁ x := by
  rw [hb.block]
  exact Mem.set32_of_ne (by omega)

theorem addSize_far (hx : Far V oi m x) (out : Ret × Mem) : (addSize oi out).2 x = out.2 x := by
  obtain ⟨_ | u, m₁⟩ := out
  · rfl
  · exact hx.set_inode (j := 0) (.inl rfl) (by decide)

section

variable (hx : Far V oi m x) (h₁ : Along V oi m m₁) (hoi : V.Inode oi) (hb : V.IsData b)

include hx h₁ hoi hb

theorem Far.addIndirect (hc : 10 ≤ c) : (addIndirect m₁ oi c b).2 x = m₁ x := by
  have hdir := directIndex_lt hc
  unfold Ospfs.addIndirect
  by_cases hI : oiIndirect m₁ oi = 0
  · rw [if_pos hI]
    obtain ⟨he, -⟩ | ⟨t, he, hcl, ht, htf, h₂, hkt, -⟩ := h₁.allocate hoi
    · simp only [he, if_true]
      exact hx.freeBlock h₁ hb
    · have hval : oiIndirect ((takeBlock m₁ t).set32 (oi + 56) t) oi = t :=
        Mem.get32_set32_of_lt (by have := ht.2; have := V.addressed; omega)
      simp only [he, ht.ne_zero, if_false, hcl, hval]
      rw [set_entry_far ht (hx.free t ht hkt.fresh) hdir,
        hx.set_inode (.inr (by decide)) (by decide)]
      exact hx.take h₁ ht htf
  · rw [if_neg hI]
    exact set_entry_far (h₁.points .indirect hI) (hx.table h₁ (p := .indirect) trivial hI) hdir

theorem Far.addUnder (hc : 266 ≤ c) (hc' : c < maxfileblks) (hD : oiIndirect2 m₁ oi ≠ 0) {d : Nat}
    (hd : d ≠ 0 → V.IsData d) : (addUnder m₁ oi c b d).2 x = m₁ x := by
  have hdir := directIndex_lt (b := c) (by omega)
  have hk : (c - 266) / 256 < 256 := by
    unfold maxfileblks at hc'
    omega
  have hi : (indirIndex c).toNat = (c - 266) / 256 := toNat_indirIndex (by omega)
  have hread : m₁.get32 (ospfsBlock (oiIndirect2 m₁ oi) + 4 * ((c - 266) / 256)) =
      ptr m₁ oi (.indir2 ((c - 266) / 256)) := by
    simp only [ptr, hk, if_true, entry, hD, if_false]
  unfold Ospfs.addUnder
  simp only [hi, hread]
  by_cases h0 : ptr m₁ oi (.indir2 ((c - 266) / 256)) = 0
  · simp only [h0, if_true]
    obtain ⟨he, -⟩ | ⟨t, he, hcl, ht, htf, h₂, hkt, -⟩ := h₁.allocate hoi
    · simp only [he, if_true]
      split
      · rename_i hd0
        have hf : osFirstinob (Ospfs.freeBlock m₁ b) = V.firstinob := by
          rw [← h₁.mounted.firstinob]
          exact Mem.get32_congr fun y _ hy =>
            (freeBlock_data h₁.mounted.firstinob hb).1 y (.inl (by omega))
        rw [(freeBlock_data hf (hd hd0)).1 x hx.bitmap]
        exact hx.freeBlock h₁ hb
      · exact hx.freeBlock h₁ hb
    · simp only [he, ht.ne_zero, if_false, hcl]
      rw [set_entry_far ht (hx.free t ht hkt.fresh) hdir]
      exact hx.take h₁ ht htf
  · rw [if_neg h0]
    exact set_entry_far (h₁.points _ h0) (hx.table h₁ (p := .indir2 _) trivial h0) hdir

theorem Far.addIndirect2 (hc : 266 ≤ c) (hc' : c < maxfileblks) :
    (addIndirect2 m₁ oi c b).2 x = m₁ x := by
  unfold Ospfs.addIndirect2
  by_cases hD : oiIndirect2 m₁ oi = 0
  · rw [if_pos hD]
    obtain ⟨he, -⟩ | ⟨d, he, hcl, hd, hdf, h₂, hkd, hptr, -⟩ := h₁.allocate hoi
    · simp only [he, if_true]
      exact hx.freeBlock h₁ hb
    · have hpi : Present (takeBlock m₁ d) oi .indirect2 := present_of_root trivial rfl
      obtain ⟨h₃, hptr₃, -⟩ := hkd.enter h₂ hoi hpi ((hptr _).trans hD) (fun k => by simp)
      have hslot : slot (takeBlock m₁ d) oi .indirect2 = oi + 60 := rfl
      rw [hslot] at h₃ hptr₃
      have hval : oiIndirect2 ((takeBlock m₁ d).set32 (oi + 60) d) oi = d := by
        have := hptr₃ .indirect2
        rwa [if_pos rfl] at this
      simp only [he, hd.ne_zero, if_false, hcl]
      rw [hx.addUnder h₃ hoi hb hc hc' (hval.trans_ne hd.ne_zero) fun _ => hd,
        hx.set_inode (.inr (by decide)) (by decide)]
      exact hx.take h₁ hd hdf
  · rw [if_neg hD]
    exact hx.addUnder h₁ hoi hb hc hc' hD fun h => absurd rfl h

end

/-- **The frame of `add_block`.** -/
theorem Along.addBlock_far (h : Along V oi m m) (hoi : V.Inode oi)
    (hcount : ospfsSize2nblocks (oiSize m oi) = c) (hc : c < maxfileblks) (hx : Far V oi m x) :
    (addBlock m oi).2 x = m x := by
  rw [addBlock_eq, hcount]
  simp only
  rw [if_neg (by omega)]
  obtain ⟨he, -⟩ | ⟨b, he, hcl, hb, hbf, h₁, -⟩ := h.allocate hoi
  · rw [he, if_pos rfl]
  · rw [he]
    simp only [hb.ne_zero, if_false]
    rw [hcl, addSize_far hx]
    rcases Nat.lt_or_ge c 10 with h10 | h10
    · rw [if_pos h10]
      simp only
      rw [Nat.add_assoc, hx.set_inode (.inr (by omega)) (by omega)]
      exact hx.take h hb hbf
    rw [if_neg (by omega)]
    rcases Nat.lt_or_ge c 266 with h266 | h266
    · rw [if_pos (by omega), hx.addIndirect h₁ hoi hb h10]
      exact hx.take h hb hbf
    · rw [if_neg (by omega), hx.addIndirect2 h₁ hoi hb h266 hc]
      exact hx.take h hb hbf

/-! ## `add_block` -/

theorem Held.along (h : Held V oi c m) (ht : Taken m oi) : Along V oi m m :=
  ⟨h.mounted, ⟨fun p h0 => ⟨h.owns.ok p h0, ht p h0⟩, h.owns.inj⟩, .refl, rfl⟩

/-- The block `b` is taken and entered in slot `s`. -/
def enterBlock (m : Mem) (oi b s : Nat) : Mem :=
  let w := (takeBlock m b).set32 s b
  w.set32 oi (oiSize w oi + 1024)

/-- Where the table for the next block is there, `add_block` takes one block. -/
theorem Held.addBlock_present (h : Held V oi c m) (ht : Taken m oi) (hoi : V.Inode oi)
    (hc : c < maxfileblks) (hp : Present m oi (.leaf c)) :
    (addBlock m oi = (.error .eNoSpc, m) ∧ freeBlocks m = 0) ∨
      ∃ b, V.IsData b ∧ isFree m b = true ∧
        addBlock m oi = (.ok (), enterBlock m oi b (slot m oi (.leaf c))) := by
  rw [addBlock_eq, h.count]
  simp only
  rw [if_neg (by omega)]
  obtain ⟨he, hno⟩ | ⟨b, he, hcl, hb, hbf, -, -, hptr, -⟩ := (h.along ht).allocate hoi
  · rw [he, if_pos rfl]
    exact .inl ⟨rfl, hno⟩
  refine .inr ⟨b, hb, hbf, ?_⟩
  rw [he]
  simp only [hb.ne_zero, if_false]
  rw [hcl]
  obtain ⟨h10, hpar, hidx⟩ | ⟨h10, h266, hpar, hidx⟩ | ⟨h266, hpar, hidx⟩ := Place.leaf_cases c
  · rw [if_pos h10, slot_of_none hpar, hidx]
    rfl
  · have hI : oiIndirect (takeBlock m b) oi = oiIndirect m oi := hptr .indirect
    have hI0 : oiIndirect m oi ≠ 0 := hp.2 _ hpar
    have hdir : directIndex c = c - 10 := directIndex_indirect (by omega) (by omega)
    rw [if_neg (by omega), if_pos h266, slot_of_some hpar, hidx]
    unfold Ospfs.addIndirect
    rw [if_neg (hI.trans_ne hI0), hI, hdir]
    rfl
  · have hD : oiIndirect2 (takeBlock m b) oi = oiIndirect2 m oi := hptr .indirect2
    have hT0 := hp.2 _ hpar
    have hD0 : oiIndirect2 m oi ≠ 0 := (present_of_ne_zero hT0).2 _ rfl
    have hk : (c - 266) / 256 < 256 := by
      unfold maxfileblks at hc
      omega
    have hdir : directIndex c = (c - 266) % 256 := directIndex_indirect2 (by omega)
    have hi : (indirIndex c).toNat = (c - 266) / 256 := toNat_indirIndex (by omega)
    have hT : (takeBlock m b).get32 (ospfsBlock (oiIndirect2 m oi) + 4 * ((c - 266) / 256)) =
        ptr m oi (.indir2 ((c - 266) / 256)) := by
      rw [← hptr, ← hD]
      simp only [ptr, hk, if_true, entry, hD.trans_ne hD0, if_false]
    rw [if_neg (by omega), if_neg (by omega), slot_of_some hpar, hidx]
    unfold Ospfs.addIndirect2 Ospfs.addUnder
    rw [if_neg (hD.trans_ne hD0), hD]
    simp only [hi, hT, hdir]
    rw [if_neg hT0]
    rfl

/-- What a successful `add_block` does to a file of `c` blocks. -/
structure Lengthened (V : Volume) (oi c : Nat) (m m' : Mem) : Prop where
  held : Held V oi (c + 1) m'
  taken : Taken m' oi
  size : oiSize m' oi = (oiSize m oi + 1024) % 2 ^ 32
  ftype : oiFtype m' oi = oiFtype m oi
  less : freeBlocks m' < freeBlocks m
  free : ∀ b < V.nblocks, isFree m' b = true → isFree m b = true
  leaves : ∀ b, b ≠ c → ptr m' oi (.leaf b) = ptr m oi (.leaf b)
  tables : ∀ p : Place, p.IsTable → ptr m' oi p = ptr m oi p ∨
    (ptr m oi p = 0 ∧ V.IsData (ptr m' oi p) ∧ isFree m (ptr m' oi p) = true)
  fresh : ptr m' oi (.leaf c) ≠ 0 → isFree m (ptr m' oi (.leaf c)) = true ∧
    ∀ x, 1024 * ptr m' oi (.leaf c) ≤ x → x < 1024 * ptr m' oi (.leaf c) + 1024 → m' x = 0
  gained : ∃ a, V.IsData a ∧ isFree m a = true ∧ isFree m' a = false ∧
    ∀ p, ptr m' oi p = a → p = .leaf c
  far : ∀ x, Far V oi m x → m' x = m x

theorem Extended.lengthened {a : Nat} (he : Extended V oi c a m m') (h : Held V oi c m)
    (hc : c < maxfileblks) (hfar : ∀ x, Far V oi m x → m' x = m x) :
    Lengthened V oi c m m' := by
  have hcount := h.count
  refine ⟨⟨he.mounted, ⟨fun p h0 => (he.owns.ok p h0).1, he.owns.inj⟩, ?_, fun x hx => ?_⟩,
    fun p h0 => (he.owns.ok p h0).2, he.size, he.grew.ftype, he.freeBlocks_lt h.mounted,
    he.grew.free, fun b hb => he.keeps _ fun hu => ?_, fun p _ => he.grew.ptrs p, fun h0 => ?_,
    ⟨a, he.taken.1, he.fresh, he.taken.2, he.leaf⟩, hfar⟩
  · unfold maxfileblks at hc
    rw [he.size, size2nblocks_add (by omega), hcount]
  · rw [he.grew.super x (by omega)]
    exact h.boot x hx
  · rcases under_isTable hu with heq | htab
    · rw [Place.leaf.injEq] at heq
      exact hb heq
    · exact htab
  · rcases he.entered with heq | ⟨hge, hlost⟩
    · rw [heq]
      exact ⟨he.fresh, he.zero⟩
    · -- the table was not entered, so there is no pointer
      refine absurd (ptr_of_not_present fun hp => ?_) h0
      obtain ⟨hlt, -⟩ | ⟨-, hlt, -⟩ | ⟨-, hpar, -⟩ := Place.leaf_cases c
      · omega
      · omega
      · exact hp.2 _ hpar ((he.grew.under _).trans hlost)

/-! ## A file whose next place has its table -/

section

variable {s : Nat}

theorem enterBlock_of_ne (hx : x < s ∨ s + 4 ≤ x) (hx' : x < oi ∨ oi + 4 ≤ x) :
    enterBlock m oi b s x = takeBlock m b x :=
  (Mem.set32_of_ne hx').trans (Mem.set32_of_ne hx)

theorem enterBlock_get32 {a : Nat} (ha : a + 4 ≤ s ∨ s + 4 ≤ a) (ha' : a + 4 ≤ oi ∨ oi + 4 ≤ a) :
    (enterBlock m oi b s).get32 a = (takeBlock m b).get32 a :=
  Mem.get32_congr fun _ _ _ => enterBlock_of_ne (by omega) (by omega)

end

theorem Taken.ne_free (ht : Taken m oi) (hb : V.IsData b) (hbf : isFree m b = true) :
    ptr m oi q ≠ b := by
  rintro rfl
  have := ht q hb.ne_zero
  rw [hbf] at this
  cases this

theorem Held.enterBlock_far (h : Held V oi c m) (hp : Present m oi (.leaf c)) (hb : V.IsData b)
    (hbf : isFree m b = true) (hx : Far V oi m x) :
    enterBlock m oi b (slot m oi (.leaf c)) x = m x := by
  have hxi := hx.inode
  have hxs : x < slot m oi (.leaf c) ∨ slot m oi (.leaf c) + 4 ≤ x := by
    rcases h.points.slot_home hp with hin | ⟨t, htab, ht0, h1, h2⟩
    · omega
    · have := hx.tables t htab ht0
      omega
  rw [enterBlock_of_ne hxs (by omega)]
  exact take_of_ne hb hx.bitmap (hx.free b hb hbf)

section

variable (h : Held V oi c m) (ht : Taken m oi) (hoi : V.Inode oi) (hp : Present m oi (.leaf c))
  (hb : V.IsData b) (hbf : isFree m b = true)

include h ht hoi hp hb hbf

theorem Held.slot_apart : ((oi + 16 ≤ slot m oi (.leaf c) ∧ slot m oi (.leaf c) + 4 ≤ oi + 64) ∨
      1024 * V.firstdata ≤ slot m oi (.leaf c)) ∧
    (slot m oi (.leaf c) + 4 ≤ 1024 * b ∨ 1024 * b + 1024 ≤ slot m oi (.leaf c)) :=
  ⟨(h.points.slot_range hoi hp).2.2,
    (h.along ht).slot_outside hoi hb (fun _ _ => ht.ne_free hb hbf) hp⟩

theorem Held.ptr_enterBlock (q : Place) :
    ptr (enterBlock m oi b (slot m oi (.leaf c))) oi q =
      if q = .leaf c then b else ptr m oi q := by
  obtain ⟨h₁, -, hptr₁⟩ := (h.along ht).take hoi hb hbf
  obtain ⟨hlo, hhi, -⟩ := hoi.address
  obtain ⟨hsl, hout⟩ := h.slot_apart ht hoi hp hb hbf
  have hslot₁ (r : Place) : slot (takeBlock m b) oi r = slot m oi r :=
    (place_congr fun r _ => hptr₁ r).2
  have hp₁ : Present (takeBlock m b) oi (.leaf c) := (place_congr fun r _ => hptr₁ r).1.2 hp
  have hfirst := V.firstdata_ge
  have hval : (enterBlock m oi b (slot m oi (.leaf c))).get32 (slot m oi (.leaf c)) = b := by
    have hb32 : b < 2 ^ 32 := by
      have := hb.2
      have := V.addressed
      omega
    rw [enterBlock, Mem.get32_set32_ne (by omega), Mem.get32_set32_of_lt hb32]
  have hupd : ptr (enterBlock m oi b (slot m oi (.leaf c))) oi q = _ := ptr_update hp₁
    (fun r hr hne => ?_) (fun r hr => absurd (Place.parent_isTable hr) id) q
  · rw [hupd, hslot₁, hval, hptr₁]
  · have hsep := h₁.points.slot_sep hoi h₁.owns.inj hr hp₁ hne
    have hr' := h₁.points.slot_range hoi hr
    rw [hslot₁ (.leaf c)] at hsep
    exact enterBlock_get32 hsep (by omega)

theorem Held.isFree_enterBlock {d : Nat} (hd : d < V.nblocks) :
    isFree (enterBlock m oi b (slot m oi (.leaf c))) d = (isFree m d && decide (b ≠ d)) := by
  obtain ⟨hlo, hhi, -⟩ := hoi.address
  obtain ⟨hsl, -⟩ := h.slot_apart ht hoi hp hb hbf
  have hinob := V.firstinob_ge
  have hfirst := V.firstdata_ge
  rw [← isFree_take hb hd]
  exact isFree_congr (fun x _ hx => enterBlock_of_ne (by omega) (by omega)) hd

theorem Held.oiSize_enterBlock :
    oiSize (enterBlock m oi b (slot m oi (.leaf c))) oi = (oiSize m oi + 1024) % 2 ^ 32 := by
  obtain ⟨h₁, -⟩ := (h.along ht).take hoi hb hbf
  obtain ⟨hlo, hhi, -⟩ := hoi.address
  obtain ⟨hsl, -⟩ := h.slot_apart ht hoi hp hb hbf
  have hfirst := V.firstdata_ge
  have hsize : oiSize ((takeBlock m b).set32 (slot m oi (.leaf c)) b) oi = oiSize m oi := by
    rw [← h₁.size]
    exact Mem.get32_congr fun x _ _ => Mem.set32_of_ne (by omega)
  rw [← hsize]
  exact Mem.get32_set32

theorem Held.enterBlock_super (hx : x < 2048) :
    enterBlock m oi b (slot m oi (.leaf c)) x = m x := by
  obtain ⟨hlo, hhi, -⟩ := hoi.address
  obtain ⟨hsl, -⟩ := h.slot_apart ht hoi hp hb hbf
  have hinob := V.firstinob_ge
  have hfirst := V.firstdata_ge
  have := hb.address
  rw [enterBlock_of_ne (by omega) (by omega)]
  exact take_of_ne hb (.inl hx) (by omega)

theorem Held.mounted_enterBlock : V.Mounted (enterBlock m oi b (slot m oi (.leaf c))) := by
  refine h.mounted.congr (fun x _ hx => h.enterBlock_super ht hoi hp hb hbf hx) fun d hd => ?_
  have := V.firstdata_le
  rw [h.isFree_enterBlock ht hoi hp hb hbf (by omega), h.mounted.low d hd]
  rfl

theorem Held.oiFtype_enterBlock :
    oiFtype (enterBlock m oi b (slot m oi (.leaf c))) oi = oiFtype m oi := by
  obtain ⟨hlo, hhi, -⟩ := hoi.address
  obtain ⟨hsl, -⟩ := h.slot_apart ht hoi hp hb hbf
  have hinob := V.firstinob_ge
  have hfirst := V.firstdata_ge
  have := hb.address
  have heq : oiFtype (enterBlock m oi b (slot m oi (.leaf c))) oi = oiFtype (takeBlock m b) oi :=
    enterBlock_get32 (by omega) (by omega)
  rw [heq]
  exact Mem.get32_congr fun x hx hx' => take_of_ne hb (by omega) (by omega)

theorem Held.freeBlocks_enterBlock :
    freeBlocks (enterBlock m oi b (slot m oi (.leaf c))) + 1 = freeBlocks m := by
  obtain ⟨h₁, -⟩ := (h.along ht).take hoi hb hbf
  obtain ⟨hlo, hhi, -⟩ := hoi.address
  obtain ⟨hsl, -⟩ := h.slot_apart ht hoi hp hb hbf
  have hinob := V.firstinob_ge
  have hfirst := V.firstdata_ge
  have hcount := freeBlocks_take h.mounted hb hbf
  have heq : freeBlocks (enterBlock m oi b (slot m oi (.leaf c))) = freeBlocks (takeBlock m b) :=
    freeBlocks_congr h₁.mounted fun x _ hx => enterBlock_of_ne (by omega) (by omega)
  omega

theorem Held.enterBlock (hc : c < maxfileblks) :
    Lengthened V oi c m (enterBlock m oi b (slot m oi (.leaf c))) := by
  obtain ⟨hlo, hhi, -⟩ := hoi.address
  obtain ⟨hsl, hout⟩ := h.slot_apart ht hoi hp hb hbf
  have hptr := h.ptr_enterBlock ht hoi hp hb hbf
  have hbit (d : Nat) (hd : d < V.nblocks) := h.isFree_enterBlock ht hoi hp hb hbf hd
  have hsize := h.oiSize_enterBlock ht hoi hp hb hbf
  have hcount := h.count
  have hleaf : ptr (Volume.enterBlock m oi b (slot m oi (.leaf c))) oi (.leaf c) = b :=
    (hptr _).trans (if_pos rfl)
  refine ⟨⟨h.mounted_enterBlock ht hoi hp hb hbf, ?_, ?_,
      fun x hx => (h.enterBlock_super ht hoi hp hb hbf (by omega)).trans (h.boot x hx)⟩,
    fun q h0 => ?_, hsize, h.oiFtype_enterBlock ht hoi hp hb hbf,
    Nat.lt_of_succ_le (h.freeBlocks_enterBlock ht hoi hp hb hbf).le, fun d hd hf => ?_,
    fun d hd => ?_,
    fun q hq => .inl ?_, fun _ => ?_, ⟨b, hb, hbf, ?_, fun q hq => ?_⟩,
    fun x hx => h.enterBlock_far hp hb hbf hx⟩
  · refine h.owns.step (t := .leaf c) (b := b) (fun q => ht.ne_free hb hbf) (fun q => ?_)
      (fun q h0 _ => h.points q h0) fun _ => hb
    rw [hptr]
    split
    · exact .inr (.inr ⟨by assumption, rfl⟩)
    · exact .inl rfl
  · unfold maxfileblks at hc
    rw [hsize, size2nblocks_add (by omega), hcount]
  · rw [hptr] at h0 ⊢
    split at h0
    · rename_i hq
      rw [if_pos hq, hbit b hb.2]
      simp
    · rename_i hq
      rw [if_neg hq, hbit _ (h.points q h0).2, ht q h0]
      rfl
  · rw [hbit d hd, Bool.and_eq_true] at hf
    exact hf.1
  · rw [hptr, if_neg fun heq => hd (by simpa using heq)]
  · rw [hptr, if_neg]
    rintro rfl
    exact hq
  · rw [hleaf]
    have := hb.address
    refine ⟨hbf, fun x hx hx' => ?_⟩
    rw [enterBlock_of_ne (by omega) (by omega)]
    exact take_zero hb hx hx'
  · rw [hbit b hb.2]
    simp
  · by_contra hne
    rw [hptr, if_neg hne] at hq
    exact ht.ne_free hb hbf hq

end

structure Failed (V : Volume) (oi c : Nat) (m m' : Mem) : Prop where
  held : Held V oi c m'
  size : oiSize m' oi = oiSize m oi
  bits : ∀ b < V.nblocks, isFree m' b = isFree m b
  ptrs : ∀ p, ptr m' oi p = ptr m oi p ∨
    (ptr m oi p = 0 ∧ V.IsData (ptr m' oi p) ∧ isFree m (ptr m' oi p) = true)
  far : ∀ x, Far V oi m x → m' x = m x

theorem Failed.refl (h : Held V oi c m) : Failed V oi c m m :=
  ⟨h, rfl, fun _ _ => rfl, fun _ => .inl rfl, fun _ _ => rfl⟩

theorem Failed.ne_zero (h : Failed V oi c m m') (h0 : ptr m oi p ≠ 0) : ptr m' oi p = ptr m oi p :=
  (h.ptrs p).resolve_right fun hz => h0 hz.1

theorem Backed.failed (hb : Backed V oi m m') (h : Held V oi c m)
    (hinj : ∀ p q, ptr m' oi p ≠ 0 → ptr m' oi p = ptr m' oi q → p = q)
    (hfar : ∀ x, Far V oi m x → m' x = m x) : Failed V oi c m m' := by
  refine ⟨⟨?_, ⟨fun p h0 => ?_, hinj⟩, ?_, fun x hx => ?_⟩, hb.size, hb.bits, hb.ptrs, hfar⟩
  · refine h.mounted.congr (fun x _ hx => hb.super x hx) fun b hlow => ?_
    have := V.firstdata_le
    rw [hb.bits b (by omega)]
    exact h.mounted.low b hlow
  · rcases hb.ptrs p with he | ⟨-, hd, -⟩
    · rw [he] at h0 ⊢
      exact h.points p h0
    · exact hd
  · rw [hb.size]
    exact h.count
  · rw [hb.super x (by omega)]
    exact h.boot x hx

/-- **One step**: `add_block` adds a block, or fails. Where it fails with enough blocks
for two allocations, it leaves the number of a new doubly indirect block. -/
theorem Held.addBlock (h : Held V oi c m) (ht : Taken m oi) (hoi : V.Inode oi)
    (hc : c < maxfileblks) :
    (∃ m', addBlock m oi = (.ok (), m') ∧ Lengthened V oi c m m') ∨
      ∃ m', addBlock m oi = (.error .eNoSpc, m') ∧ Failed V oi c m m' ∧
        (freeBlocks m < blocksNeeded m oi c ∨ oiIndirect2 m' oi ≠ oiIndirect2 m oi) := by
  by_cases hp : Present m oi (.leaf c)
  · rcases h.addBlock_present ht hoi hc hp with ⟨he, hno⟩ | ⟨b, hb, hbf, he⟩
    · refine .inr ⟨m, he, .refl h, .inl ?_⟩
      unfold blocksNeeded
      split <;> omega
    · exact .inl ⟨_, he, h.enterBlock ht hoi hp hb hbf hc⟩
  have hal := h.along ht
  have hfar (m' : Mem) (r : Ret) (he : Ospfs.addBlock m oi = (r, m')) (x : Nat)
      (hx : Far V oi m x) : m' x = m x := by
    have := hal.addBlock_far hoi h.count hc hx
    rwa [he] at this
  have hopen : Open V oi c m := ⟨h.mounted, hal.owns, h.count, ptr_of_not_present hp⟩
  rcases Nat.lt_or_ge (freeBlocks m) (blocksNeeded m oi c) with hroom | hroom
  · obtain ⟨m', he, hb, hptr⟩ := hal.addBlock_short hoi h.count (Nat.le_of_lt hc) hroom
    refine .inr ⟨m', he, hb.failed h (fun p q h0 heq => ?_) (hfar m' _ he), .inl hroom⟩
    rw [hptr] at h0 heq
    rw [hptr] at heq
    exact h.owns.inj p q h0 heq
  · rcases hopen.addBlock hoi hc hroom with
      ⟨a, m', he, hext⟩ | ⟨-, hD, -, m', he, hb, hD', hown⟩
    · exact .inl ⟨m', he, hext.lengthened h hc (hfar m' _ he)⟩
    · exact .inr ⟨m', he, hb.failed h hown.inj (hfar m' _ he),
        .inr fun hsame => hD' (hsame.trans hD)⟩

/-! ## The first loop of `change_size` -/

/-- The loop ended by a failed `add_block`, in a file of `c'` blocks for which `P` holds. -/
def Abandoned (V : Volume) (oi : Nat) (P : Nat → Mem → Prop) (newSize r c : Nat) (m' : Mem) :
    Prop :=
  ∃ c' m₁ m₂, c ≤ c' ∧ c' < ospfsSize2nblocks newSize ∧ Held V oi c' m₁ ∧ Taken m₁ oi ∧ P c' m₁ ∧
    Failed V oi c' m₁ m₂ ∧ m' = removeBlocks oi (r + (c' - c)) m₂

/-- **The growing loop** returns: what every successful `add_block` keeps holds at
the end, or where `add_block` fails. -/
theorem Held.growLoop {P : Nat → Mem → Prop} (newSize : Nat) {fuel r : Nat}
    (hstep : ∀ c m m', c < ospfsSize2nblocks newSize → P c m → Held V oi c m → Taken m oi →
      Lengthened V oi c m m' → P (c + 1) m')
    (hlim : ∀ c m, P c m → c < ospfsSize2nblocks newSize → c < maxfileblks)
    (hoi : V.Inode oi) (h : Held V oi c m) (ht : Taken m oi) (hP : P c m)
    (hck : c ≤ ospfsSize2nblocks newSize) (hfuel : ospfsSize2nblocks newSize ≤ c + fuel) :
    ∃ res m', growLoop oi newSize fuel r m = some (res, m') ∧
      ((res = .ok () ∧ Held V oi (ospfsSize2nblocks newSize) m' ∧ Taken m' oi ∧
        P (ospfsSize2nblocks newSize) m') ∨
      (res = .error .eNoSpc ∧ Abandoned V oi P newSize r c m')) := by
  induction fuel generalizing m c r with
  | zero =>
    obtain rfl : c = ospfsSize2nblocks newSize := by omega
    exact ⟨.ok (), m, growLoop_done (Nat.le_of_eq h.count.symm), .inl ⟨rfl, h, ht, hP⟩⟩
  | succ fuel ih =>
    by_cases hlt : c < ospfsSize2nblocks newSize
    case neg =>
      obtain rfl : c = ospfsSize2nblocks newSize := by omega
      exact ⟨.ok (), m, growLoop_done (Nat.le_of_eq h.count.symm), .inl ⟨rfl, h, ht, hP⟩⟩
    have hsize : ospfsSize2nblocks (oiSize m oi) < ospfsSize2nblocks newSize := by
      rw [h.count]
      exact hlt
    rcases h.addBlock ht hoi (hlim c m hP hlt) with ⟨m₁, he, hlen⟩ | ⟨m₂, he, hfail, -⟩
    · rw [growLoop_add hsize he]
      obtain ⟨res, m', hg, hres⟩ := ih (r := r + 1) hlen.held hlen.taken
        (hstep c m m₁ hlt hP h ht hlen) (by omega) (by omega)
      refine ⟨res, m', hg, ?_⟩
      rcases hres with hdone | ⟨hres, c', m₁', m₂, hle, hlt', hh, ht', hP', hf, hm'⟩
      · exact .inl hdone
      · refine .inr ⟨hres, c', m₁', m₂, by omega, hlt', hh, ht', hP', hf, ?_⟩
        rw [hm']
        congr 1
        omega
    · rw [growLoop_full hsize he]
      refine ⟨_, _, rfl, .inr ⟨rfl, c, m, m₂, Nat.le_refl c, hlt, h, ht, hP, hfail, ?_⟩⟩
      rw [Nat.sub_self]
      rfl

/-- How a file of `n` blocks has grown: its blocks are as they were, the new ones
are mapped to zeros or not at all. -/
structure Grows (V : Volume) (oi n : Nat) (m₀ : Mem) (c : Nat) (m : Mem) : Prop where
  from_n : n ≤ c
  size : oiSize m oi = (oiSize m₀ oi + 1024 * (c - n)) % 2 ^ 32
  ftype : oiFtype m oi = oiFtype m₀ oi
  room : c + freeBlocks m ≤ n + freeBlocks m₀
  leaves : ∀ b < n, ptr m oi (.leaf b) = ptr m₀ oi (.leaf b)
  zero : ∀ b, n ≤ b → b < c → ptr m oi (.leaf b) ≠ 0 → ∀ x, 1024 * ptr m oi (.leaf b) ≤ x →
    x < 1024 * ptr m oi (.leaf b) + 1024 → m x = 0
  far : ∀ x, Far V oi m₀ x → Far V oi m x ∧ m x = m₀ x

theorem Grows.refl : Grows V oi n m n m :=
  ⟨Nat.le_refl n, by rw [Nat.sub_self]; exact (Nat.mod_eq_of_lt Mem.get32_lt).symm, rfl,
    Nat.le_refl _, fun _ _ => rfl, fun b h1 h2 => by omega, fun _ hx => ⟨hx, rfl⟩⟩

theorem Held.leaf_far (h : Held V oi c m) (ht : Taken m oi) (hoi : V.Inode oi)
    (h0 : ptr m oi (.leaf b) ≠ 0) (hx : 1024 * ptr m oi (.leaf b) ≤ x)
    (hx' : x < 1024 * ptr m oi (.leaf b) + 1024) : Far V oi m x := by
  obtain ⟨-, hhi, -⟩ := hoi.address
  have := V.firstdata_ge
  have hd := h.points _ h0
  have := hd.address
  refine ⟨by omega, by omega, fun p hp hp0 => ?_, fun d hd hf => ?_⟩
  · by_contra hin
    have hsame := h.owns.inj p (.leaf b) hp0 (by omega)
    rw [hsame] at hp
    exact hp
  · by_contra hin
    have hsame : d = ptr m oi (.leaf b) := by omega
    rw [hsame, ht _ h0] at hf
    cases hf

theorem Held.head_far (h : Held V oi c m) (hoi : V.Inode oi) (hx : oi + 4 ≤ x) (hx' : x < oi + 16) :
    Far V oi m x := by
  obtain ⟨hlo, hhi, -⟩ := hoi.address
  refine ⟨by omega, by omega, fun p _ hp0 => ?_, fun d hd _ => ?_⟩
  · have := (h.points p hp0).address
    omega
  · have := hd.address
    omega

theorem Lengthened.far_of_far (h : Lengthened V oi c m m') (hx : Far V oi m x) :
    Far V oi m' x := by
  refine ⟨hx.bitmap, hx.inode, fun p hp h0 => ?_, fun b hb hf => hx.free b hb (h.free b hb.2 hf)⟩
  rcases h.tables p hp with he | ⟨-, hd, hf⟩
  · rw [he] at h0 ⊢
    exact hx.tables p hp h0
  · exact hx.free _ hd hf

theorem Grows.step (h : Grows V oi n m₀ c m) (hh : Held V oi c m) (ht : Taken m oi)
    (hoi : V.Inode oi) (hl : Lengthened V oi c m m') : Grows V oi n m₀ (c + 1) m' := by
  have hn := h.from_n
  have hroom := h.room
  have hless := hl.less
  refine ⟨by omega, ?_, hl.ftype.trans h.ftype, by omega, fun b hb => ?_, fun b hb hbc h0 => ?_,
    fun x hx => ?_⟩
  · rw [hl.size, h.size]
    omega
  · rw [hl.leaves b (by omega)]
    exact h.leaves b hb
  · rcases Nat.lt_succ_iff_lt_or_eq.1 hbc with hlt | rfl
    · have hsame := hl.leaves b (by omega)
      rw [hsame] at h0 ⊢
      intro x hx hx'
      rw [hl.far x (hh.leaf_far ht hoi h0 hx hx')]
      exact h.zero b hb hlt h0 x hx hx'
    · exact (hl.fresh h0).2
  · obtain ⟨hfar, heq⟩ := h.far x hx
    exact ⟨hl.far_of_far hfar, (hl.far x hfar).trans heq⟩

/-! ## `change_size` -/

/-- A growth that was given up: the first `n` blocks are as they were. -/
structure Undone (V : Volume) (oi n : Nat) (m m' : Mem) : Prop where
  held : Held V oi n m'
  size : oiSize m' oi = oiSize m oi
  leaves : ∀ b < n, ptr m oi (.leaf b) ≠ 0 → ptr m' oi (.leaf b) = ptr m oi (.leaf b)
  far : ∀ x, Far V oi m x → m' x = m x

theorem Grows.undone (h : Grows V oi n m c m₁) (hoi : V.Inode oi) (hf : Failed V oi c m₁ m')
    (hc : c < maxfileblks) : Undone V oi n m (removeBlocks oi (c - n) m') := by
  have hn := h.from_n
  obtain ⟨hchop, hsize⟩ := hf.held.removeBlocks hoi hc (Nat.sub_le c n)
  have hsize₀ : oiSize m oi < 2 ^ 32 := Mem.get32_lt
  rw [show c - (c - n) = n by omega] at hchop
  refine ⟨hchop.held, ?_, fun b hb h0 => ?_, fun x hx => ?_⟩
  · rw [hsize, hf.size, h.size]
    omega
  · have hsame := h.leaves b hb
    rw [hchop.kept (.leaf b) (Nat.lt_succ_of_lt hb), hf.ne_zero (hsame.trans_ne h0), hsame]
  · obtain ⟨hfar, heq⟩ := h.far x hx
    rw [hchop.bytes x hx.bitmap hx.inode fun p hp h0 => ?_, hf.far x hfar, heq]
    rcases hf.ptrs p with he | ⟨-, hd, hfree⟩
    · rw [he] at h0 ⊢
      exact hfar.tables p hp h0
    · exact hfar.free _ hd hfree

theorem Held.changeSize_grow (h : Held V oi n m) (ht : Taken m oi) (hoi : V.Inode oi)
    (newSize : Nat) (hk : n ≤ ospfsSize2nblocks newSize)
    (hlim : ospfsSize2nblocks newSize ≤ maxfileblks ∨ n + freeBlocks m < maxfileblks) :
    (∃ m₁, changeSize m oi newSize = some (.ok (), m₁.set32 oi newSize) ∧
      Held V oi (ospfsSize2nblocks newSize) m₁ ∧ Taken m₁ oi ∧
      Grows V oi n m (ospfsSize2nblocks newSize) m₁) ∨
    ∃ m', changeSize m oi newSize = some (.error .eNoSpc, m') ∧ Undone V oi n m m' := by
  have hlim' (c : Nat) (m₁ : Mem) (hg : Grows V oi n m c m₁)
      (hc : c < ospfsSize2nblocks newSize) : c < maxfileblks := by
    have := hg.room
    omega
  obtain ⟨res, m', hg, hres⟩ := h.growLoop newSize (P := Grows V oi n m) (r := 0)
    (fun c m₁ m₂ _ hP hh ht hl => hP.step hh ht hoi hl) hlim' hoi ht .refl hk
    (Nat.le_add_left _ n)
  rcases hres with ⟨rfl, hh, ht', hP⟩ | ⟨rfl, c, m₁, m₂, hle, hlt, hh, ht', hP, hf, hm'⟩
  · refine .inl ⟨m', ?_, hh, ht', hP⟩
    exact changeSize_ok hg (shrinkLoop_done (Nat.le_of_eq hh.count))
  · refine .inr ⟨m', changeSize_error hg, ?_⟩
    rw [hm', Nat.zero_add]
    exact hP.undone hoi hf (hlim' c m₁ hP hlt)

theorem Held.changeSize_shrink (h : Held V oi n m) (hoi : V.Inode oi) (newSize : Nat)
    (hk : ospfsSize2nblocks newSize ≤ n) (hn : n ≤ maxfileblks)
    (hend : n = maxfileblks → m.get32 (ospfsBlock (oiIndirect2 m oi) + 1024) = 0) :
    ∃ m₁, changeSize m oi newSize = some (.ok (), m₁.set32 oi newSize) ∧
      Chopped V oi n (ospfsSize2nblocks newSize) m m₁ := by
  have hgrow : Ospfs.growLoop oi newSize (ospfsSize2nblocks newSize) 0 m = some (.ok (), m) :=
    growLoop_done (by rw [h.count]; omega)
  obtain ⟨m₁, hs, hchop⟩ := h.shrinkLoop hoi rfl hk hn hend
    (Nat.le_refl n)
  exact ⟨m₁, changeSize_ok hgrow (by rw [h.count]; exact hs), hchop⟩

/-- The blocks of a file are known from its pointers and from what is below the inodes. -/
theorem Held.congr (h : Held V oi c m) (hlow : ∀ x < 1024 * V.firstinob, m' x = m x)
    (hptr : ∀ p, ptr m' oi p = ptr m oi p) (hk : ospfsSize2nblocks (oiSize m' oi) = k) :
    Held V oi k m' ∧ (Taken m oi → Taken m' oi) := by
  have := V.firstinob_ge
  have hbit (b : Nat) (hb : b < V.nblocks) : isFree m' b = isFree m b :=
    isFree_congr (fun x _ hx => hlow x hx) hb
  refine ⟨⟨?_, ?_, hk, fun x hx => ?_⟩, fun ht p h0 => ?_⟩
  · refine h.mounted.congr (fun x _ _ => hlow x (by omega)) fun b hb => ?_
    have := V.firstdata_le
    rw [hbit b (by omega)]
    exact h.mounted.low b hb
  · rw [show ptr m' oi = ptr m oi from funext hptr]
    exact h.owns
  · rw [hlow x (by omega)]
    exact h.boot x hx
  · rw [hptr] at h0 ⊢
    rw [hbit _ (h.points p h0).2]
    exact ht p h0

theorem Held.set_size (h : Held V oi c m) (hoi : V.Inode oi) {v : Nat} (hv : v < 2 ^ 32)
    (hk : ospfsSize2nblocks v = c) :
    Held V oi c (m.set32 oi v) ∧ (Taken m oi → Taken (m.set32 oi v) oi) ∧
      ∀ p, ptr (m.set32 oi v) oi p = ptr m oi p := by
  obtain ⟨hlo, -, -⟩ := hoi.address
  have hptr := ptr_set_size h.points hoi v
  have hsize : oiSize (m.set32 oi v) oi = v := Mem.get32_set32_of_lt hv
  have hlow : ∀ x < 1024 * V.firstinob, m.set32 oi v x = m x :=
    fun x hx => Mem.set32_of_ne (by omega)
  obtain ⟨hh, ht⟩ := h.congr hlow hptr (hsize.symm ▸ hk)
  exact ⟨hh, ht, hptr⟩

end Volume

end OsLabs.Ospfs
