import OsLabs.Ospfs.Mapped

/-!
# OSPFS: taking blocks off a file

What `remove_block` does on a disk with an empty boot block. It frees the block
at index `c` behind a file of `c` blocks, if there is one, and clears its
pointer and those of the tables that begin with index `c` (`Erased`). So the
first `c` blocks stay what they are (`Trimmed`).
-/

namespace OsLabs.Ospfs

namespace Volume

variable {V : Volume} {m m₁ m' : Mem} {oi c n k r v x : Nat} {K : Place → Prop} {p q : Place}

/-- A file of `c` blocks on a disk whose boot block is empty: its pointers are data
blocks with one place each. There may be pointers behind the last block. -/
structure Held (V : Volume) (oi c : Nat) (m : Mem) : Prop where
  mounted : V.Mounted m
  owns : Owns (ptr m oi) V.IsData
  count : ospfsSize2nblocks (oiSize m oi) = c
  boot : BootZero m

/-- The blocks that the inode names are marked allocated. -/
def Taken (m : Mem) (oi : Nat) : Prop := ∀ p, ptr m oi p ≠ 0 → isFree m (ptr m oi p) = false

theorem Held.points (h : Held V oi c m) : V.Points m oi := h.owns.ok

theorem WellFormed.held (h : V.WellFormed m oi n) (hz : BootZero m) : Held V oi n m :=
  ⟨h.mounted, ⟨fun p h0 => (h.sound.owns.ok p h0).1, h.sound.owns.inj⟩, h.size2nblocks, hz⟩

theorem WellFormed.taken (h : V.WellFormed m oi n) : Taken m oi :=
  fun p h0 => (h.sound.owns.ok p h0).2

/-- The pointers at the places of `K` are cleared. -/
structure Erased (V : Volume) (oi : Nat) (K : Place → Prop) (m m' : Mem) : Prop where
  words : ∀ q, Present m oi q → ¬ K q → m'.get32 (slot m oi q) = m.get32 (slot m oi q)
  zeros : ∀ q, Present m oi q → K q → m'.get32 (slot m oi q) = 0
  outside : ∀ x, x < oi + 16 ∨ oi + 64 ≤ x →
    (∀ p : Place, p.IsTable → ptr m oi p ≠ 0 →
      x < 1024 * ptr m oi p ∨ 1024 * ptr m oi p + 1024 ≤ x) →
    m' x = m x

theorem Erased.refl : Erased V oi (fun _ => False) m m :=
  ⟨fun _ _ _ => rfl, fun _ _ h => h.elim, fun _ _ _ => rfl⟩

theorem Points.slot_home (h : V.Points m oi) (hp : Present m oi p) :
    (oi + 16 ≤ slot m oi p ∧ slot m oi p + 4 ≤ oi + 64) ∨
      ∃ t : Place, t.IsTable ∧ ptr m oi t ≠ 0 ∧ 1024 * ptr m oi t ≤ slot m oi p ∧
        slot m oi p + 4 ≤ 1024 * ptr m oi t + 1024 := by
  rcases h.slot_cases hp with ⟨-, hi, hs⟩ | ⟨t, -, ht, hd, hi, hs⟩
  · exact .inl (by omega)
  · exact .inr ⟨t, ht, hd.ne_zero, by omega, by omega⟩

/-- One more pointer is cleared; where its table is missing, a word of the boot block. -/
theorem Erased.clear (h : Erased V oi K m m₁) (hoi : V.Inode oi) (hpts : V.Points m oi)
    (hinj : ∀ p q, ptr m oi p ≠ 0 → ptr m oi p = ptr m oi q → p = q) (hboot : BootZero m)
    (hv : p.Valid) : Erased V oi (fun q => K q ∨ q = p) m (m₁.set32 (slot m oi p) 0) := by
  obtain ⟨hlo, -, -⟩ := hoi.address
  have := V.firstinob_ge
  have := V.firstdata_ge
  by_cases hp : Present m oi p
  · have hhome := hpts.slot_home hp
    refine ⟨fun q hq hK => ?_, fun q hq hK => ?_, fun x hx ht => ?_⟩
    · have hne : q ≠ p := fun he => hK (.inr he)
      have hsep := hpts.slot_sep hoi hinj hq hp hne
      rw [Mem.get32_set32_ne (by omega)]
      exact h.words q hq fun hk => hK (.inl hk)
    · by_cases hqp : q = p
      · subst hqp
        exact Mem.get32_set32_of_lt (by decide)
      · have hsep := hpts.slot_sep hoi hinj hq hp hqp
        rw [Mem.get32_set32_ne (by omega)]
        exact h.zeros q hq (hK.resolve_right hqp)
    · rw [Mem.set32_of_ne]
      · exact h.outside x hx ht
      · rcases hhome with hin | ⟨t, htab, ht0, h1, h2⟩
        · omega
        · have := ht t htab ht0
          omega
  · -- the word is in the boot block and 0 already
    have hex : ∃ t, p.parent = some t ∧ ptr m oi t = 0 := by
      by_contra hno
      exact hp ⟨hv, fun t ht h0 => hno ⟨t, ht, h0⟩⟩
    obtain ⟨t, ht, h0⟩ := hex
    have hidx := Place.idx_lt_of_some hv ht
    have hslot : slot m oi p = 4 * p.idx := by
      rw [slot_of_some ht, h0]
      exact Nat.zero_add _
    have hsame : m₁.set32 (slot m oi p) 0 = m₁ := by
      refine Mem.set32_zero fun x hx hx' => ?_
      rw [h.outside x (.inl (by omega)) fun r _ hr => .inl ?_]
      · exact hboot x (by omega)
      · have := (hpts r hr).address
        omega
    rw [hsame]
    refine ⟨fun q hq hK => h.words q hq fun hk => hK (.inl hk), fun q hq hK => ?_, h.outside⟩
    rcases hK with hk | rfl
    · exact h.zeros q hq hk
    · exact absurd hq hp

theorem Erased.ptr_cases (h : Erased V oi K m m') (p : Place) :
    ptr m' oi p = ptr m oi p ∨ ptr m' oi p = 0 := by
  refine ptr_erase (fun q hq => ?_) p
  by_cases hK : K q
  · exact .inr (h.zeros q hq hK)
  · exact .inl (h.words q hq hK)

theorem Erased.ptr_inUse (h : Erased V oi K m m') (hK : ∀ q, K q → ¬ q.InUse c)
    (hp : p.InUse c) : ptr m' oi p = ptr m oi p := by
  induction p using Place.parent_induction with
  | h p ih =>
    obtain ⟨hpres, hslot⟩ : (Present m' oi p ↔ Present m oi p) ∧ slot m' oi p = slot m oi p :=
      place_congr fun t ht => ih t ht (Place.inUse_of_parent ht hp)
    by_cases hp' : Present m oi p
    · rw [ptr_of_present (hpres.2 hp'), ptr_of_present hp', hslot]
      exact h.words p hp' fun hk => hK p hk hp
    · rw [ptr_of_not_present (fun h' => hp' (hpres.1 h')), ptr_of_not_present hp']

theorem Erased.ptr_gone (h : Erased V oi K m m') (hp : K p) : ptr m' oi p = 0 := by
  by_contra h0
  have hpres := present_of_ne_zero h0
  have hsame (t : Place) (ht : p.parent = some t) : ptr m' oi t = ptr m oi t :=
    (h.ptr_cases t).resolve_right (hpres.2 t ht)
  obtain ⟨hiff, hslot⟩ := place_congr hsame
  rw [ptr_of_present hpres, hslot] at h0
  exact h0 (h.zeros p (hiff.1 hpres) hp)

/-! ## `remove_block` -/

structure Freed (V : Volume) (oi c : Nat) (m m₁ : Mem) : Prop where
  bytes : ∀ x, x < 2048 ∨ 1024 * V.firstinob ≤ x → m₁ x = m x
  bits : ∀ b, V.IsData b → isFree m₁ b = (isFree m b || decide (ptr m oi (.leaf c) = b))
  low : ∀ b < V.firstdata, isFree m₁ b = isFree m b
  ptrs : ∀ p, ptr m₁ oi p = ptr m oi p

theorem freeBlock_data {b : Nat} (hf : osFirstinob m = V.firstinob) (hb : V.IsData b) :
    (∀ x, x < 2048 ∨ 1024 * V.firstinob ≤ x → freeBlock m b x = m x) ∧
      ∀ d, isFree (freeBlock m b) d = (isFree m d || decide (b = d)) := by
  by_cases hfree : isFree m b = true
  · have htest : bitvectorTest m (ospfsBlock 2) b = true := hfree
    have hsame : freeBlock m b = m := by
      unfold freeBlock
      rw [htest]
      split <;> rfl
    rw [hsame]
    refine ⟨fun _ _ => rfl, fun d => ?_⟩
    by_cases hd : b = d
    · subst hd
      simp [hfree]
    · simp [hd]
  · exact freeBlock_effect hf ⟨hb, by simpa using hfree⟩

theorem Held.freed (h : Held V oi c m) (hoi : V.Inode oi) :
    Freed V oi c m (freeBlock m (ptr m oi (.leaf c))) := by
  obtain ⟨hlo, hhi, -⟩ := hoi.address
  have hptr {m₁ : Mem} (hw : ∀ x, 1024 * V.firstinob ≤ x → m₁ x = m x) (p : Place) :
      ptr m₁ oi p = ptr m oi p := by
    refine ptr_congr (fun q hq => Mem.get32_congr fun x hx _ => hw x ?_) p
    have := (h.points.slot_range hoi hq).2.1
    omega
  by_cases h0 : ptr m oi (.leaf c) = 0
  · rw [h0, freeBlock_zero h.mounted.firstinob]
    refine ⟨fun _ _ => rfl, fun b hb => ?_, fun _ _ => rfl, fun _ => rfl⟩
    rw [h0]
    simp [hb.ne_zero.symm]
  · have hok := h.owns.ok _ h0
    obtain ⟨hbytes, hbits⟩ := freeBlock_data h.mounted.firstinob hok
    refine ⟨hbytes, fun b _ => hbits b, fun b hb => ?_, hptr fun x hx => hbytes x (.inr hx)⟩
    have hne : ptr m oi (.leaf c) ≠ b := by
      have := hok.1
      omega
    rw [hbits]
    simp [hne]

theorem Freed.slot (h : Freed V oi c m m₁) (p : Place) : slot m₁ oi p = slot m oi p :=
  (place_congr fun q _ => h.ptrs q).2

/-- What is left of `remove_block` behind the freeing. -/
def Cleans (V : Volume) (oi c : Nat) (m m₂ : Mem) : Prop :=
  ∃ K : Place → Prop, (∀ q, K q → ¬ q.InUse c) ∧ (c < maxfileblks → K (.leaf c)) ∧
    Erased V oi K (freeBlock m (ptr m oi (.leaf c))) m₂

section

variable (h : Held V oi c m) (hoi : V.Inode oi)

include h hoi

theorem Held.clear (he : Erased V oi K (freeBlock m (ptr m oi (.leaf c))) m₁) (hv : p.Valid) :
    Erased V oi (fun q => K q ∨ q = p) (freeBlock m (ptr m oi (.leaf c)))
      (m₁.set32 (slot m oi p) 0) := by
  have hf := h.freed hoi
  rw [← hf.slot]
  refine he.clear hoi (fun q h0 => ?_) (fun q r h0 heq => ?_) (fun x hx => ?_) hv
  · rw [hf.ptrs] at h0 ⊢
    exact h.points q h0
  · rw [hf.ptrs] at h0 heq
    rw [hf.ptrs] at heq
    exact h.owns.inj q r h0 heq
  · rw [hf.bytes x (by omega)]
    exact h.boot x hx

theorem Held.removeDirect (hc : c < 10) : Cleans V oi c m (removeDirect m oi c) := by
  have hv : (Place.leaf c).Valid := leaf_valid (by unfold maxfileblks; omega)
  have hclear := h.clear hoi .refl hv
  obtain ⟨-, hpar, hidx⟩ | ⟨hge, -⟩ | ⟨hge, -⟩ := Place.leaf_cases c
  case inr.inl => omega
  case inr.inr => omega
  have hptr : oiDirect m oi c = ptr m oi (.leaf c) := by simp only [ptr, hc, if_true]
  rw [slot_of_none hpar, hidx] at hclear
  unfold Ospfs.removeDirect
  simp only [directIndex_direct hc, hptr]
  exact ⟨_, fun q hq => by
    rcases hq with hq | rfl
    · exact hq.elim
    · exact Nat.lt_irrefl c, fun _ => .inr rfl, hclear⟩

theorem Held.removeIndirect (hc : 10 ≤ c) (hc' : c < 266) :
    Cleans V oi c m (removeIndirect m oi c) := by
  have hv : (Place.leaf c).Valid := leaf_valid (by unfold maxfileblks; omega)
  have hclear := h.clear hoi .refl hv
  obtain ⟨hlt, -⟩ | ⟨-, -, hpar, hidx⟩ | ⟨hge, -⟩ := Place.leaf_cases c
  · omega
  case inr.inr => omega
  have hdir : directIndex c = c - 10 := directIndex_indirect (by omega) (by omega)
  have hslot : slot m oi (.leaf c) = ospfsBlock (oiIndirect m oi) + 4 * (c - 10) := by
    rw [slot_of_some hpar, hidx]
    rfl
  have hread : m.get32 (slot m oi (.leaf c)) = _ := h.boot.get_slot hv
  rw [hslot] at hclear hread
  unfold Ospfs.removeIndirect
  rw [hdir]
  simp only [hread]
  have hleaf : ¬ (Place.leaf c).InUse c := Nat.lt_irrefl c
  split
  · have htop := h.clear hoi hclear (p := .indirect) trivial
    refine ⟨_, fun q hq => ?_, fun _ => .inl (.inr rfl), htop⟩
    rcases hq with (hq | rfl) | rfl
    · exact hq.elim
    · exact hleaf
    · show ¬ 10 < c
      omega
  · refine ⟨_, fun q hq => ?_, fun _ => .inr rfl, hclear⟩
    rcases hq with hq | rfl
    · exact hq.elim
    · exact hleaf

theorem Held.removeIndirect2 (hc : 266 ≤ c) (hc' : c < maxfileblks) :
    Cleans V oi c m (removeIndirect2 m oi c) := by
  have hv : (Place.leaf c).Valid := leaf_valid hc'
  have hclear := h.clear hoi .refl hv
  obtain ⟨hlt, -⟩ | ⟨-, hlt, -⟩ | ⟨-, hpar, hidx⟩ := Place.leaf_cases c
  · omega
  · omega
  unfold maxfileblks at hc'
  have hdir : directIndex c = (c - 266) % 256 := directIndex_indirect2 (by omega)
  have hi : (indirIndex c).toNat = (c - 266) / 256 := toNat_indirIndex (by omega)
  have hvt : (Place.indir2 ((c - 266) / 256)).Valid := by
    show (c - 266) / 256 < 256
    omega
  have htab : m.get32 (slot m oi (.indir2 ((c - 266) / 256))) = _ := h.boot.get_slot hvt
  have hslot : slot m oi (.leaf c) =
      ospfsBlock (ptr m oi (.indir2 ((c - 266) / 256))) + 4 * ((c - 266) % 256) := by
    rw [slot_of_some hpar, hidx]
  have hslot2 : slot m oi (.indir2 ((c - 266) / 256)) =
      ospfsBlock (oiIndirect2 m oi) + 4 * ((c - 266) / 256) := rfl
  have hread : m.get32 (slot m oi (.leaf c)) = _ := h.boot.get_slot hv
  rw [hslot] at hclear hread
  rw [hslot2] at htab
  unfold Ospfs.removeIndirect2
  simp only [hdir, hi, htab, hread]
  have hleaf : ¬ (Place.leaf c).InUse c := Nat.lt_irrefl c
  split
  · have h2 := h.clear hoi hclear hvt
    rw [hslot2] at h2
    have hk : ¬ (Place.indir2 ((c - 266) / 256)).InUse c := by
      show ¬ 266 + 256 * ((c - 266) / 256) < c
      omega
    split
    · have h3 := h.clear hoi h2 (p := .indirect2) trivial
      refine ⟨_, fun q hq => ?_, fun _ => .inl (.inl (.inr rfl)), h3⟩
      rcases hq with ((hq | rfl) | rfl) | rfl
      · exact hq.elim
      · exact hleaf
      · exact hk
      · show ¬ 266 < c
        omega
    · refine ⟨_, fun q hq => ?_, fun _ => .inl (.inr rfl), h2⟩
      rcases hq with (hq | rfl) | rfl
      · exact hq.elim
      · exact hleaf
      · exact hk
  · refine ⟨_, fun q hq => ?_, fun _ => .inr rfl, hclear⟩
    rcases hq with hq | rfl
    · exact hq.elim
    · exact hleaf

/-- The pass on the index behind the last one of the block map does nothing where the
word behind the doubly indirect block is 0. -/
theorem Held.removeIndirect2_max (hc : c = maxfileblks)
    (hend : m.get32 (ospfsBlock (oiIndirect2 m oi) + 1024) = 0) :
    Ospfs.removeIndirect2 m oi c = m := by
  obtain ⟨hlo, -, -⟩ := hoi.address
  have hzero (m₁ : Mem) (h : ∀ x < 4, m₁ x = 0) : m₁.set32 0 0 = m₁ :=
    Mem.set32_zero fun x _ hx => h x (by omega)
  subst hc
  have hboot0 : m.get32 (ospfsBlock 0 + 4 * 0) = 0 := h.boot.get32 (by decide)
  have hend' : m.set32 (ospfsBlock (oiIndirect2 m oi) + 1024) 0 = m := by
    rw [← hend]
    exact Mem.set32_get32
  unfold Ospfs.removeIndirect2
  rw [show directIndex maxfileblks = 0 by decide,
    show (indirIndex maxfileblks).toNat = 256 by decide]
  simp only [hend, hboot0, freeBlock_zero h.mounted.firstinob]
  rw [if_pos trivial, if_neg (by decide)]
  rw [show ospfsBlock 0 + 4 * 0 = 0 from rfl, hzero m fun x hx => h.boot x (by omega)]
  exact hend'

end

structure Trimmed (V : Volume) (oi c : Nat) (m m' : Mem) : Prop where
  held : Held V oi (c - 1) m'
  size : oiSize m' oi = (oiSize m oi + (2 ^ 32 - 1024)) % 2 ^ 32
  kept : ∀ p : Place, p.InUse c → ptr m' oi p = ptr m oi p
  gone : c < maxfileblks → ptr m' oi (.leaf c) = 0
  ptrs : ∀ p, ptr m' oi p = ptr m oi p ∨ ptr m' oi p = 0
  bits : ∀ b, V.IsData b → isFree m' b = (isFree m b || decide (ptr m oi (.leaf c) = b))
  bytes : ∀ x, x < 2048 ∨ 1024 * V.firstinob ≤ x →
    x < oi ∨ (oi + 4 ≤ x ∧ x < oi + 16) ∨ oi + 64 ≤ x →
    (∀ p : Place, p.IsTable → ptr m oi p ≠ 0 →
      x < 1024 * ptr m oi p ∨ 1024 * ptr m oi p + 1024 ≤ x) →
    m' x = m x

/-- Blocks that are named stay allocated: the one that is freed has lost its pointer. -/
theorem Trimmed.taken (h : Trimmed V oi c m m') (hh : Held V oi c m) (ht : Taken m oi) :
    Taken m' oi := by
  intro p h0
  have hsame := (h.ptrs p).resolve_right h0
  rw [hsame] at h0 ⊢
  rw [h.bits _ (hh.points p h0), ht p h0]
  simp only [Bool.false_or, decide_eq_false_iff_not]
  intro hpc
  have hp := hh.owns.inj _ _ (hpc.trans_ne h0) hpc
  subst hp
  rcases Nat.lt_or_ge c maxfileblks with hlt | hge
  · exact h0 (hsame.symm.trans (h.gone hlt))
  · exact h0 (ptr_of_not_present fun hp => absurd hp.1 (Nat.not_lt.2 hge))

theorem Cleans.trimmed {m₂ : Mem} (hcl : Cleans V oi c m m₂) (h : Held V oi c m) (hoi : V.Inode oi)
    (hc : 0 < c) : Trimmed V oi c m (m₂.set32 oi (oiSize m₂ oi + (2 ^ 32 - 1024))) := by
  obtain ⟨K, hK, hleaf, he⟩ := hcl
  obtain ⟨hlo, hhi, -⟩ := hoi.address
  have := V.firstinob_ge
  have := V.firstdata_ge
  have hf := h.freed hoi
  have hcount := h.count
  have htables (x : Nat) (hx : x < 1024 * V.firstdata) (p : Place) (_ : p.IsTable)
      (h0 : ptr (freeBlock m (ptr m oi (.leaf c))) oi p ≠ 0) :
      x < 1024 * ptr (freeBlock m (ptr m oi (.leaf c))) oi p ∨
        1024 * ptr (freeBlock m (ptr m oi (.leaf c))) oi p + 1024 ≤ x := by
    rw [hf.ptrs] at h0 ⊢
    have := (h.points p h0).address
    omega
  have hlow (x : Nat) (hx : x < 1024 * V.firstinob) :
      m₂ x = freeBlock m (ptr m oi (.leaf c)) x :=
    he.outside x (.inl (by omega)) (htables x (by omega))
  have hsize₂ : oiSize m₂ oi = oiSize m oi := Mem.get32_congr fun x hx hx' => by
    rw [he.outside x (.inl (by omega)) (htables x (by omega)), hf.bytes x (.inr (by omega))]
  have hpts₂ : V.Points m₂ oi := by
    intro p h0
    rcases he.ptr_cases p with hp | hp
    · rw [hp, hf.ptrs] at h0 ⊢
      exact h.points p h0
    · exact absurd hp h0
  have hptr (p : Place) : ptr (m₂.set32 oi (oiSize m₂ oi + (2 ^ 32 - 1024))) oi p = ptr m₂ oi p :=
    ptr_set_size hpts₂ hoi _ p
  have hbit (b : Nat) (hb : b < V.nblocks) :
      isFree (m₂.set32 oi (oiSize m₂ oi + (2 ^ 32 - 1024))) b =
        isFree (freeBlock m (ptr m oi (.leaf c))) b :=
    isFree_congr (fun x _ hx => by rw [Mem.set32_of_ne (by omega), hlow x hx]) hb
  have hsize : oiSize (m₂.set32 oi (oiSize m₂ oi + (2 ^ 32 - 1024))) oi =
      (oiSize m oi + (2 ^ 32 - 1024)) % 2 ^ 32 := by
    rw [← hsize₂]
    exact Mem.get32_set32
  have hcases (p : Place) : ptr (m₂.set32 oi (oiSize m₂ oi + (2 ^ 32 - 1024))) oi p = ptr m oi p ∨
      ptr (m₂.set32 oi (oiSize m₂ oi + (2 ^ 32 - 1024))) oi p = 0 := by
    rw [hptr, ← hf.ptrs]
    exact he.ptr_cases p
  have hgone (hmax : c < maxfileblks) :
      ptr (m₂.set32 oi (oiSize m₂ oi + (2 ^ 32 - 1024))) oi (.leaf c) = 0 :=
    (hptr _).trans (he.ptr_gone (hleaf hmax))
  have hbits (b : Nat) (hb : V.IsData b) :
      isFree (m₂.set32 oi (oiSize m₂ oi + (2 ^ 32 - 1024))) b =
        (isFree m b || decide (ptr m oi (.leaf c) = b)) := (hbit b hb.2).trans (hf.bits b hb)
  refine ⟨⟨?_, ?_, ?_, fun x hx => ?_⟩, hsize, fun p hp => ?_, hgone, hcases, hbits,
    fun x hx hx' ht => ?_⟩
  · refine h.mounted.congr (fun x _ hx => ?_) fun b hb => ?_
    · rw [Mem.set32_of_ne (by omega), hlow x (by omega), hf.bytes x (.inl hx)]
    · have := V.firstdata_le
      rw [hbit b (by omega), hf.low b hb]
      exact h.mounted.low b hb
  · exact h.owns.shrink hcases fun p h0 _ => h.owns.ok p h0
  · rw [hsize, size2nblocks_sub (by omega), hcount]
  · rw [Mem.set32_of_ne (by omega), hlow x (by omega), hf.bytes x (.inl (by omega))]
    exact h.boot x hx
  · rw [hptr, he.ptr_inUse hK hp, hf.ptrs]
  · rw [Mem.set32_of_ne (by omega)]
    by_cases hin : oi + 4 ≤ x ∧ x < oi + 16
    · rw [he.outside x (.inl hin.2) (htables x (by omega)), hf.bytes x (.inr (by omega))]
    · rw [he.outside x (by omega) fun p hp h0 => ?_, hf.bytes x hx]
      rw [hf.ptrs] at h0 ⊢
      exact ht p hp h0

/-- **One step**: `remove_block` keeps the first `c` blocks. -/
theorem Held.removeBlock (h : Held V oi c m) (hoi : V.Inode oi) (hc : 0 < c)
    (hmax : c ≤ maxfileblks)
    (hend : c = maxfileblks → m.get32 (ospfsBlock (oiIndirect2 m oi) + 1024) = 0) :
    Trimmed V oi c m (removeBlock m oi) := by
  have hcl : Cleans V oi c m (if indir2Index c = 0 then Ospfs.removeIndirect2 m oi c
      else if indirIndex c = 0 then Ospfs.removeIndirect m oi c
      else Ospfs.removeDirect m oi c) := by
    unfold indir2Index indirIndex
    rcases Nat.lt_or_ge c 10 with h10 | h10
    · rw [if_pos (show c < 10 + 256 by omega), if_neg (by decide), if_pos h10, if_neg (by decide)]
      exact h.removeDirect hoi h10
    rcases Nat.lt_or_ge c 266 with h266 | h266
    · rw [if_pos (show c < 10 + 256 from h266), if_neg (by decide),
        if_neg (show ¬ c < 10 by omega), if_pos (show c ≥ 10 ∧ c < 10 + 256 from ⟨h10, h266⟩),
        if_pos rfl]
      exact h.removeIndirect hoi h10 h266
    rw [if_neg (show ¬ c < 10 + 256 by omega), if_pos rfl]
    rcases Nat.lt_or_ge c maxfileblks with hlt | hge
    · exact h.removeIndirect2 hoi h266 hlt
    · have heq : c = maxfileblks := Nat.le_antisymm hmax hge
      have h0 : ptr m oi (.leaf c) = 0 :=
        ptr_of_not_present fun hp => absurd hp.1 (Nat.not_lt.2 hge)
      rw [h.removeIndirect2_max hoi heq (hend heq)]
      refine ⟨fun _ => False, fun _ hq => hq.elim, fun hlt => by omega, ?_⟩
      rw [h0, freeBlock_zero h.mounted.firstinob]
      exact .refl
  unfold Ospfs.removeBlock
  rw [h.count]
  exact hcl.trimmed h hoi hc

/-! ## The loops -/

/-- A file of `c` blocks has been cut to `k` blocks. The block at index `k` is still there. -/
structure Chopped (V : Volume) (oi c k : Nat) (m m' : Mem) : Prop where
  held : Held V oi k m'
  kept : ∀ p : Place, p.InUse (k + 1) → ptr m' oi p = ptr m oi p
  ptrs : ∀ p, ptr m' oi p = ptr m oi p ∨ ptr m' oi p = 0
  taken : Taken m oi → Taken m' oi
  bytes : ∀ x, x < 2048 ∨ 1024 * V.firstinob ≤ x →
    x < oi ∨ (oi + 4 ≤ x ∧ x < oi + 16) ∨ oi + 64 ≤ x →
    (∀ p : Place, p.IsTable → ptr m oi p ≠ 0 →
      x < 1024 * ptr m oi p ∨ 1024 * ptr m oi p + 1024 ≤ x) → m' x = m x

theorem Chopped.refl (h : Held V oi c m) : Chopped V oi c c m m :=
  ⟨h, fun _ _ => rfl, fun _ => .inl rfl, id, fun _ _ _ _ => rfl⟩

theorem Place.inUse_mono {a b : Nat} (hab : a ≤ b) (h : p.InUse a) : p.InUse b := by
  cases p <;> exact Nat.lt_of_lt_of_le h hab

theorem Chopped.step (h : Trimmed V oi c m m₁) (hh : Held V oi c m) (hk : k < c)
    (h' : Chopped V oi (c - 1) k m₁ m') : Chopped V oi c k m m' := by
  refine ⟨h'.held, fun p hp => ?_, fun p => ?_, fun ht => h'.taken (h.taken hh ht),
    fun x hx hx' ht => ?_⟩
  · rw [h'.kept p hp]
    exact h.kept p (Place.inUse_mono hk hp)
  · rcases h'.ptrs p with he | h0
    · rw [he]
      exact h.ptrs p
    · exact .inr h0
  · rw [h'.bytes x hx hx' fun p hp h0 => ?_, h.bytes x hx hx' ht]
    have hsame := (h.ptrs p).resolve_right h0
    rw [hsame] at h0 ⊢
    exact ht p hp h0

/-- **The second loop of `change_size`.** -/
theorem Held.shrinkLoop (hoi : V.Inode oi) {newSize fuel : Nat}
    (hk : ospfsSize2nblocks newSize = k) (h : Held V oi c m) (hkc : k ≤ c) (hc : c ≤ maxfileblks)
    (hend : c = maxfileblks → m.get32 (ospfsBlock (oiIndirect2 m oi) + 1024) = 0)
    (hfuel : c ≤ fuel) :
    ∃ m', shrinkLoop oi newSize fuel m = some m' ∧ Chopped V oi c k m m' := by
  induction fuel generalizing m c with
  | zero =>
    obtain rfl : c = 0 := by omega
    obtain rfl : k = 0 := by omega
    exact ⟨m, shrinkLoop_done (by rw [h.count, hk]), .refl h⟩
  | succ fuel ih =>
    rcases Nat.eq_or_lt_of_le hkc with rfl | hlt
    · exact ⟨m, shrinkLoop_done (by rw [h.count, hk]), .refl h⟩
    · rw [shrinkLoop_remove (by rw [h.count, hk]; exact hlt)]
      have htrim := h.removeBlock hoi (by omega) hc hend
      obtain ⟨m', hm', hchop⟩ := ih htrim.held (by omega) (by omega) (by omega) (by omega)
      exact ⟨m', hm', hchop.step htrim h hlt⟩

/-- **The rollback of `change_size`.** -/
theorem Held.removeBlocks (hoi : V.Inode oi) (h : Held V oi c m) (hc : c < maxfileblks)
    (hr : r ≤ c) : Chopped V oi c (c - r) m (removeBlocks oi r m) ∧
      oiSize (Ospfs.removeBlocks oi r m) oi = (oiSize m oi + r * (2 ^ 32 - 1024)) % 2 ^ 32 := by
  induction r generalizing m c with
  | zero =>
    refine ⟨.refl h, ?_⟩
    rw [Nat.zero_mul, Nat.add_zero]
    exact (Nat.mod_eq_of_lt Mem.get32_lt).symm
  | succ r ih =>
    have htrim := h.removeBlock hoi (by omega) (Nat.le_of_lt hc) (by omega)
    obtain ⟨hchop, hsize⟩ := ih htrim.held (by omega) (by omega)
    rw [show c - 1 - r = c - (r + 1) by omega] at hchop
    refine ⟨hchop.step htrim h (by omega), ?_⟩
    rw [Ospfs.removeBlocks, hsize, htrim.size]
    omega

end Volume

end OsLabs.Ospfs
