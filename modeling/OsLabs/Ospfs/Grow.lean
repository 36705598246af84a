import OsLabs.Ospfs.Resize
import OsLabs.Ospfs.Volume

/-!
# OSPFS: growing a file

`add_block` on a volume of any size. `Along V oi m₀ m` holds from the start of
the call (`m₀`) to its end: the file's pointers stay data blocks with one place
each, and only blocks that were free at the start are taken. A block in hand is
`Spare`. The one step that loses its block is the allocation of an indirect
block under the doubly indirect block, which is not entered there.
-/

namespace OsLabs.Ospfs

namespace Volume

variable {V : Volume} {m₀ m m' : Mem} {oi b c k t n x : Nat}

structure Grew (V : Volume) (oi : Nat) (m m' : Mem) : Prop where
  free : ∀ b < V.nblocks, isFree m' b = true → isFree m b = true
  super : ∀ x < 2048, m' x = m x
  ftype : oiFtype m' oi = oiFtype m oi
  ptrs : ∀ p, ptr m' oi p = ptr m oi p ∨
    (ptr m oi p = 0 ∧ V.IsData (ptr m' oi p) ∧ isFree m (ptr m' oi p) = true)
  under : ∀ k, ptr m' oi (.indir2 k) = ptr m oi (.indir2 k)
  bytes : ∀ b, V.Allocated m b → (∀ p : Place, p.IsTable → ptr m oi p ≠ b) →
    ∀ x, 1024 * b ≤ x → x < 1024 * b + 1024 → m' x = m x

theorem Grew.refl : Grew V oi m m :=
  ⟨fun _ _ h => h, fun _ _ => rfl, rfl, fun _ => .inl rfl, fun _ => rfl, fun _ _ _ _ _ _ => rfl⟩

theorem Grew.allocated (h : Grew V oi m m') (hb : V.Allocated m b) : V.Allocated m' b := by
  refine ⟨hb.1, ?_⟩
  by_contra hf
  have := h.free b hb.1.2 (by simpa using hf)
  rw [hb.2] at this
  cases this

theorem Grew.not_table (h : Grew V oi m m') (hb : V.Allocated m b)
    (hno : ∀ p : Place, p.IsTable → ptr m oi p ≠ b) (p : Place) (hp : p.IsTable) :
    ptr m' oi p ≠ b := by
  rcases h.ptrs p with he | ⟨-, -, hf⟩
  · rw [he]
    exact hno p hp
  · rintro rfl
    rw [hb.2] at hf
    cases hf

theorem Grew.trans {m'' : Mem} (h : Grew V oi m m') (h' : Grew V oi m' m'') : Grew V oi m m'' := by
  refine ⟨fun b hb hf => h.free b hb (h'.free b hb hf),
    fun x hx => (h'.super x hx).trans (h.super x hx), h'.ftype.trans h.ftype, fun p => ?_,
    fun k => (h'.under k).trans (h.under k), fun b hb hno x hx hx' => ?_⟩
  · rcases h'.ptrs p with he | ⟨h0, hd, hf⟩
    · rw [he]
      exact h.ptrs p
    · refine .inr ⟨?_, hd, h.free _ hd.2 hf⟩
      rcases h.ptrs p with he' | ⟨-, hd', -⟩
      · rw [← he']
        exact h0
      · exact absurd h0 hd'.ne_zero
  · rw [h'.bytes b (h.allocated hb) (h.not_table hb hno) x hx hx']
    exact h.bytes b hb hno x hx hx'

theorem Grew.ne_zero (h : Grew V oi m m') {p : Place} (h0 : ptr m oi p ≠ 0) :
    ptr m' oi p = ptr m oi p := by
  rcases h.ptrs p with he | ⟨hz, -⟩
  · exact he
  · exact absurd hz h0

/-- Within one call: the file is in order, and has grown from what it was. -/
structure Along (V : Volume) (oi : Nat) (m₀ m : Mem) : Prop where
  mounted : V.Mounted m
  owns : Owns (ptr m oi) (V.Allocated m)
  grew : Grew V oi m₀ m
  size : oiSize m oi = oiSize m₀ oi

/-- A block taken during the call and cleared, that no pointer names yet. -/
structure InHand (V : Volume) (oi : Nat) (m₀ m : Mem) (b : Nat) : Prop where
  fresh : isFree m₀ b = true
  taken : V.Allocated m b
  unowned : ∀ p, ptr m oi p ≠ b
  zero : ∀ x, 1024 * b ≤ x → x < 1024 * b + 1024 → m x = 0

theorem Along.points (h : Along V oi m₀ m) : V.Points m oi := fun p h0 => (h.owns.ok p h0).1

theorem Along.slot_outside (h : Along V oi m₀ m) (hoi : V.Inode oi) (hb : V.IsData b)
    (hno : ∀ p : Place, p.IsTable → ptr m oi p ≠ b) {p : Place} (hp : Present m oi p) :
    slot m oi p + 4 ≤ 1024 * b ∨ 1024 * b + 1024 ≤ slot m oi p := by
  obtain ⟨hlo, hhi, -⟩ := hoi.address
  have := hb.address
  rcases h.points.slot_cases hp with ⟨-, hi, hs⟩ | ⟨q, -, hq, hd, hi, hs⟩
  · omega
  · have := hno q hq
    omega

theorem Along.ptr_quiet (h : Along V oi m₀ m) (hoi : V.Inode oi) (hb : V.IsData b)
    (hno : ∀ p : Place, p.IsTable → ptr m oi p ≠ b)
    (hw : ∀ x, 1024 * V.firstinob ≤ x → x < oi ∨ oi + 16 ≤ x →
      x < 1024 * b ∨ 1024 * b + 1024 ≤ x → m' x = m x) (p : Place) :
    ptr m' oi p = ptr m oi p := by
  obtain ⟨hlo, hhi, -⟩ := hoi.address
  refine ptr_congr (fun q hq => Mem.get32_congr fun x hx hx' => hw x ?_ ?_ ?_) p
  · have := (h.points.slot_range hoi hq).2.1
    omega
  · have := h.points.slot_range hoi hq
    omega
  · have := h.slot_outside hoi hb hno hq
    omega

theorem Along.not_table_of_free (h : Along V oi m₀ m) (hf : isFree m b = true) (hb : V.IsData b)
    (p : Place) : ptr m oi p ≠ b := by
  rintro rfl
  have := (h.owns.ok p hb.ne_zero).2
  rw [hf] at this
  cases this

/-! ## The moves of `add_block` -/

theorem Along.take (h : Along V oi m₀ m) (hoi : V.Inode oi) (hb : V.IsData b)
    (hf : isFree m b = true) :
    Along V oi m₀ (takeBlock m b) ∧ InHand V oi m₀ (takeBlock m b) b ∧
      (∀ p, ptr (takeBlock m b) oi p = ptr m oi p) := by
  obtain ⟨hlo, hhi, -⟩ := hoi.address
  have := V.firstinob_ge
  have := V.firstdata_ge
  have := hb.address
  have hno := h.not_table_of_free hf hb
  have hfree {d : Nat} (hd : d < V.nblocks) := isFree_take (m := m) hb hd
  have hptr : ∀ p, ptr (takeBlock m b) oi p = ptr m oi p :=
    h.ptr_quiet hoi hb (fun p _ => hno p) fun x h1 _ h3 => take_of_ne hb (.inr h1) h3
  have hbytes (x : Nat) (hx : x < 2048 ∨ 1024 * V.firstinob ≤ x)
      (hx' : x < 1024 * b ∨ 1024 * b + 1024 ≤ x) : takeBlock m b x = m x := take_of_ne hb hx hx'
  refine ⟨⟨h.mounted.congr (fun x _ hx => hbytes x (.inl hx) (by omega)) fun d hd => ?_,
    ?_, ?_, ?_⟩,
    ⟨h.grew.free b hb.2 hf, ⟨hb, ?_⟩, fun p => ?_, fun x => take_zero hb⟩, hptr⟩
  · have := V.firstdata_le
    rw [hfree (by omega), h.mounted.low d hd]
    rfl
  · have hfun : ptr (takeBlock m b) oi = ptr m oi := funext hptr
    rw [hfun]
    refine h.owns.mono fun d hd => ⟨hd.1, ?_⟩
    rw [hfree hd.1.2, hd.2]
    rfl
  · refine h.grew.trans ⟨fun d hd hdf => ?_, fun x hx => hbytes x (.inl hx) (by omega), ?_,
      fun p => .inl (hptr p), fun k => hptr _, fun d hd _ x hx hx' => ?_⟩
    · rw [hfree hd] at hdf
      simp only [Bool.and_eq_true] at hdf
      exact hdf.1
    · exact Mem.get32_congr fun x hx hx' => hbytes x (by omega) (by omega)
    · have hne : b ≠ d := by
        rintro rfl
        rw [hd.2] at hf
        cases hf
      have := hd.1.address
      exact hbytes x (by omega) (by omega)
  · rw [← h.size]
    exact Mem.get32_congr fun x hx hx' => hbytes x (by omega) (by omega)
  · rw [hfree hb.2]
    simp
  · rw [hptr]
    exact hno p

theorem InHand.take (hk : InHand V oi m₀ m b) (h : Along V oi m₀ m) (hoi : V.Inode oi)
    (ht : V.IsData t) (hf : isFree m t = true) : InHand V oi m₀ (takeBlock m t) b := by
  have := V.firstdata_ge
  have := hk.taken.1.address
  have hne : t ≠ b := by
    rintro rfl
    rw [hk.taken.2] at hf
    cases hf
  obtain ⟨-, -, hptr⟩ := h.take hoi ht hf
  refine ⟨hk.fresh, ⟨hk.taken.1, ?_⟩, fun p => ?_, fun x hx hx' => ?_⟩
  · rw [isFree_take ht hk.taken.1.2, hk.taken.2]
    rfl
  · rw [hptr]
    exact hk.unowned p
  · rw [take_of_ne ht (by omega) (by omega)]
    exact hk.zero x hx hx'

theorem InHand.enter (hk : InHand V oi m₀ m b) (h : Along V oi m₀ m) (hoi : V.Inode oi)
    {p : Place} (hp : Present m oi p) (h0 : ptr m oi p = 0) (hunder : ∀ k, p ≠ .indir2 k) :
    Along V oi m₀ (m.set32 (slot m oi p) b) ∧
      (∀ q, ptr (m.set32 (slot m oi p) b) oi q = if q = p then b else ptr m oi q) ∧
      (∀ x, 1024 * b ≤ x → x < 1024 * b + 1024 → m.set32 (slot m oi p) b x = 0) := by
  obtain ⟨hlo, hhi, -⟩ := hoi.address
  have := V.firstinob_ge
  have := V.firstdata_ge
  have hsl := h.points.slot_range hoi hp
  have hb32 : b < 2 ^ 32 := by
    have := hk.taken.1.2
    have := V.addressed
    omega
  have hout := h.slot_outside hoi hk.taken.1 (fun q _ => hk.unowned q) hp
  have hval : (m.set32 (slot m oi p) b).get32 (slot m oi p) = b := Mem.get32_set32_of_lt hb32
  have hptr : ∀ q, ptr (m.set32 (slot m oi p) b) oi q = if q = p then b else ptr m oi q := by
    intro q
    rw [ptr_update hp (fun r hr hne => Mem.get32_set32_ne
      (h.points.slot_sep hoi h.owns.inj hp hr (Ne.symm hne))) (fun r hr => ⟨h0, fun hv => ?_⟩) q,
      hval]
    have hidx := Place.idx_lt_of_some hv hr
    rw [hval, hk.taken.1.block, Mem.get32_set32_ne (by omega)]
    exact Mem.get32_of_zero fun j hj => hk.zero _ (by omega) (by omega)
  have hbit (d : Nat) (hd : d < V.nblocks) :
      isFree (m.set32 (slot m oi p) b) d = isFree m d :=
    isFree_congr (fun x _ hx => Mem.set32_of_ne (by omega)) hd
  refine ⟨⟨h.mounted.congr (fun x _ hx => Mem.set32_of_ne (by omega)) fun d hd => ?_, ?_, ?_, ?_⟩,
    hptr, fun x hx hx' => ?_⟩
  · have := V.firstdata_le
    rw [hbit d (by omega)]
    exact h.mounted.low d hd
  · refine h.owns.step (t := p) (b := b) hk.unowned (fun q => ?_) (fun q hq _ => ?_) fun _ => ?_
    · by_cases hqp : q = p
      · subst hqp
        exact .inr (.inr ⟨rfl, (hptr q).trans (if_pos rfl)⟩)
      · exact .inl ((hptr q).trans (if_neg hqp))
    · have hok := h.owns.ok q hq
      exact ⟨hok.1, (hbit _ hok.1.2).trans hok.2⟩
    · exact ⟨hk.taken.1, (hbit _ hk.taken.1.2).trans hk.taken.2⟩
  · have hp0 : ptr m₀ oi p = 0 := by
      rcases h.grew.ptrs p with he | ⟨hz, -⟩
      · rw [← he]
        exact h0
      · exact hz
    refine ⟨fun d hd hf => ?_, fun x hx => ?_, ?_, fun q => ?_, fun k => ?_,
      fun d hd hno x hx hx' => ?_⟩
    · rw [hbit d hd] at hf
      exact h.grew.free d hd hf
    · rw [Mem.set32_of_ne (by omega)]
      exact h.grew.super x hx
    · rw [← h.grew.ftype]
      exact Mem.get32_set32_ne (by omega)
    · rw [hptr]
      split
      · rename_i hq
        subst hq
        exact .inr ⟨hp0, hk.taken.1, hk.fresh⟩
      · exact h.grew.ptrs q
    · rw [hptr, if_neg (Ne.symm (hunder k))]
      exact h.grew.under k
    · have := h.slot_outside hoi hd.1 (h.grew.not_table hd hno) hp
      rw [Mem.set32_of_ne (by omega)]
      exact h.grew.bytes d hd hno x hx hx'
  · rw [← h.size]
    exact Mem.get32_set32_ne (by omega)
  · rw [Mem.set32_of_ne (by omega)]
    exact hk.zero x hx hx'

theorem InHand.enter_other (hk : InHand V oi m₀ m b) (ht : InHand V oi m₀ m t)
    (h : Along V oi m₀ m) (hoi : V.Inode oi) {p : Place} (hp : Present m oi p)
    (h0 : ptr m oi p = 0) (hunder : ∀ k, p ≠ .indir2 k) (hne : b ≠ t) :
    InHand V oi m₀ (m.set32 (slot m oi p) t) b := by
  obtain ⟨hlo, hhi, -⟩ := hoi.address
  obtain ⟨-, hptr, -⟩ := ht.enter h hoi hp h0 hunder
  have hsl := h.points.slot_range hoi hp
  have hout := h.slot_outside hoi hk.taken.1 (fun q _ => hk.unowned q) hp
  refine ⟨hk.fresh, ⟨hk.taken.1, ?_⟩, fun q => ?_, fun x hx hx' => ?_⟩
  · rw [isFree_congr (fun x _ hx => Mem.set32_of_ne (by omega)) hk.taken.1.2]
    exact hk.taken.2
  · rw [hptr]
    split
    · exact Ne.symm hne
    · exact hk.unowned q
  · rw [Mem.set32_of_ne (by omega)]
    exact hk.zero x hx hx'

theorem Along.quiet (h : Along V oi m₀ m) (hoi : V.Inode oi) (ht : V.IsData t)
    (hfresh : isFree m₀ t = true) (hno : ∀ p : Place, p.IsTable → ptr m oi p ≠ t)
    (hw : ∀ x, x < oi ∨ oi + 4 ≤ x → x < 1024 * t ∨ 1024 * t + 1024 ≤ x → m' x = m x) :
    V.Mounted m' ∧ Owns (ptr m' oi) (V.Allocated m') ∧ Grew V oi m₀ m' ∧
      (∀ p, ptr m' oi p = ptr m oi p) ∧ (∀ d < V.nblocks, isFree m' d = isFree m d) := by
  obtain ⟨hlo, hhi, -⟩ := hoi.address
  have := V.firstinob_ge
  have := V.firstdata_ge
  have := ht.address
  have hptr : ∀ p, ptr m' oi p = ptr m oi p :=
    h.ptr_quiet hoi ht hno fun x _ h1 h2 => hw x (by omega) h2
  have hbit (d : Nat) (hd : d < V.nblocks) : isFree m' d = isFree m d :=
    isFree_congr (fun x _ _ => hw x (by omega) (by omega)) hd
  refine ⟨h.mounted.congr (fun x _ _ => hw x (by omega) (by omega)) fun d hd => ?_, ?_,
    ⟨fun d hd hf => ?_, fun x hx => ?_, ?_, fun p => ?_, fun k => ?_, fun d hd hno x hx hx' => ?_⟩,
    hptr, hbit⟩
  · have := V.firstdata_le
    rw [hbit d (by omega)]
    exact h.mounted.low d hd
  · have hfun : ptr m' oi = ptr m oi := funext hptr
    rw [hfun]
    exact h.owns.mono fun d hd => ⟨hd.1, (hbit d hd.1.2).trans hd.2⟩
  · rw [hbit d hd] at hf
    exact h.grew.free d hd hf
  · rw [hw x (by omega) (by omega)]
    exact h.grew.super x hx
  · rw [← h.grew.ftype]
    exact Mem.get32_congr fun x _ _ => hw x (by omega) (by omega)
  · rw [hptr]
    exact h.grew.ptrs p
  · rw [hptr]
    exact h.grew.under k
  · have hne : d ≠ t := by
      rintro rfl
      rw [hd.2] at hfresh
      cases hfresh
    have := hd.1.address
    rw [hw x (by omega) (by omega)]
    exact h.grew.bytes d hd hno x hx hx'

/-- What a successful `add_block` on a file of `c` blocks does; `a` is the new block. -/
structure Extended (V : Volume) (oi c a : Nat) (m m' : Mem) : Prop where
  mounted : V.Mounted m'
  owns : Owns (ptr m' oi) (V.Allocated m')
  grew : Grew V oi m m'
  size : oiSize m' oi = (oiSize m oi + 1024) % 2 ^ 32
  fresh : isFree m a = true
  taken : V.Allocated m' a
  zero : ∀ x, 1024 * a ≤ x → x < 1024 * a + 1024 → m' x = 0
  leaf : ∀ p, ptr m' oi p = a → p = .leaf c
  keeps : ∀ p : Place, ¬ p.Under (.leaf c) → ptr m' oi p = ptr m oi p
  entered : ptr m' oi (.leaf c) = a ∨ (266 ≤ c ∧ ptr m oi (.indir2 ((c - 266) / 256)) = 0)
  deep : 266 ≤ c → oiIndirect2 m' oi ≠ 0

theorem InHand.extend (hb : InHand V oi m₀ m b) (h : Along V oi m₀ m) (hoi : V.Inode oi)
    (hp : Present m oi (.leaf c)) (h0 : ptr m oi (.leaf c) = 0)
    (hkeeps : ∀ p : Place, ¬ p.Under (.leaf c) → ptr m oi p = ptr m₀ oi p) :
    let m' := m.set32 (slot m oi (.leaf c)) b
    Extended V oi c b m₀ (m'.set32 oi (oiSize m' oi + 1024)) := by
  intro m'
  obtain ⟨hlo, hhi, -⟩ := hoi.address
  have := V.firstdata_ge
  have := hb.taken.1.address
  have hsl := h.points.slot_range hoi hp
  obtain ⟨h', hptr, hzero⟩ := hb.enter h hoi hp h0 (fun k => by simp)
  have hbit : isFree m' b = isFree m b :=
    isFree_congr (fun x _ hx => Mem.set32_of_ne (by omega)) hb.taken.1.2
  have hleaf (p : Place) (hp' : ptr m' oi p = b) : p = .leaf c := by
    rw [hptr] at hp'
    split at hp'
    · assumption
    · exact absurd hp' (hb.unowned p)
  have hsize (x : Nat) (hx : x < oi ∨ oi + 4 ≤ x) :
      m'.set32 oi (oiSize m' oi + 1024) x = m' x := Mem.set32_of_ne hx
  obtain ⟨hmounted, howns, hgrew, hsame, hbits⟩ := Along.quiet (t := b) h' hoi hb.taken.1 hb.fresh
    (fun p hpt hp' => by rw [hleaf p hp'] at hpt; exact hpt) fun x h1 _ => hsize x h1
  have hnew : ptr (m'.set32 oi (oiSize m' oi + 1024)) oi (.leaf c) = b := by
    rw [hsame, hptr, if_pos rfl]
  refine ⟨hmounted, howns, hgrew, ?_, hb.fresh, ⟨hb.taken.1, ?_⟩, fun x hx hx' => ?_,
    fun p hp' => hleaf p (by rw [← hsame]; exact hp'), fun p hp' => ?_, .inl hnew, fun hc => ?_⟩
  · have hs : oiSize m' oi = oiSize m₀ oi := h'.size
    rw [← hs]
    exact Mem.get32_set32
  · rw [hbits b hb.taken.1.2, hbit]
    exact hb.taken.2
  · rw [Mem.set32_of_ne (by omega)]
    exact hzero x hx hx'
  · rw [hsame, hptr, if_neg (by rintro rfl; exact hp' .refl)]
    exact hkeeps p hp'
  · obtain ⟨hlt, -⟩ | ⟨-, hlt, -⟩ | ⟨-, hpar, -⟩ := Place.leaf_cases c
    · omega
    · omega
    · exact ptr_under_ne_zero (.step hpar (.step rfl .refl)) (hnew.trans_ne hb.taken.1.ne_zero)

/-- The new block is entered in an indirect block `t` that is entered nowhere. -/
theorem InHand.lose (hb : InHand V oi m₀ m b) (ht : InHand V oi m₀ m t) (hne : b ≠ t)
    (h : Along V oi m₀ m) (hoi : V.Inode oi) {j : Nat} (hj : j < 256) (hc : 266 ≤ c)
    (hlost : ptr m₀ oi (.indir2 ((c - 266) / 256)) = 0) (hdeep : oiIndirect2 m oi ≠ 0)
    (hkeeps : ∀ p : Place, p ≠ .indirect2 → ptr m oi p = ptr m₀ oi p) :
    let m' := m.set32 (1024 * t + 4 * j) b
    Extended V oi c b m₀ (m'.set32 oi (oiSize m' oi + 1024)) := by
  intro m'
  obtain ⟨hlo, hhi, -⟩ := hoi.address
  have := V.firstdata_ge
  have := hb.taken.1.address
  have := ht.taken.1.address
  have hsize (x : Nat) (h1 : x < oi ∨ oi + 4 ≤ x) (h2 : x < 1024 * t ∨ 1024 * t + 1024 ≤ x) :
      m'.set32 oi (oiSize m' oi + 1024) x = m x := by
    rw [Mem.set32_of_ne h1]
    exact Mem.set32_of_ne (by omega)
  obtain ⟨hmounted, howns, hgrew, hsame, hbits⟩ := Along.quiet (t := t) h hoi ht.taken.1 ht.fresh
    (fun p _ => ht.unowned p) hsize
  refine ⟨hmounted, howns, hgrew, ?_, hb.fresh, ⟨hb.taken.1, ?_⟩, fun x hx hx' => ?_,
    fun p hp' => ?_, fun p hp' => ?_, .inr ⟨hc, hlost⟩, fun _ => ?_⟩
  · have hs : oiSize m' oi = oiSize m oi := Mem.get32_set32_ne (by omega)
    rw [← h.size, ← hs]
    exact Mem.get32_set32
  · rw [hbits b hb.taken.1.2]
    exact hb.taken.2
  · rw [Mem.set32_of_ne (by omega), show m' x = m x from Mem.set32_of_ne (by omega)]
    exact hb.zero x hx hx'
  · rw [hsame] at hp'
    exact absurd hp' (hb.unowned p)
  · rw [hsame]
    refine hkeeps p ?_
    rintro rfl
    obtain ⟨hlt, -⟩ | ⟨-, hlt, -⟩ | ⟨-, hpar, -⟩ := Place.leaf_cases c
    · omega
    · omega
    · exact hp' (.step hpar (.step rfl .refl))
  · have hind := hsame .indirect2
    exact hind.trans_ne hdeep

theorem Along.allocate (h : Along V oi m₀ m) (hoi : V.Inode oi) :
    (Ospfs.allocateBlock m = (0, m) ∧ freeBlocks m = 0) ∨
    ∃ b, Ospfs.allocateBlock m = (b, bitvectorClear m 2048 b) ∧
      clearBlock (bitvectorClear m 2048 b) b = takeBlock m b ∧ V.IsData b ∧ isFree m b = true ∧
      Along V oi m₀ (takeBlock m b) ∧ InHand V oi m₀ (takeBlock m b) b ∧
      (∀ p, ptr (takeBlock m b) oi p = ptr m oi p) ∧
      freeBlocks (takeBlock m b) + 1 = freeBlocks m := by
  rcases h.mounted.allocateBlock with ⟨he, hno⟩ | ⟨b, hb, hf, he⟩
  · exact .inl ⟨he, h.mounted.freeBlocks_eq_zero.2 hno⟩
  · obtain ⟨h', hk, hptr⟩ := h.take hoi hb hf
    exact .inr ⟨b, he, rfl, hb, hf, h', hk, hptr, freeBlocks_take h.mounted hb hf⟩

/-! ## `add_block` -/

/-- A file of `c` blocks while it grows. An indirect block under the doubly
indirect block may be missing. -/
structure Sound (V : Volume) (oi c : Nat) (m : Mem) : Prop where
  mounted : V.Mounted m
  owns : Owns (ptr m oi) (V.Allocated m)
  count : ospfsSize2nblocks (oiSize m oi) = c
  beyond : ∀ b, c ≤ b → ptr m oi (.leaf b) = 0

/-- The number of the pointer block for file block `n`, as `add_block` reads it. -/
def nextTable (m : Mem) (oi n : Nat) : Nat :=
  if n < 10 then 1
  else if n < 266 then oiIndirect m oi
  else if oiIndirect2 m oi = 0 then 0
  else m.get32 (ospfsBlock (oiIndirect2 m oi) + 4 * ((n - 266) / 256))

/-- How many blocks must be free for `add_block` to get past the first two allocations. -/
def blocksNeeded (m : Mem) (oi n : Nat) : Nat := if nextTable m oi n = 0 then 2 else 1

structure Open (V : Volume) (oi c : Nat) (m : Mem) : Prop where
  mounted : V.Mounted m
  owns : Owns (ptr m oi) (V.Allocated m)
  count : ospfsSize2nblocks (oiSize m oi) = c
  next : ptr m oi (.leaf c) = 0

theorem Sound.toOpen (h : Sound V oi c m) : Open V oi c m :=
  ⟨h.mounted, h.owns, h.count, h.beyond c (Nat.le_refl c)⟩

theorem Open.along (h : Open V oi c m) : Along V oi m m := ⟨h.mounted, h.owns, .refl, rfl⟩

theorem Sound.along (h : Sound V oi c m) : Along V oi m m := h.toOpen.along

theorem Open.addDirect (h : Open V oi c m) (hoi : V.Inode oi) (hc : c < 10)
    (h₁ : Along V oi m m') (hb : InHand V oi m m' b) (hptr : ∀ p, ptr m' oi p = ptr m oi p) :
    ∃ m'', addSize oi (.ok (), m'.set32 (oi + 16 + 4 * c) b) = (.ok (), m'') ∧
      Extended V oi c b m m'' := by
  obtain ⟨-, hpar, hidx⟩ | ⟨hge, -⟩ | ⟨hge, -⟩ := Place.leaf_cases c
  case inr.inl => omega
  case inr.inr => omega
  have hp : Present m' oi (.leaf c) :=
    present_of_root (leaf_valid (by unfold maxfileblks; omega)) hpar
  have hext := hb.extend h₁ hoi hp ((hptr _).trans h.next) fun p _ => hptr p
  rw [slot_of_none hpar, hidx] at hext
  exact ⟨_, rfl, hext⟩

theorem Open.addIndirect (h : Open V oi c m) (hoi : V.Inode oi) (hc : 10 ≤ c) (hc' : c < 266)
    (h₁ : Along V oi m m') (hb : InHand V oi m m' b) (hptr : ∀ p, ptr m' oi p = ptr m oi p)
    (hroom : oiIndirect m oi = 0 → freeBlocks m' ≠ 0) :
    ∃ m'', addSize oi (addIndirect m' oi c b) = (.ok (), m'') ∧ Extended V oi c b m m'' := by
  obtain ⟨hlt, -⟩ | ⟨-, -, hpar, hidx⟩ | ⟨hle, -⟩ := Place.leaf_cases c
  · omega
  case inr.inr => omega
  have hval : (Place.leaf c).Valid := leaf_valid (by unfold maxfileblks; omega)
  have hsl (m₁ : Mem) : slot m₁ oi (.leaf c) =
      ospfsBlock (oiIndirect m₁ oi) + 4 * directIndex c := by
    have hdir : directIndex c = c - 10 := directIndex_indirect (by omega) (by omega)
    rw [slot_of_some hpar, hidx, hdir]
    rfl
  have h0 := (hptr (.leaf c)).trans h.next
  unfold Ospfs.addIndirect
  by_cases hind : oiIndirect m' oi = 0
  · rw [if_pos hind]
    have hm0 : oiIndirect m oi = 0 := (hptr .indirect).symm.trans hind
    obtain ⟨-, hz⟩ | ⟨t, he, hcl, ht, htf, h₂, hk, hptr₂, -⟩ := h₁.allocate hoi
    · exact absurd hz (hroom hm0)
    have hne : b ≠ t := by
      rintro rfl
      have := hb.taken.2
      rw [htf] at this
      cases this
    have hpi : Present (takeBlock m' t) oi .indirect := present_of_root trivial rfl
    have hp0 : ptr (takeBlock m' t) oi .indirect = 0 := (hptr₂ _).trans hind
    obtain ⟨h₃, hptr₃, -⟩ := hk.enter h₂ hoi hpi hp0 (fun k => by simp)
    have hb₃ := (hb.take h₁ hoi ht htf).enter_other hk h₂ hoi hpi hp0 (fun k => by simp) hne
    have hslot : slot (takeBlock m' t) oi .indirect = oi + 56 := rfl
    rw [hslot] at h₃ hptr₃ hb₃
    have hp : Present ((takeBlock m' t).set32 (oi + 56) t) oi (.leaf c) := by
      refine present_of_parent hval hpar ?_
      rw [hptr₃, if_pos rfl]
      exact hk.taken.1.ne_zero
    have hext := hb₃.extend h₃ hoi hp
      (by rw [hptr₃, if_neg (by simp), hptr₂]; exact h0) fun p hpu => by
        rw [hptr₃, if_neg (by rintro rfl; exact hpu (.step hpar .refl)), hptr₂, hptr]
    rw [hsl] at hext
    rw [he]
    simp only [hk.taken.1.ne_zero, if_false, hcl]
    exact ⟨_, rfl, hext⟩
  · rw [if_neg hind]
    have hp : Present m' oi (.leaf c) := present_of_parent hval hpar hind
    have hext := hb.extend h₁ hoi hp h0 fun p _ => hptr p
    rw [hsl] at hext
    exact ⟨_, rfl, hext⟩

theorem freeBlocks_congr (h : V.Mounted m)
    (hx : ∀ x, 1024 ≤ x → x < 1024 * V.firstinob → m' x = m x) : freeBlocks m' = freeBlocks m := by
  have := V.firstinob_ge
  have hn : osNblocks m' = osNblocks m :=
    Mem.get32_congr fun x _ _ => hx x (by omega) (by omega)
  unfold freeBlocks
  rw [hn, h.nblocks]
  congr 1
  refine Finset.filter_congr fun b hb => ?_
  rw [isFree_congr (fun x _ hx' => hx x (by omega) hx') (Finset.mem_range.1 hb)]

/-- `add_block` from the doubly indirect block on. -/
theorem Open.addUnder (h : Open V oi c m) (hoi : V.Inode oi) (hc : 266 ≤ c)
    (hc' : c < maxfileblks) (h₁ : Along V oi m m') (hb : InHand V oi m m' b)
    (hdeep : oiIndirect2 m' oi ≠ 0) (hptr : ∀ p : Place, p ≠ .indirect2 → ptr m' oi p = ptr m oi p)
    (hroom : ptr m oi (.indir2 ((c - 266) / 256)) = 0 → freeBlocks m' ≠ 0) (d : Nat) :
    ∃ m'', addSize oi (addUnder m' oi c b d) = (.ok (), m'') ∧ Extended V oi c b m m'' := by
  have hk : (c - 266) / 256 < 256 := by
    unfold maxfileblks at hc'
    omega
  have hi : (indirIndex c).toNat = (c - 266) / 256 := toNat_indirIndex (by omega)
  have hdir : directIndex c = (c - 266) % 256 := directIndex_indirect2 (by omega)
  have hread : m'.get32 (ospfsBlock (oiIndirect2 m' oi) + 4 * ((c - 266) / 256)) =
      ptr m oi (.indir2 ((c - 266) / 256)) := by
    rw [← hptr _ (by simp)]
    simp only [ptr, hk, if_true, entry, hdeep, if_false]
  unfold Ospfs.addUnder
  simp only [hi, hread, hdir]
  by_cases h0 : ptr m oi (.indir2 ((c - 266) / 256)) = 0
  · simp only [h0, if_true]
    obtain ⟨-, hz⟩ | ⟨t, he, hcl, ht, htf, h₂, hkt, hptr₂, -⟩ := h₁.allocate hoi
    · exact absurd hz (hroom h0)
    have hne : b ≠ t := by
      rintro rfl
      have := hb.taken.2
      rw [htf] at this
      cases this
    have hext := (hb.take h₁ hoi ht htf).lose hkt hne h₂ hoi
      (j := (c - 266) % 256) (by omega) hc h0 ((hptr₂ .indirect2).trans_ne hdeep)
      fun p hp => (hptr₂ p).trans (hptr p hp)
    rw [he]
    simp only [hkt.taken.1.ne_zero, if_false, hcl]
    rw [hkt.taken.1.block]
    exact ⟨_, rfl, hext⟩
  · rw [if_neg h0]
    obtain ⟨hlt, -⟩ | ⟨-, hlt, -⟩ | ⟨-, hpar, hidx⟩ := Place.leaf_cases c
    · omega
    · omega
    have hp : Present m' oi (.leaf c) :=
      present_of_parent (leaf_valid hc') hpar ((hptr _ (by simp)).trans_ne h0)
    have hext := hb.extend h₁ hoi hp ((hptr _ (by simp)).trans h.next)
      fun p hpu => hptr p (by rintro rfl; exact hpu (.step hpar (.step rfl .refl)))
    rw [slot_of_some hpar, hidx, hptr _ (by simp)] at hext
    exact ⟨_, rfl, hext⟩

/-- What is left of a failed `add_block`. -/
structure Backed (V : Volume) (oi : Nat) (m m' : Mem) : Prop where
  super : ∀ x < 2048, m' x = m x
  size : oiSize m' oi = oiSize m oi
  bits : ∀ b < V.nblocks, isFree m' b = isFree m b
  ptrs : ∀ p, ptr m' oi p = ptr m oi p ∨
    (ptr m oi p = 0 ∧ V.IsData (ptr m' oi p) ∧ isFree m (ptr m' oi p) = true)

theorem freeBlock_effect (hf : osFirstinob m = V.firstinob) (hb : V.Allocated m b) :
    (∀ x, x < 2048 ∨ 1024 * V.firstinob ≤ x → freeBlock m b x = m x) ∧
      ∀ d, isFree (freeBlock m b) d = (isFree m d || decide (b = d)) := by
  rw [freeBlock_of_allocated hf hb]
  exact ⟨fun x hx => set_of_ne hb.1.2 hx, fun d => isFree_set m b d⟩

theorem Along.giveBack (h : Along V oi m m) (hoi : V.Inode oi) (hb : V.IsData b)
    (hf : isFree m b = true) :
    Backed V oi m (freeBlock (takeBlock m b) b) ∧
      ∀ p, ptr (freeBlock (takeBlock m b) b) oi p = ptr m oi p := by
  obtain ⟨hlo, -, -⟩ := hoi.address
  have := V.firstinob_ge
  obtain ⟨h₁, hk, hptr⟩ := h.take hoi hb hf
  obtain ⟨hbytes, hbits⟩ := freeBlock_effect h₁.mounted.firstinob hk.taken
  have hptr' : ∀ p, ptr (freeBlock (takeBlock m b) b) oi p = ptr m oi p := by
    intro p
    rw [← hptr p]
    refine ptr_congr (fun q hq => Mem.get32_congr fun x hx _ => hbytes x (.inr ?_)) p
    have := (h₁.points.slot_range hoi hq).2.1
    omega
  refine ⟨⟨fun x hx => ?_, ?_, fun d hd => ?_, fun p => .inl (hptr' p)⟩, hptr'⟩
  · rw [hbytes x (.inl hx)]
    exact h₁.grew.super x hx
  · rw [← h₁.size]
    exact Mem.get32_congr fun x hx _ => hbytes x (.inr (by omega))
  · rw [hbits, isFree_take hb hd]
    by_cases heq : b = d
    · subst heq
      simp [hf]
    · simp [heq]

/-- The two blocks in hand are given back, but the inode keeps the number of the
doubly indirect block. -/
theorem Along.giveBack_two {d : Nat} (h : Along V oi m m') (hoi : V.Inode oi)
    (hb : InHand V oi m m' b) (hd : V.Allocated m' d) (hne : b ≠ d)
    (hbits : ∀ x < V.nblocks, isFree m x = (isFree m' x || decide (b = x) || decide (d = x)))
    (hptr : ∀ p, ptr m' oi p = ptr m oi p ∨
      (ptr m oi p = 0 ∧ V.IsData (ptr m' oi p) ∧ isFree m (ptr m' oi p) = true)) :
    Backed V oi m (freeBlock (freeBlock m' b) d) ∧
      ∀ p, ptr (freeBlock (freeBlock m' b) d) oi p = ptr m' oi p := by
  obtain ⟨hlo, -, -⟩ := hoi.address
  have := V.firstinob_ge
  obtain ⟨hbytes, hbit⟩ := freeBlock_effect h.mounted.firstinob hb.taken
  have hf : osFirstinob (freeBlock m' b) = V.firstinob := by
    rw [← h.mounted.firstinob]
    exact Mem.get32_congr fun x _ hx => hbytes x (.inl (by omega))
  obtain ⟨hbytes', hbit'⟩ := freeBlock_effect hf (b := d) ⟨hd.1, by
    rw [hbit, hd.2]
    simp [hne]⟩
  have hsame (x : Nat) (hx : x < 2048 ∨ 1024 * V.firstinob ≤ x) :
      freeBlock (freeBlock m' b) d x = m' x := (hbytes' x hx).trans (hbytes x hx)
  have hptr' : ∀ p, ptr (freeBlock (freeBlock m' b) d) oi p = ptr m' oi p := by
    refine ptr_congr fun q hq => Mem.get32_congr fun x hx _ => hsame x (.inr ?_)
    have := (h.points.slot_range hoi hq).2.1
    omega
  refine ⟨⟨fun x hx => ?_, ?_, fun x hx => ?_, fun p => ?_⟩, hptr'⟩
  · rw [hsame x (.inl hx)]
    exact h.grew.super x hx
  · rw [← h.size]
    exact Mem.get32_congr fun x hx _ => hsame x (.inr (by omega))
  · rw [hbit', hbit, hbits x hx]
  · rw [hptr']
    exact hptr p

theorem Open.enterTop {d : Nat} (h : Open V oi c m) (hoi : V.Inode oi) (hbd : V.IsData b)
    (hbf : isFree m b = true) (hD : oiIndirect2 m oi = 0) (hdd : V.IsData d)
    (hdf : isFree (takeBlock m b) d = true) :
    let m₃ := (takeBlock (takeBlock m b) d).set32 (oi + 60) d
    Along V oi m m₃ ∧ InHand V oi m m₃ b ∧ b ≠ d ∧ oiIndirect2 m₃ oi = d ∧
      (∀ p : Place, p ≠ .indirect2 → ptr m₃ oi p = ptr m oi p) ∧
      freeBlocks m₃ + 2 = freeBlocks m ∧
      ∀ x < V.nblocks, isFree m x = (isFree m₃ x || decide (b = x) || decide (d = x)) := by
  intro m₃
  obtain ⟨hlo, hhi, -⟩ := hoi.address
  obtain ⟨h₁, hb, hptr⟩ := h.along.take hoi hbd hbf
  obtain ⟨h₂, hkd, hptr₂⟩ := h₁.take hoi hdd hdf
  have hcount := freeBlocks_take h.mounted hbd hbf
  have hcount₂ := freeBlocks_take h₁.mounted hdd hdf
  have hne : b ≠ d := by
    rintro rfl
    have := hb.taken.2
    rw [hdf] at this
    cases this
  have hpi : Present (takeBlock (takeBlock m b) d) oi .indirect2 :=
    present_of_root trivial rfl
  have hp0 : ptr (takeBlock (takeBlock m b) d) oi .indirect2 = 0 :=
    (hptr₂ _).trans ((hptr .indirect2).trans hD)
  obtain ⟨h₃, hptr₃, -⟩ := hkd.enter h₂ hoi hpi hp0 (fun k => by simp)
  have hb₃ := (hb.take h₁ hoi hdd hdf).enter_other hkd h₂ hoi hpi hp0 (fun k => by simp) hne
  have hcount₃ : freeBlocks m₃ = freeBlocks (takeBlock (takeBlock m b) d) :=
    freeBlocks_congr h₂.mounted fun x _ hx => Mem.set32_of_ne (by omega)
  have hdfm : isFree m d = true := h₁.grew.free d hdd.2 hdf
  refine ⟨h₃, hb₃, hne, ?_, fun p hp => ?_, by omega, fun x hx => ?_⟩
  · have := hptr₃ .indirect2
    rwa [if_pos rfl] at this
  · have := hptr₃ p
    rwa [if_neg hp, hptr₂, hptr] at this
  · have hfree : isFree m₃ x = (isFree m x && decide (b ≠ x) && decide (d ≠ x)) := by
      rw [← isFree_take hbd hx, ← isFree_take hdd hx]
      exact isFree_congr (fun y _ hy => Mem.set32_of_ne (by omega)) hx
    rw [hfree]
    by_cases hbx : b = x
    · subst hbx
      simp [hbf]
    · by_cases hdx : d = x
      · subst hdx
        simp [hdfm]
      · simp [hbx, hdx]

/-- `add_block` under the doubly indirect block, which is missing: with exactly two
blocks free the third allocation fails, and the number of the second block is left
in the inode. -/
theorem Open.addIndirect2_full (h : Open V oi c m) (hoi : V.Inode oi) (hc : 266 ≤ c)
    (hc' : c < maxfileblks) (hbd : V.IsData b) (hbf : isFree m b = true)
    (hD : oiIndirect2 m oi = 0) (htwo : freeBlocks m = 2) :
    ∃ m'', addSize oi (addIndirect2 (takeBlock m b) oi c b) = (.error .eNoSpc, m'') ∧
      Backed V oi m m'' ∧ oiIndirect2 m'' oi ≠ 0 ∧ Owns (ptr m'' oi) V.IsData := by
  have hk : (c - 266) / 256 < 256 := by
    unfold maxfileblks at hc'
    omega
  have hcount := freeBlocks_take h.mounted hbd hbf
  obtain ⟨h₁, -, hptr⟩ := h.along.take hoi hbd hbf
  have hD' : oiIndirect2 (takeBlock m b) oi = 0 := (hptr .indirect2).trans hD
  unfold Ospfs.addIndirect2
  rw [if_pos hD']
  obtain ⟨-, hz⟩ | ⟨d, he, hcl, hdd, hdf, -⟩ := h₁.allocate hoi
  · omega
  rw [he]
  simp only [hdd.ne_zero, if_false, hcl]
  obtain ⟨h₃, hb₃, hne, hD₃, hkeep, hcount₃, hbits⟩ := h.enterTop hoi hbd hbf hD hdd hdf
  generalize (takeBlock (takeBlock m b) d).set32 (oi + 60) d = m₃
    at h₃ hb₃ hD₃ hkeep hcount₃ hbits ⊢
  have hd0 : oiIndirect2 m₃ oi ≠ 0 := by
    rw [hD₃]
    exact hdd.ne_zero
  have hfail : Ospfs.allocateBlock m₃ = (0, m₃) := by
    obtain ⟨he, -⟩ | ⟨t, -, -, -, -, -, -, -, hcount⟩ := h₃.allocate hoi
    · exact he
    · omega
  have hread : m₃.get32 (ospfsBlock (oiIndirect2 m₃ oi) + 4 * ((c - 266) / 256)) = 0 := by
    have hz : ptr m₃ oi (.indir2 ((c - 266) / 256)) = 0 := by
      rw [hkeep _ (by simp)]
      exact ptr_of_not_present fun hp => hp.2 _ rfl hD
    simpa only [ptr, hk, if_true, entry, hd0, if_false] using hz
  have hi : (indirIndex c).toNat = (c - 266) / 256 := toNat_indirIndex (by omega)
  have hd₃ : V.Allocated m₃ d := by
    have := h₃.owns.ok .indirect2 hd0
    rwa [show ptr m₃ oi .indirect2 = d from hD₃] at this
  obtain ⟨hback, hptr₄⟩ := h₃.giveBack_two hoi hb₃ hd₃ hne hbits h₃.grew.ptrs
  have hown : Owns (ptr (freeBlock (freeBlock m₃ b) d) oi) V.IsData := by
    rw [show ptr (freeBlock (freeBlock m₃ b) d) oi = ptr m₃ oi from funext hptr₄]
    exact h₃.owns.mono fun _ hx => hx.1
  refine ⟨_, ?_, hback, (hptr₄ .indirect2).trans_ne hd0, hown⟩
  unfold Ospfs.addUnder
  simp only [hi, hread, hfail, if_true, ne_eq, hdd.ne_zero, not_false_eq_true]
  rfl

/-- `add_block` under the doubly indirect block: with exactly two blocks free it
fails at the third allocation and leaves the number of the second in the inode. -/
theorem Open.addIndirect2 (h : Open V oi c m) (hoi : V.Inode oi) (hc : 266 ≤ c)
    (hc' : c < maxfileblks) (hbd : V.IsData b) (hbf : isFree m b = true)
    (hroom : nextTable m oi c = 0 → 2 ≤ freeBlocks m) :
    (∃ m'', addSize oi (addIndirect2 (takeBlock m b) oi c b) = (.ok (), m'') ∧
      Extended V oi c b m m'') ∨
    (oiIndirect2 m oi = 0 ∧ freeBlocks m = 2 ∧ ∃ m'',
      addSize oi (addIndirect2 (takeBlock m b) oi c b) = (.error .eNoSpc, m'') ∧
      Backed V oi m m'' ∧ oiIndirect2 m'' oi ≠ 0 ∧ Owns (ptr m'' oi) V.IsData) := by
  have hk : (c - 266) / 256 < 256 := by
    unfold maxfileblks at hc'
    omega
  have hcount := freeBlocks_take h.mounted hbd hbf
  obtain ⟨h₁, hb, hptr⟩ := h.along.take hoi hbd hbf
  have hnext : nextTable m oi c = if oiIndirect2 m oi = 0 then 0 else
      m.get32 (ospfsBlock (oiIndirect2 m oi) + 4 * ((c - 266) / 256)) := by
    unfold nextTable
    rw [if_neg (by omega), if_neg (by omega)]
  by_cases hD : oiIndirect2 m oi = 0
  case neg =>
    have hD' : oiIndirect2 (takeBlock m b) oi ≠ 0 := (hptr .indirect2).trans_ne hD
    unfold Ospfs.addIndirect2
    rw [if_neg hD']
    refine .inl (h.addUnder hoi hc hc' h₁ hb hD' (fun p _ => hptr p) (fun h0 => ?_) 0)
    have h0' : nextTable m oi c = 0 := by
      rw [hnext, if_neg hD]
      simpa only [ptr, hk, if_true, entry, hD, if_false] using h0
    have := hroom h0'
    omega
  have htwo := hroom (by rw [hnext, if_pos hD])
  by_cases hfull : freeBlocks m = 2
  · exact .inr ⟨hD, hfull, h.addIndirect2_full hoi hc hc' hbd hbf hD hfull⟩
  have hD' : oiIndirect2 (takeBlock m b) oi = 0 := (hptr .indirect2).trans hD
  unfold Ospfs.addIndirect2
  rw [if_pos hD']
  obtain ⟨-, hz⟩ | ⟨d, he, hcl, hdd, hdf, -⟩ := h₁.allocate hoi
  · omega
  rw [he]
  simp only [hdd.ne_zero, if_false, hcl]
  obtain ⟨h₃, hb₃, -, hD₃, hkeep, hcount₃, -⟩ := h.enterTop hoi hbd hbf hD hdd hdf
  refine .inl (h.addUnder hoi hc hc' h₃ hb₃ ?_ hkeep (fun _ => by omega) d)
  rw [hD₃]
  exact hdd.ne_zero

theorem Open.addBlock (h : Open V oi c m) (hoi : V.Inode oi) (hc : c < maxfileblks)
    (hroom : blocksNeeded m oi c ≤ freeBlocks m) :
    (∃ a m', addBlock m oi = (.ok (), m') ∧ Extended V oi c a m m') ∨
    (266 ≤ c ∧ oiIndirect2 m oi = 0 ∧ freeBlocks m = 2 ∧ ∃ m',
      addBlock m oi = (.error .eNoSpc, m') ∧ Backed V oi m m' ∧ oiIndirect2 m' oi ≠ 0 ∧
        Owns (ptr m' oi) V.IsData) := by
  have hpos : 0 < blocksNeeded m oi c := by
    unfold blocksNeeded
    split <;> omega
  have hneed (h0 : nextTable m oi c = 0) : 2 ≤ freeBlocks m := by
    unfold blocksNeeded at hroom
    rwa [if_pos h0] at hroom
  rw [addBlock_eq, h.count]
  simp only
  rw [if_neg (by omega)]
  obtain ⟨-, hz⟩ | ⟨b, he, hcl, hbd, hbf, h₁, hb, hptr, hcount⟩ := h.along.allocate hoi
  · omega
  rw [he]
  simp only [hbd.ne_zero, if_false]
  rw [hcl]
  by_cases h10 : c < 10
  · rw [if_pos h10]
    obtain ⟨m', heq, hext⟩ := h.addDirect hoi h10 h₁ hb hptr
    exact .inl ⟨b, m', heq, hext⟩
  rw [if_neg h10]
  by_cases h266 : c < 266
  · rw [if_pos h266]
    obtain ⟨m', heq, hext⟩ := h.addIndirect hoi (by omega) h266 h₁ hb hptr fun h0 => by
      have := hneed (by unfold nextTable; rw [if_neg h10, if_pos h266]; exact h0)
      omega
    exact .inl ⟨b, m', heq, hext⟩
  · rw [if_neg h266]
    rcases h.addIndirect2 hoi (by omega) hc hbd hbf hneed with ⟨m', heq, hext⟩ | ⟨hD, hf, hback⟩
    · exact .inl ⟨b, m', heq, hext⟩
    · exact .inr ⟨by omega, hD, hf, hback⟩

/-- With exactly two blocks free, and the doubly indirect block missing, the third
allocation fails. -/
theorem Open.addBlock_two (h : Open V oi c m) (hoi : V.Inode oi) (hc : 266 ≤ c)
    (hc' : c < maxfileblks) (hD : oiIndirect2 m oi = 0) (htwo : freeBlocks m = 2) :
    ∃ m', Ospfs.addBlock m oi = (.error .eNoSpc, m') ∧ Backed V oi m m' ∧
      oiIndirect2 m' oi ≠ 0 := by
  rw [addBlock_eq, h.count]
  simp only
  rw [if_neg (by omega)]
  obtain ⟨-, hz⟩ | ⟨b, he, hcl, hbd, hbf, -⟩ := h.along.allocate hoi
  · omega
  obtain ⟨m', he', hback, hD', -⟩ := h.addIndirect2_full hoi hc hc' hbd hbf hD htwo
  rw [he]
  simp only [hbd.ne_zero, if_false]
  rw [hcl, if_neg (by omega), if_neg (by omega)]
  exact ⟨m', he', hback, hD'⟩

theorem Backed.refl : Backed V oi m m :=
  ⟨fun _ _ => rfl, rfl, fun _ _ => rfl, fun _ => .inl rfl⟩

theorem take_word_zero {s : Nat} (hb : V.IsData b) (hs : 1024 * V.firstinob ≤ s) (hal : s % 4 = 0)
    (h0 : m.get32 s = 0) : (takeBlock m b).get32 s = 0 := by
  by_cases hin : 1024 * b ≤ s ∧ s < 1024 * b + 1024
  · exact Mem.get32_of_zero fun i hi => take_zero hb (by omega) (by omega)
  · rw [← h0]
    exact Mem.get32_congr fun x hx hx' => take_of_ne hb (by omega) (by omega)

/-- `add_block` with too few blocks for the first two allocations: it takes none, or
gives the one it has taken back. -/
theorem Along.addBlock_short_cases (h : Along V oi m m) (hoi : V.Inode oi)
    (hcount : ospfsSize2nblocks (oiSize m oi) = c) (hc : c ≤ maxfileblks)
    (hroom : freeBlocks m < blocksNeeded m oi c) :
    addBlock m oi = (.error .eNoSpc, m) ∨ ∃ b, V.IsData b ∧ isFree m b = true ∧
      addBlock m oi = (.error .eNoSpc, freeBlock (takeBlock m b) b) := by
  rw [addBlock_eq, hcount]
  simp only
  rw [if_neg (by omega)]
  obtain ⟨he, -⟩ | ⟨b, he, hcl, hbd, hbf, h₁, hb, hptr, hcnt⟩ := h.allocate hoi
  · rw [he]
    exact .inl rfl
  refine .inr ⟨b, hbd, hbf, ?_⟩
  have h0 : nextTable m oi c = 0 := by
    unfold blocksNeeded at hroom
    by_contra hne
    rw [if_neg hne] at hroom
    omega
  have hfail : Ospfs.allocateBlock (takeBlock m b) = (0, takeBlock m b) := by
    unfold blocksNeeded at hroom
    rw [if_pos h0] at hroom
    obtain ⟨he, -⟩ | ⟨t, -, -, -, -, -, -, -, hcnt'⟩ := h₁.allocate hoi
    · exact he
    · omega
  have h10 : ¬ c < 10 := by
    intro hlt
    unfold nextTable at h0
    rw [if_pos hlt] at h0
    cases h0
  unfold nextTable at h0
  rw [if_neg h10] at h0
  rw [he]
  simp only [hbd.ne_zero, if_false]
  rw [hcl, if_neg h10]
  by_cases h266 : c < 266
  · rw [if_pos h266] at h0 ⊢
    have hind : oiIndirect (takeBlock m b) oi = 0 := (hptr .indirect).trans h0
    unfold Ospfs.addIndirect
    simp only [hind, hfail, if_true]
    rfl
  rw [if_neg h266] at h0 ⊢
  by_cases hD : oiIndirect2 m oi = 0
  · have hD' : oiIndirect2 (takeBlock m b) oi = 0 := (hptr .indirect2).trans hD
    unfold Ospfs.addIndirect2
    simp only [hD', hfail, if_true]
    rfl
  · rw [if_neg hD] at h0
    have hD' : oiIndirect2 (takeBlock m b) oi = oiIndirect2 m oi := hptr .indirect2
    have hDd : V.IsData (oiIndirect2 m oi) := h.points .indirect2 hD
    have := hDd.address
    have := V.firstdata_ge
    have hi : (indirIndex c).toNat = (c - 266) / 256 := toNat_indirIndex (by omega)
    have hread : (takeBlock m b).get32
        (ospfsBlock (oiIndirect2 m oi) + 4 * ((c - 266) / 256)) = 0 := by
      refine take_word_zero hbd ?_ ?_ h0
      · rw [hDd.block]
        omega
      · rw [hDd.block]
        omega
    unfold Ospfs.addIndirect2 Ospfs.addUnder
    simp only [hD', hD, hi, hread, hfail, if_true, if_false, ne_eq, not_true_eq_false]
    rfl

theorem Along.addBlock_short (h : Along V oi m m) (hoi : V.Inode oi)
    (hcount : ospfsSize2nblocks (oiSize m oi) = c) (hc : c ≤ maxfileblks)
    (hroom : freeBlocks m < blocksNeeded m oi c) :
    ∃ m', addBlock m oi = (.error .eNoSpc, m') ∧ Backed V oi m m' ∧
      ∀ p, ptr m' oi p = ptr m oi p := by
  rcases h.addBlock_short_cases hoi hcount hc hroom with he | ⟨b, hb, hf, he⟩
  · exact ⟨m, he, .refl, fun _ => rfl⟩
  · exact ⟨_, he, h.giveBack hoi hb hf⟩

end Volume

end OsLabs.Ospfs
