import OsLabs.Ospfs.Bitmap

/-!
# OSPFS: moves

The steps that `add_block`, `remove_block` and `change_size` are made of, on a
file system in order: take a block, enter it in a file, link it as a table, give
it back, release a file block, drop a table, set the size. Each keeps `Tidy` and
touches one inode only.
-/

namespace OsLabs.Ospfs

/-- A change of the block map of `ino` from block `k` on. -/
structure Move (g : Geometry) (S : Nat → Prop) (ino k : Nat) (m m' : Mem) : Prop where
  tidy : Tidy g S m'
  frame : Frame g S ino k m m'
  size : oiSize m' (inodeAddr ino) = oiSize m (inodeAddr ino)

variable {g : Geometry} {S : Nat → Prop} {m m' m'' : Mem} {ino b n k : Nat}
  {c : Nat → UInt8} {p : Place}

theorem Move.trans (h : Move g S ino k m m') (h' : Move g S ino k m' m'') :
    Move g S ino k m m'' :=
  ⟨h'.tidy, h.frame.trans h'.frame, h'.size.trans h.size⟩

theorem Move.fileBlocks (h : Move g S ino k m m') : fileBlocks m' ino = fileBlocks m ino := by
  unfold Ospfs.fileBlocks
  rw [h.size]

theorem Tidy.move_refl (h : Tidy g S m) : Move g S ino k m m := ⟨h, .refl, rfl⟩

/-! ## Taking and giving back -/

theorem Tidy.allocate (h : Tidy g S m) (hin : ino < g.ninodes) :
    (Ospfs.allocateBlock m = (0, m) ∧ freeBlocks m = 0) ∨
    ∃ b, Ospfs.allocateBlock m = (b, bitvectorClear m 2048 b) ∧
      clearBlock (bitvectorClear m 2048 b) b = takeBlock m b ∧ g.IsData b ∧ isFree m b = true ∧
      Move g S ino k m (takeBlock m b) ∧ Spare g S (takeBlock m b) b zeros ∧
      own (takeBlock m b) S = own m S ∧ freeBlocks (takeBlock m b) + 1 = freeBlocks m := by
  rcases h.allocateBlock with ⟨he, hno⟩ | ⟨b, hb, hf, he⟩
  · exact .inl ⟨he, h.freeBlocks_eq_zero.2 hno⟩
  · obtain ⟨ht, hsp, hown, hfr, -⟩ := h.take (k := k) hin hb hf
    have hb3 : 3 ≤ b := Nat.le_trans g.firstdata_ge hb.1
    have hsize : oiSize (takeBlock m b) (inodeAddr ino) = oiSize m (inodeAddr ino) :=
      Mem.get32_congr fun x hx hx' => take_inode hb hin hx (by omega)
    refine .inr ⟨b, he, rfl, hb, hf, ⟨ht, hfr, hsize⟩, hsp, hown, freeBlocks_take hb3 ?_ ?_ hf⟩
    · rw [h.super.nblocks]
      exact g.small
    · rw [h.super.nblocks]
      exact hb.2

theorem freeBlock_zero (h : Tidy g S m) : freeBlock m 0 = m := by
  unfold freeBlock
  rw [h.super.firstinob]
  rfl

theorem freeBlock_of_allocated (h : Tidy g S m) (hb : Allocated g m b) :
    freeBlock m b = bitvectorSet m 2048 b := by
  have := hb.1.1
  have := g.firstdata_ge
  have ht : ¬ bitvectorTest m (ospfsBlock 2) b = true := by
    show ¬ isFree m b = true
    rw [hb.2]
    exact Bool.false_ne_true
  unfold freeBlock
  rw [h.super.firstinob, if_neg (by omega), if_neg ht]
  rfl

theorem Tidy.set_bit (h : Tidy g S m) (hin : ino < g.ninodes) (hb : g.IsData b) :
    own (bitvectorSet m 2048 b) S = own m S ∧ Frame g S ino k m (bitvectorSet m 2048 b) ∧
      oiSize (bitvectorSet m 2048 b) (inodeAddr ino) = oiSize m (inodeAddr ino) := by
  have hb8 := h.nblocks_lt hb
  have hfd := g.firstdata_ge
  have hin' := inodeAddr_ge
  have hown : own (bitvectorSet m 2048 b) S = own m S := by
    refine h.laid.own_of_meta (fun j _ x hx _ => set_of_ne hb8 ?_) fun x hx => set_of_ne hb8 ?_
    · have := inodeAddr_ge j
      omega
    · omega
  refine ⟨hown, h.laid.frame_data hin hown fun x hx => ?_, ?_⟩
  · by_contra hno
    exact hx (set_of_ne hb8 (by omega))
  · refine Mem.get32_congr fun x hx _ => set_of_ne hb8 ?_
    have := inodeAddr_ge ino
    omega

theorem Tidy.giveBack (h : Tidy g S m) (hin : ino < g.ninodes) (hb : Spare g S m b c) :
    Move g S ino k m (freeBlock m b) := by
  obtain ⟨hown, hfr, hsize⟩ := h.set_bit (k := k) hin hb.allocated.1
  rw [freeBlock_of_allocated h hb.allocated]
  refine ⟨h.of_frame hfr (fun d hd => ?_) ?_ (fun d hd hs => ?_), hfr, hsize⟩
  · have := hb.allocated.1.1
    have hne : b ≠ d := by omega
    rw [isFree_set, h.low d hd]
    simp [hne]
  · rw [hown]
    refine h.laid.owns.shrink (fun i => .inl rfl) fun i hi _ => ?_
    have hok := h.laid.owns.ok i hi
    refine ⟨hok.1, ?_⟩
    rw [isFree_set, hok.2]
    simpa using Ne.symm (hb.unowned i)
  · rw [hown]
    unfold fileBlocks at hd
    rw [hsize] at hd
    exact h.mapped_own hs hd

/-! ## Writing the slots -/

/-- A write to a slot that keeps the pointers in order. -/
theorem Tidy.write_slot (h : Tidy g S m) (hs : S ino) (hp : Present m (inodeAddr ino) p) {v : Nat}
    (hown : ∀ i, own (m.set32 (slot m (inodeAddr ino) p) v) S i ≠ own m S i →
      i.1 = ino ∧ ∀ b, i.2 = .leaf b → k ≤ b)
    (howns : Owns (own (m.set32 (slot m (inodeAddr ino) p) v) S) (Allocated g m))
    (hmap : ∀ b < fileBlocks m ino,
      own (m.set32 (slot m (inodeAddr ino) p) v) S (ino, .leaf b) ≠ 0) :
    Move g S ino k m (m.set32 (slot m (inodeAddr ino) p) v) ∧
      ∀ x, x < 3072 → m.set32 (slot m (inodeAddr ino) p) v x = m x := by
  have hr := h.laid.slot_range hs hp
  have hge := inodeAddr_ge ino
  have hlt := inodeAddr_lt (h.laid.bound _ hs)
  have hfd := g.firstdata_le
  have hsm := g.small
  have hfr := h.laid.frame_slot hs hp hown
  have hlow : ∀ x, x < 3072 → m.set32 (slot m (inodeAddr ino) p) v x = m x :=
    fun x hx => Mem.set32_of_ne (by omega)
  have hfree (c : Nat) (hc : c < 8192) := isFree_congr (fun x _ => hlow x) hc
  have hsize : oiSize (m.set32 (slot m (inodeAddr ino) p) v) (inodeAddr ino) =
      oiSize m (inodeAddr ino) := Mem.get32_set32_ne (by omega)
  refine ⟨⟨h.of_frame hfr (fun c hc => ?_) (howns.mono fun c hc => ⟨hc.1, ?_⟩)
    (fun c hc _ => hmap c ?_), hfr, hsize⟩, hlow⟩
  · rw [hfree c (by omega)]
    exact h.low c hc
  · rw [hfree c (h.nblocks_lt hc.1)]
    exact hc.2
  · unfold fileBlocks at hc
    rwa [hsize] at hc

theorem Tidy.enter (h : Tidy g S m) (hs : S ino) (hp : Present m (inodeAddr ino) (.leaf n))
    (hb : Spare g S m b c) :
    Move g S ino n m (m.set32 (slot m (inodeAddr ino) (.leaf n)) b) ∧
      (∀ i, own (m.set32 (slot m (inodeAddr ino) (.leaf n)) b) S i =
        if i = (ino, .leaf n) then b else own m S i) ∧
      ∀ x, x < 1024 → m.set32 (slot m (inodeAddr ino) (.leaf n)) b (1024 * b + x) = c x := by
  have hb8 := h.nblocks_lt hb.allocated.1
  have hown := h.laid.own_write hs hp (v := b) (by omega)
  have hmove := h.write_slot (k := n) hs hp (v := b) (fun i hi => ?_) ?_ (fun d hd => ?_)
  · refine ⟨hmove.1, hown, fun x hx => ?_⟩
    have := h.laid.slot_not_in hs hp hb.allocated.1.1 fun i _ => hb.unowned i
    rw [Mem.set32_of_ne (by omega)]
    exact hb.bytes x hx
  · rw [hown] at hi
    by_cases heq : i = (ino, .leaf n)
    · subst heq
      refine ⟨rfl, fun d hd => ?_⟩
      rw [Place.leaf.inj hd]
    · rw [if_neg heq] at hi
      exact absurd rfl hi
  · refine h.laid.owns.step (t := (ino, .leaf n)) hb.unowned (fun i => ?_)
      (fun i hi _ => h.laid.owns.ok i hi) (fun _ => hb.allocated)
    rw [hown]
    by_cases heq : i = (ino, .leaf n)
    · exact .inr (.inr ⟨heq, if_pos heq⟩)
    · exact .inl (if_neg heq)
  · rw [hown]
    split
    · exact hb.ne_zero
    · exact h.mapped_own hs hd

theorem Tidy.link (h : Tidy g S m) (hs : S ino) (hp : Present m (inodeAddr ino) p)
    (htab : p.IsTable) (hp0 : ptr m (inodeAddr ino) p = 0) (hb : Spare g S m b zeros) :
    Move g S ino k m (m.set32 (slot m (inodeAddr ino) p) b) ∧
      (∀ i, own (m.set32 (slot m (inodeAddr ino) p) b) S i =
        if i = (ino, p) then b else own m S i) ∧
      (∀ x, x < 3072 → m.set32 (slot m (inodeAddr ino) p) b x = m x) ∧
      ∀ d, d ≠ b → Spare g S m d c → Spare g S (m.set32 (slot m (inodeAddr ino) p) b) d c := by
  have hown := h.laid.own_link hs hp hp0 hb.allocated.1 hb.unowned fun x hx hx' => by
    have := hb.bytes (x - 1024 * b) (by omega)
    rwa [Nat.add_sub_cancel' hx] at this
  have hmove := h.write_slot (k := k) hs hp (v := b) (fun i hi => ?_) ?_ (fun d hd => ?_)
  · obtain ⟨hmove, hlow⟩ := hmove
    refine ⟨hmove, hown, hlow, fun d hdb hd => ⟨⟨hd.allocated.1, ?_⟩, fun i => ?_, ?_⟩⟩
    · rw [isFree_congr (fun x _ => hlow x) (h.nblocks_lt hd.allocated.1)]
      exact hd.allocated.2
    · rw [hown]
      split
      · exact Ne.symm hdb
      · exact hd.unowned i
    · intro x hx
      have := h.laid.slot_not_in hs hp hd.allocated.1.1 fun i _ => hd.unowned i
      rw [Mem.set32_of_ne (by omega)]
      exact hd.bytes x hx
  · rw [hown] at hi
    by_cases heq : i = (ino, p)
    · subst heq
      refine ⟨rfl, fun d hd => ?_⟩
      simp only at hd
      rw [hd] at htab
      exact htab.elim
    · rw [if_neg heq] at hi
      exact absurd rfl hi
  · refine h.laid.owns.step (t := (ino, p)) hb.unowned (fun i => ?_)
      (fun i hi _ => h.laid.owns.ok i hi) (fun _ => hb.allocated)
    rw [hown]
    by_cases heq : i = (ino, p)
    · exact .inr (.inr ⟨heq, if_pos heq⟩)
    · exact .inl (if_neg heq)
  · rw [hown]
    split
    · exact hb.ne_zero
    · exact h.mapped_own hs hd

/-! ## Letting go -/

/-- The slot of a place whose block is missing lies in the empty boot block. -/
theorem set32_slot_missing (h : Tidy g S m) (hv : p.Valid) (hp : ¬ Present m (inodeAddr ino) p) :
    m.set32 (slot m (inodeAddr ino) p) 0 = m := by
  have hex : ∃ q, p.parent = some q ∧ ptr m (inodeAddr ino) q = 0 := by
    by_contra hno
    exact hp ⟨hv, fun q hq h0 => hno ⟨q, hq, h0⟩⟩
  obtain ⟨q, hq, h0⟩ := hex
  have hidx := Place.idx_lt_of_some hv hq
  refine Mem.set32_zero fun x _ hx => h.boot x ?_
  rw [slot_of_some hq, h0] at hx
  unfold ospfsBlock at hx
  omega

theorem Tidy.freeBlock (h : Tidy g S m) (hin : ino < g.ninodes) {i : Nat × Place} :
    own (freeBlock m (own m S i)) S = own m S ∧
      Frame g S ino k m (Ospfs.freeBlock m (own m S i)) ∧
      oiSize (Ospfs.freeBlock m (own m S i)) (inodeAddr ino) = oiSize m (inodeAddr ino) ∧
      ∀ c, isFree (Ospfs.freeBlock m (own m S i)) c =
        (isFree m c || decide (own m S i ≠ 0 ∧ own m S i = c)) := by
  by_cases h0 : own m S i = 0
  · rw [h0, freeBlock_zero h]
    exact ⟨rfl, .refl, rfl, fun c => by simp⟩
  · have hok := h.laid.owns.ok i h0
    obtain ⟨hown, hfr, hsize⟩ := h.set_bit (k := k) hin hok.1
    rw [freeBlock_of_allocated h hok]
    refine ⟨hown, hfr, hsize, fun c => ?_⟩
    rw [isFree_set]
    simp [h0]

theorem Tidy.release (h : Tidy g S m) (hs : S ino) (hn : n < maxfileblks)
    (hge : fileBlocks m ino ≤ n) :
    Move g S ino n m ((Ospfs.freeBlock m (ptr m (inodeAddr ino) (.leaf n))).set32
      (slot m (inodeAddr ino) (.leaf n)) 0) ∧
    ∀ p : Place, p.IsTable → ptr ((Ospfs.freeBlock m (ptr m (inodeAddr ino) (.leaf n))).set32
      (slot m (inodeAddr ino) (.leaf n)) 0) (inodeAddr ino) p = ptr m (inodeAddr ino) p := by
  have hin := h.laid.bound _ hs
  by_cases hp : Present m (inodeAddr ino) (.leaf n)
  case neg =>
    rw [ptr_of_not_present hp, freeBlock_zero h, set32_slot_missing h (p := .leaf n) hn hp]
    exact ⟨h.move_refl, fun _ _ => rfl⟩
  rw [← own_of_mem hs (.leaf n)]
  obtain ⟨hown₁, hfr₁, hsize₁, hfree₁⟩ := h.freeBlock (k := n) hin (i := (ino, .leaf n))
  generalize hm₁ : Ospfs.freeBlock m (own m S (ino, .leaf n)) = m₁ at *
  have hlaid₁ : Laid g S (Allocated g m) m₁ := ⟨h.laid.bound, fun b hb => hb.1, hown₁ ▸ h.laid.owns⟩
  have hptr (q : Place) : ptr m₁ (inodeAddr ino) q = ptr m (inodeAddr ino) q := by
    rw [← own_of_mem (m := m₁) hs, hown₁, own_of_mem hs]
  have hplace := place_congr fun q (_ : Place.parent (.leaf n) = some q) => hptr q
  have hp₁ := hplace.1.2 hp
  rw [← hplace.2]
  have hown := hlaid₁.own_write hs hp₁ (v := 0) (by omega)
  rw [hown₁] at hown
  have hr := hlaid₁.slot_range hs hp₁
  have hge' := inodeAddr_ge ino
  have hfd := g.firstdata_le
  have hsm := g.small
  have hlt := inodeAddr_lt hin
  have hfr : Frame g S ino n m (m₁.set32 (slot m₁ (inodeAddr ino) (.leaf n)) 0) := by
    refine hfr₁.trans (hlaid₁.frame_slot hs hp₁ fun i hi => ?_)
    rw [hown, hown₁] at hi
    by_cases heq : i = (ino, .leaf n)
    · subst heq
      refine ⟨rfl, fun c hc => ?_⟩
      rw [Place.leaf.inj hc]
    · rw [if_neg heq] at hi
      exact absurd rfl hi
  have hfree (c : Nat) (hc : c < 8192) :
      isFree (m₁.set32 (slot m₁ (inodeAddr ino) (.leaf n)) 0) c = isFree m₁ c :=
    isFree_congr (fun x _ _ => Mem.set32_of_ne (by omega)) hc
  have hsize : oiSize (m₁.set32 (slot m₁ (inodeAddr ino) (.leaf n)) 0) (inodeAddr ino) =
      oiSize m (inodeAddr ino) := by
    rw [← hsize₁]
    exact Mem.get32_set32_ne (by omega)
  refine ⟨⟨h.of_frame hfr (fun c hc => ?_) ?_ (fun c hc _ => ?_), hfr, hsize⟩, fun q hq => ?_⟩
  · rw [hfree c (by omega), hfree₁, h.low c hc, Bool.false_or, decide_eq_false_iff_not]
    rintro ⟨h0, rfl⟩
    exact absurd (h.laid.isData h0).1 (by omega)
  · refine h.laid.owns.shrink (fun i => ?_) fun i hi hkeep => ?_
    · rw [hown]
      split
      · exact .inr rfl
      · exact .inl rfl
    · have hok := h.laid.owns.ok i hi
      refine ⟨hok.1, ?_⟩
      rw [hfree _ (h.nblocks_lt hok.1), hfree₁, hok.2, Bool.false_or, decide_eq_false_iff_not]
      rintro ⟨h0, heq⟩
      obtain rfl := h.laid.owns.inj _ _ h0 heq
      rw [hown, if_pos rfl] at hkeep
      exact h0 hkeep.symm
  · unfold fileBlocks at hc hge
    rw [hsize] at hc
    rw [hown, if_neg]
    · exact h.mapped_own hs hc
    · rintro ⟨⟩
      omega
  · rw [← own_of_mem hs, hown, if_neg, own_of_mem hs]
    rintro ⟨⟩
    exact hq

theorem Tidy.drop (h : Tidy g S m) (hs : S ino) (hv : p.Valid)
    (hge : ∀ b, p.Under (.leaf b) → n ≤ b) (hn : fileBlocks m ino ≤ n) :
    Move g S ino n m (m.set32 (slot m (inodeAddr ino) p) 0) := by
  by_cases hp : Present m (inodeAddr ino) p
  case neg =>
    rw [set32_slot_missing h hv hp]
    exact h.move_refl
  have hown := h.laid.own_clear hs hp
  have hmove := h.write_slot (k := n) hs hp (v := 0) (fun i hi => ?_) ?_ (fun c hc => ?_)
  · exact hmove.1
  · rcases hown i with ⟨rfl, hu, -⟩ | ⟨-, heq⟩
    · exact ⟨rfl, fun c hc => hge c (hc ▸ hu)⟩
    · exact absurd heq hi
  · refine h.laid.owns.shrink (fun i => ?_) (fun i hi _ => h.laid.owns.ok i hi)
    rcases hown i with ⟨-, -, h0⟩ | ⟨-, heq⟩
    · exact .inr h0
    · exact .inl heq
  · rcases hown (ino, .leaf c) with ⟨-, hu, -⟩ | ⟨-, heq⟩
    · exact absurd (hge c hu) (by omega)
    · rw [heq]
      exact h.mapped_own hs hc

theorem Tidy.set_size (h : Tidy g S m) (hs : S ino) {v : Nat} (hv : v < 2 ^ 32)
    (hmap : ∀ b < ospfsSize2nblocks v, own m S (ino, .leaf b) ≠ 0) :
    Tidy g S (m.set32 (inodeAddr ino) v) ∧ Frame g S ino k m (m.set32 (inodeAddr ino) v) ∧
      own (m.set32 (inodeAddr ino) v) S = own m S ∧
      oiSize (m.set32 (inodeAddr ino) v) (inodeAddr ino) = v ∧
      (∀ x, x < 3072 → m.set32 (inodeAddr ino) v x = m x) ∧
      ∀ x, 1024 * g.firstdata ≤ x → m.set32 (inodeAddr ino) v x = m x := by
  have hin := h.laid.bound _ hs
  have hge := inodeAddr_ge ino
  have hlt := inodeAddr_lt hin
  have hfd := g.firstdata_le
  have hsm := g.small
  have hlow : ∀ x, x < 3072 → m.set32 (inodeAddr ino) v x = m x :=
    fun x hx => Mem.set32_of_ne (by omega)
  have hown : own (m.set32 (inodeAddr ino) v) S = own m S := by
    refine h.laid.own_of_meta (fun j hj x hx hx' => Mem.set32_of_ne ?_)
      (fun x hx => Mem.set32_of_ne (by omega))
    unfold inodeAddr at *
    omega
  have hfr : Frame g S ino k m (m.set32 (inodeAddr ino) v) := by
    refine h.laid.frame_data hin hown fun x hx => ?_
    by_contra hno
    exact hx (Mem.set32_of_ne (by omega))
  have hsize : oiSize (m.set32 (inodeAddr ino) v) (inodeAddr ino) = v := Mem.get32_set32_of_lt hv
  have hfree (c : Nat) (hc : c < 8192) := isFree_congr (fun x _ => hlow x) hc
  refine ⟨h.of_frame hfr (fun c hc => ?_) ?_ (fun c hc _ => ?_), hfr, hown, hsize, hlow,
    fun x hx => Mem.set32_of_ne (by omega)⟩
  · rw [hfree c (by omega)]
    exact h.low c hc
  · rw [hown]
    refine h.laid.owns.mono fun c hc => ⟨hc.1, ?_⟩
    rw [hfree c (h.nblocks_lt hc.1)]
    exact hc.2
  · unfold fileBlocks at hc
    rw [hsize] at hc
    rw [hown]
    exact hmap c hc

end OsLabs.Ospfs
