import OsLabs.Ospfs.Module
import OsLabs.Ospfs.Blocks

/-!
# OSPFS: files

`fileByte m ino x` is byte `x` of a file, found through the block map. `Frame g S
ino k m m'` says what an operation on the block map of `ino` leaves alone: the
boot and super block, all other inodes and their files, and of `ino` everything
but the size and the blocks from `k` on.
-/

namespace OsLabs.Ospfs

def fileByte (m : Mem) (ino x : Nat) : UInt8 :=
  m (1024 * ptr m (inodeAddr ino) (.leaf (x / 1024)) + x % 1024)

def fileBlocks (m : Mem) (ino : Nat) : Nat := ospfsSize2nblocks (oiSize m (inodeAddr ino))

structure Frame (g : Geometry) (S : Nat → Prop) (ino k : Nat) (m m' : Mem) : Prop where
  super : ∀ x, x < 2048 → m' x = m x
  attrs : ∀ x, inodeAddr ino + 4 ≤ x → x < inodeAddr ino + 16 → m' x = m x
  inodes : ∀ j, j < g.ninodes → j ≠ ino →
    ∀ x, inodeAddr j ≤ x → x < inodeAddr j + 64 → m' x = m x
  others : ∀ j p, j ≠ ino → own m' S (j, p) = own m S (j, p)
  leaves : ∀ b, b < k → own m' S (ino, .leaf b) = own m S (ino, .leaf b)
  bytes : ∀ j b, (j = ino → b < k) → own m S (j, .leaf b) ≠ 0 →
    ∀ x, 1024 * own m S (j, .leaf b) ≤ x → x < 1024 * own m S (j, .leaf b) + 1024 → m' x = m x

namespace Frame

variable {g : Geometry} {S : Nat → Prop} {ino k k' : Nat} {m m' m'' : Mem}

theorem refl : Frame g S ino k m m :=
  ⟨fun _ _ => rfl, fun _ _ _ => rfl, fun _ _ _ _ _ _ => rfl, fun _ _ _ => rfl, fun _ _ => rfl,
    fun _ _ _ _ _ _ _ => rfl⟩

theorem mono (h : Frame g S ino k' m m') (hk : k ≤ k') : Frame g S ino k m m' :=
  { h with
    leaves := fun b hb => h.leaves b (by omega)
    bytes := fun j b hj => h.bytes j b fun hji => by have := hj hji; omega }

theorem leaf (h : Frame g S ino k m m') {j b : Nat} (hj : j = ino → b < k) :
    own m' S (j, .leaf b) = own m S (j, .leaf b) := by
  by_cases hji : j = ino
  · subst hji
    exact h.leaves b (hj rfl)
  · exact h.others j _ hji

theorem trans (h : Frame g S ino k m m') (h' : Frame g S ino k m' m'') :
    Frame g S ino k m m'' := by
  constructor
  · intro x hx
    rw [h'.super x hx, h.super x hx]
  · intro x hx hx'
    rw [h'.attrs x hx hx', h.attrs x hx hx']
  · intro j hj hji x hx hx'
    rw [h'.inodes j hj hji x hx hx', h.inodes j hj hji x hx hx']
  · intro j p hj
    rw [h'.others j p hj, h.others j p hj]
  · intro b hb
    rw [h'.leaves b hb, h.leaves b hb]
  · intro j b hj h0 x hx hx'
    have hl := h.leaf hj
    rw [h'.bytes j b hj (hl ▸ h0) x (hl ▸ hx) (hl ▸ hx'), h.bytes j b hj h0 x hx hx']

theorem attr (h : Frame g S ino k m m') {j : Nat} (hj : j < g.ninodes) {d : Nat} (hd : 4 ≤ d)
    (hd' : d ≤ 12) : m'.get32 (inodeAddr j + d) = m.get32 (inodeAddr j + d) := by
  by_cases hji : j = ino
  · subst hji
    exact Mem.get32_congr fun x hx hx' => h.attrs x (by omega) (by omega)
  · exact Mem.get32_congr fun x hx hx' => h.inodes j hj hji x (by omega) (by omega)

theorem oiFtype (h : Frame g S ino k m m') {j : Nat} (hj : j < g.ninodes) :
    oiFtype m' (inodeAddr j) = oiFtype m (inodeAddr j) := h.attr hj (by omega) (by omega)

theorem oiNlink (h : Frame g S ino k m m') {j : Nat} (hj : j < g.ninodes) :
    oiNlink m' (inodeAddr j) = oiNlink m (inodeAddr j) := h.attr hj (by omega) (by omega)

theorem oiSize (h : Frame g S ino k m m') {j : Nat} (hj : j < g.ninodes) (hji : j ≠ ino) :
    oiSize m' (inodeAddr j) = oiSize m (inodeAddr j) :=
  Mem.get32_congr fun x hx hx' => h.inodes j hj hji x (by omega) (by omega)

theorem fileBlocks (h : Frame g S ino k m m') {j : Nat} (hj : j < g.ninodes) (hji : j ≠ ino) :
    fileBlocks m' j = fileBlocks m j := by
  unfold Ospfs.fileBlocks
  rw [h.oiSize hj hji]

theorem fileByte (h : Frame g S ino k m m') {j x : Nat} (hs : S j) (hj : j = ino → x / 1024 < k)
    (h0 : ptr m (inodeAddr j) (.leaf (x / 1024)) ≠ 0) : fileByte m' j x = fileByte m j x := by
  have hl := h.leaf hj
  have hb := h.bytes j (x / 1024) hj
  rw [own_of_mem hs, own_of_mem hs] at hl
  rw [own_of_mem hs] at hb
  unfold Ospfs.fileByte
  rw [hl]
  exact hb h0 _ (by omega) (by omega)

end Frame

section Laid

variable {g : Geometry} {S : Nat → Prop} {ok : Nat → Prop} {m m' : Mem} {ino : Nat} {p : Place}

theorem Laid.slot_range (h : Laid g S ok m) (hs : S ino) (hp : Present m (inodeAddr ino) p) :
    inodeAddr ino + 16 ≤ slot m (inodeAddr ino) p ∧
      (slot m (inodeAddr ino) p + 4 ≤ inodeAddr ino + 64 ∨
        1024 * g.firstdata ≤ slot m (inodeAddr ino) p) := by
  have hb := inodeAddr_lt (h.bound _ hs)
  rcases h.slot_cases hs hp with ⟨h1, h2⟩ | ⟨q, -, hq0, h1, -⟩
  · exact ⟨h1, .inl h2⟩
  · have := (h.isData hq0).1
    omega

theorem Laid.slot_not_in (h : Laid g S ok m) (hs : S ino) (hp : Present m (inodeAddr ino) p)
    {b : Nat} (hb : g.firstdata ≤ b) (hno : ∀ i : Nat × Place, i.2.IsTable → own m S i ≠ b) :
    slot m (inodeAddr ino) p + 4 ≤ 1024 * b ∨ 1024 * b + 1024 ≤ slot m (inodeAddr ino) p := by
  rcases h.slot_cases hs hp with ⟨h1, h2⟩ | ⟨q, hq, hq0, h1, h2⟩
  · have := inodeAddr_lt (h.bound _ hs)
    omega
  · have := hno (ino, q) hq
    omega

theorem Laid.leaf_not_table (h : Laid g S ok m) {j b : Nat} (h0 : own m S (j, .leaf b) ≠ 0)
    {i : Nat × Place} (hi : i.2.IsTable) : own m S i ≠ own m S (j, .leaf b) := by
  intro heq
  have hij := h.owns.inj _ _ (heq ▸ h0) heq
  rw [hij] at hi
  exact hi

theorem Laid.frame_slot (h : Laid g S ok m) (hs : S ino) (hp : Present m (inodeAddr ino) p)
    {v k : Nat}
    (hown : ∀ i, own (m.set32 (slot m (inodeAddr ino) p) v) S i ≠ own m S i →
      i.1 = ino ∧ ∀ b, i.2 = .leaf b → k ≤ b) :
    Frame g S ino k m (m.set32 (slot m (inodeAddr ino) p) v) := by
  have hfd := g.firstdata_ge
  have hb := inodeAddr_lt (h.bound _ hs)
  obtain ⟨h1, h2⟩ := h.slot_range hs hp
  constructor
  · intro x hx
    have := inodeAddr_ge ino
    exact Mem.set32_of_ne (by omega)
  · intro x hx hx'
    exact Mem.set32_of_ne (by omega)
  · intro j hj hji x hx hx'
    have := inodeAddr_lt hj
    refine Mem.set32_of_ne ?_
    unfold inodeAddr at *
    omega
  · intro j q hj
    by_contra hne
    exact hj (hown _ hne).1
  · intro b hbk
    by_contra hne
    have := (hown _ hne).2 b rfl
    omega
  · intro j b _ h0 x hx hx'
    have := h.slot_not_in hs hp (h.isData h0).1 fun i => h.leaf_not_table h0
    exact Mem.set32_of_ne (by omega)

/-- Writes to the bitmap, to the size word of `ino` and to blocks that no file uses. -/
theorem Laid.frame_data (h : Laid g S ok m) {k : Nat} (hin : ino < g.ninodes)
    (hown : own m' S = own m S)
    (hw : ∀ x, m' x ≠ m x → (2048 ≤ x ∧ x < 3072) ∨ (inodeAddr ino ≤ x ∧ x < inodeAddr ino + 4) ∨
      ∃ b, g.firstdata ≤ b ∧ 1024 * b ≤ x ∧ x < 1024 * b + 1024 ∧ ∀ i, own m S i ≠ b) :
    Frame g S ino k m m' := by
  have hfd := g.firstdata_ge
  have hb := inodeAddr_lt hin
  constructor
  · intro x hx
    by_contra hne
    rcases hw x hne with h1 | h1 | ⟨b, h1, h2, -⟩
    · omega
    · unfold inodeAddr at h1; omega
    · omega
  · intro x hx hx'
    by_contra hne
    rcases hw x hne with h1 | h1 | ⟨b, h1, h2, -⟩
    · unfold inodeAddr at hx; omega
    · omega
    · omega
  · intro j hj hji x hx hx'
    by_contra hne
    have := inodeAddr_lt hj
    rcases hw x hne with h1 | h1 | ⟨b, h1, h2, -⟩
    · unfold inodeAddr at hx; omega
    · unfold inodeAddr at *; omega
    · omega
  · intro j p _
    rw [hown]
  · intro b _
    rw [hown]
  · intro j b _ h0 x hx hx'
    by_contra hne
    have hd := (h.isData h0).1
    rcases hw x hne with h1 | h1 | ⟨c, h1, h2, h3, h4⟩
    · omega
    · omega
    · have := h4 (j, .leaf b)
      omega

end Laid

/-! ## Reading through the block map -/

def BootZero (m : Mem) : Prop := ∀ x, x < 1024 → m x = 0

theorem BootZero.get32 {m : Mem} (h : BootZero m) {a : Nat} (ha : a + 4 ≤ 1024) :
    m.get32 a = 0 :=
  Mem.get32_of_zero fun i hi => h _ (by omega)

/-- A pointer can be read at its slot also when its block is missing: block 0 is empty. -/
theorem BootZero.get_slot {m : Mem} (h : BootZero m) {oi : Nat} {p : Place} (hv : p.Valid) :
    m.get32 (slot m oi p) = ptr m oi p := by
  by_cases hp : Present m oi p
  · exact (ptr_of_present hp).symm
  · rw [ptr_of_not_present hp]
    have hex : ∃ q, p.parent = some q ∧ ptr m oi q = 0 := by
      by_contra hno
      exact hp ⟨hv, fun q hq h0 => hno ⟨q, hq, h0⟩⟩
    obtain ⟨q, hq, h0⟩ := hex
    have hidx := Place.idx_lt_of_some hv hq
    rw [slot_of_some hq, h0]
    exact h.get32 (by unfold ospfsBlock; omega)

theorem ospfsInodeBlockno_slot {m : Mem} {oi offset : Nat} (hlt : offset < oiSize m oi)
    (hty : oiFtype m oi ≠ ftypeSymlink)
    (htab : 266 ≤ offset / 1024 → m.get32 (slot m oi (.indir2 ((offset / 1024 - 266) / 256))) =
      ptr m oi (.indir2 ((offset / 1024 - 266) / 256))) :
    ospfsInodeBlockno m oi offset = m.get32 (slot m oi (.leaf (offset / 1024))) := by
  unfold ospfsInodeBlockno
  rw [if_neg (by rintro (h | h); omega; exact hty h)]
  obtain ⟨hb, hp, hi⟩ | ⟨hb, hb', hp, hi⟩ | ⟨hb, hp, hi⟩ := Place.leaf_cases (offset / 1024)
  · rw [slot_of_none hp, hi]
    simp only [show ¬ offset / 1024 ≥ 10 + 256 by omega, show ¬ offset / 1024 ≥ 10 by omega,
      if_false]
    rfl
  · rw [slot_of_some hp, hi]
    simp only [show ¬ offset / 1024 ≥ 10 + 256 by omega, hb, if_false, if_true]
    rfl
  · rw [slot_of_some hp, hi, ← htab hb, slot_of_some rfl]
    simp only [show offset / 1024 ≥ 10 + 256 by omega, if_true]
    rfl

/-- `ospfs_inode_blockno` follows the block map. -/
theorem BootZero.ospfsInodeBlockno {m : Mem} (h : BootZero m) {oi offset : Nat}
    (hlt : offset < oiSize m oi) (hty : oiFtype m oi ≠ ftypeSymlink)
    (hmax : offset / 1024 < maxfileblks) :
    ospfsInodeBlockno m oi offset = ptr m oi (.leaf (offset / 1024)) := by
  rw [ospfsInodeBlockno_slot hlt hty fun hb => h.get_slot (p := .indir2 _) ?_]
  · exact h.get_slot hmax
  · unfold maxfileblks at hmax
    show (offset / 1024 - 266) / 256 < 256
    omega

end OsLabs.Ospfs
