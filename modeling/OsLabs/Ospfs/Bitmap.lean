import OsLabs.Ospfs.Files
import Mathlib.Data.Finset.Card
import Mathlib.Data.Finset.Range

/-!
# OSPFS: the free-block bitmap and the file-system invariant

`Tidy g S m`: the superblock describes `g`, the boot block is empty, no block
below the data blocks is free, the inodes of `S` point to allocated data blocks
from one place each, and every block of a file of `S` is mapped. The lemmas
below are the moves that the block functions are made of: take a free block,
enter it, release one, drop a table.
-/

namespace OsLabs.Ospfs

def isFree (m : Mem) (b : Nat) : Bool := bitvectorTest m 2048 b

theorem isFree_eq (m : Mem) (b : Nat) :
    isFree m b = (m.get32 (2048 + 4 * (b / 32))).testBit (b % 32) :=
  testBit_and_shift _ _

theorem isFree_congr {m m' : Mem} (h : ∀ x, 2048 ≤ x → x < 3072 → m' x = m x) {b : Nat}
    (hb : b < 8192) : isFree m' b = isFree m b := by
  rw [isFree_eq, isFree_eq, Mem.get32_congr fun x _ _ => h x (by omega) (by omega)]

theorem clear_of_ne {m : Mem} {i x : Nat} (hi : i < 8192) (hx : x < 2048 ∨ 3072 ≤ x) :
    bitvectorClear m 2048 i x = m x := by
  unfold bitvectorClear
  exact Mem.set32_of_ne (by omega)

theorem set_of_ne {m : Mem} {i x : Nat} (hi : i < 8192) (hx : x < 2048 ∨ 3072 ≤ x) :
    bitvectorSet m 2048 i x = m x := by
  unfold bitvectorSet
  exact Mem.set32_of_ne (by omega)

theorem isFree_clear (m : Mem) (i b : Nat) :
    isFree (bitvectorClear m 2048 i) b = (isFree m b && decide (i ≠ b)) := by
  rw [isFree_eq, isFree_eq]
  unfold bitvectorClear
  by_cases hw : i / 32 = b / 32
  · have hlt : m.get32 (2048 + 4 * (b / 32)) &&& (2 ^ 32 - 1 - 1 <<< (i % 32)) < 2 ^ 32 :=
      Nat.lt_of_le_of_lt Nat.and_le_left Mem.get32_lt
    rw [hw, Mem.get32_set32_of_lt hlt, testBit_clearBit Mem.get32_lt (by omega)]
    congr 1
    apply decide_eq_decide.2
    omega
  · rw [Mem.get32_set32_ne (by omega)]
    have hne : i ≠ b := by rintro rfl; exact hw rfl
    simp [hne]

theorem isFree_set (m : Mem) (i b : Nat) :
    isFree (bitvectorSet m 2048 i) b = (isFree m b || decide (i = b)) := by
  rw [isFree_eq, isFree_eq]
  unfold bitvectorSet
  by_cases hw : i / 32 = b / 32
  · have hlt : m.get32 (2048 + 4 * (b / 32)) ||| 1 <<< (i % 32) < 2 ^ 32 := by
      rw [Nat.one_shiftLeft]
      exact Nat.or_lt_two_pow Mem.get32_lt (Nat.pow_lt_pow_right (by decide) (by omega))
    rw [hw, Mem.get32_set32_of_lt hlt, testBit_setBit]
    congr 1
    apply decide_eq_decide.2
    omega
  · rw [Mem.get32_set32_ne (by omega)]
    have hne : i ≠ b := by rintro rfl; exact hw rfl
    simp [hne]

/-! ## The invariant -/

structure Super (g : Geometry) (m : Mem) : Prop where
  nblocks : osNblocks m = g.nblocks
  ninodes : osNinodes m = g.ninodes
  firstinob : osFirstinob m = 3

def Allocated (g : Geometry) (m : Mem) (b : Nat) : Prop := g.IsData b ∧ isFree m b = false

structure Tidy (g : Geometry) (S : Nat → Prop) (m : Mem) : Prop where
  super : Super g m
  boot : BootZero m
  low : ∀ b < g.firstdata, isFree m b = false
  laid : Laid g S (Allocated g m) m
  mapped : ∀ ino, S ino → ∀ b < fileBlocks m ino, ptr m (inodeAddr ino) (.leaf b) ≠ 0

theorem Super.congr {g : Geometry} {m m' : Mem} (h : Super g m)
    (hx : ∀ x, 1024 ≤ x → x < 2048 → m' x = m x) : Super g m' := by
  obtain ⟨h1, h2, h3⟩ := h
  constructor
  · rw [← h1]
    exact Mem.get32_congr fun x _ _ => hx x (by omega) (by omega)
  · rw [← h2]
    exact Mem.get32_congr fun x _ _ => hx x (by omega) (by omega)
  · rw [← h3]
    exact Mem.get32_congr fun x _ _ => hx x (by omega) (by omega)

section Tidy

variable {g : Geometry} {S : Nat → Prop} {m m' : Mem}

theorem Tidy.nblocks_lt (_ : Tidy g S m) {b : Nat} (hb : g.IsData b) : b < 8192 :=
  Nat.lt_of_lt_of_le hb.2 g.small

theorem Tidy.fileBlocks_le (h : Tidy g S m) {ino : Nat} (hs : S ino) :
    fileBlocks m ino ≤ g.nblocks := by
  refine h.laid.owns.le_card (f := fun b => (ino, .leaf b)) (fun i j hij => ?_)
    (fun b hb => ?_) (fun b hb => hb.1.2)
  · simpa using hij
  · rw [own_of_mem hs]
    exact h.mapped ino hs b hb

theorem Tidy.of_frame (h : Tidy g S m) {ino k : Nat} (hf : Frame g S ino k m m')
    (hlow : ∀ b < g.firstdata, isFree m' b = false) (howns : Owns (own m' S) (Allocated g m'))
    (hmap : ∀ b < fileBlocks m' ino, S ino → own m' S (ino, .leaf b) ≠ 0) : Tidy g S m' := by
  refine ⟨h.super.congr fun x _ hx => hf.super x hx, fun x hx => ?_, hlow,
    ⟨h.laid.bound, fun b hb => hb.1, howns⟩, fun j hs b hb => ?_⟩
  · rw [hf.super x (by omega)]
    exact h.boot x hx
  · rw [← own_of_mem hs]
    by_cases hj : j = ino
    · subst hj
      exact hmap b hb hs
    · rw [hf.fileBlocks (h.laid.bound _ hs) hj] at hb
      rw [hf.others j _ hj, own_of_mem hs]
      exact h.mapped j hs b hb

/-- Writes behind the bitmap that leave the pointers of `S'` alone; other inodes may drop out. -/
theorem Tidy.congr (h : Tidy g S m) {S' : Nat → Prop} (hS : ∀ j, S' j → S j)
    (hlow : ∀ x, x < 3072 → m' x = m x)
    (hptr : ∀ j, S' j → ∀ p, ptr m' (inodeAddr j) p = ptr m (inodeAddr j) p)
    (hcount : ∀ j, S' j → fileBlocks m' j ≤ fileBlocks m j) : Tidy g S' m' := by
  have hfd := g.firstdata_le
  have hsm := g.small
  have hfree (b : Nat) (hb : b < 8192) : isFree m' b = isFree m b :=
    isFree_congr (fun x _ => hlow x) hb
  have hown : ∀ i, own m' S' i = own m S i ∨ own m' S' i = 0 := by
    rintro ⟨j, p⟩
    by_cases hj : S' j
    · exact .inl (by rw [own_of_mem hj, own_of_mem (hS j hj), hptr j hj])
    · exact .inr (if_neg hj)
  refine ⟨h.super.congr fun x _ hx => hlow x (by omega), fun x hx => ?_, fun b hb => ?_,
    ⟨fun j hj => h.laid.bound j (hS j hj), fun b hb => hb.1,
      h.laid.owns.shrink hown fun i hi _ => ?_⟩, fun j hj b hb => ?_⟩
  · rw [hlow x (by omega)]
    exact h.boot x hx
  · rw [hfree b (by omega)]
    exact h.low b hb
  · have hok := h.laid.owns.ok i hi
    exact ⟨hok.1, by rw [hfree _ (Nat.lt_of_lt_of_le hok.1.2 hsm), hok.2]⟩
  · rw [hptr j hj]
    exact h.mapped j (hS j hj) b (Nat.lt_of_lt_of_le hb (hcount j hj))

theorem Tidy.mapped_own (h : Tidy g S m) {ino b : Nat} (hs : S ino) (hb : b < fileBlocks m ino) :
    own m S (ino, .leaf b) ≠ 0 := by
  rw [own_of_mem hs]
  exact h.mapped ino hs b hb

/-! ### Allocation -/

theorem allocateFrom_spec (m : Mem) (k i : Nat) :
    (allocateFrom m k i = (0, m) ∧ ∀ b, i ≤ b → b < i + k → isFree m b = false) ∨
    ∃ b, i ≤ b ∧ b < i + k ∧ isFree m b = true ∧ (∀ c, i ≤ c → c < b → isFree m c = false) ∧
      allocateFrom m k i = (b, bitvectorClear m 2048 b) := by
  induction k generalizing i with
  | zero => exact .inl ⟨rfl, fun b _ _ => by omega⟩
  | succ k ih =>
    have heq : allocateFrom m (k + 1) i =
        if isFree m i = true then (i, bitvectorClear m 2048 i) else allocateFrom m k (i + 1) := rfl
    rw [heq]
    by_cases hi : isFree m i = true
    · exact .inr ⟨i, by omega, by omega, hi, fun c _ _ => by omega, if_pos hi⟩
    · rw [if_neg hi]
      have hi' : isFree m i = false := by simpa using hi
      rcases ih (i + 1) with ⟨he, hno⟩ | ⟨b, h1, h2, hb, hleast, he⟩
      · refine .inl ⟨he, fun b h1 h2 => ?_⟩
        rcases Nat.eq_or_lt_of_le h1 with rfl | h1
        · exact hi'
        · exact hno b (by omega) (by omega)
      · refine .inr ⟨b, by omega, by omega, hb, fun c h1 h2 => ?_, he⟩
        rcases Nat.eq_or_lt_of_le h1 with rfl | h1
        · exact hi'
        · exact hleast c (by omega) h2

theorem Tidy.allocateBlock (h : Tidy g S m) :
    (allocateBlock m = (0, m) ∧ ∀ b, g.IsData b → isFree m b = false) ∨
    ∃ b, g.IsData b ∧ isFree m b = true ∧ allocateBlock m = (b, bitvectorClear m 2048 b) := by
  have hfd := g.firstdata_ge
  unfold Ospfs.allocateBlock
  rw [h.super.nblocks]
  rcases allocateFrom_spec m (g.nblocks - 2) 2 with ⟨he, hno⟩ | ⟨b, h1, h2, hb, -, he⟩
  · refine .inl ⟨he, fun b hb => hno b ?_ ?_⟩
    · have := hb.1; omega
    · have := hb.1; have := hb.2; omega
  · refine .inr ⟨b, ⟨?_, by omega⟩, hb, he⟩
    by_contra hlt
    rw [h.low b (by omega)] at hb
    cases hb

def takeBlock (m : Mem) (b : Nat) : Mem := clearBlock (bitvectorClear m 2048 b) b

theorem take_of_ne {b x : Nat} (hb : b < 8192) (hx : x < 2048 ∨ 3072 ≤ x)
    (hx' : x < 1024 * b ∨ 1024 * b + 1024 ≤ x) : takeBlock m b x = m x := by
  unfold takeBlock clearBlock
  rw [ospfsBlock_of_lt (by omega), Mem.fill_of_ne hx', clear_of_ne hb hx]

theorem take_zero {b x : Nat} (hb : b < 8192) (hx : 1024 * b ≤ x) (hx' : x < 1024 * b + 1024) :
    takeBlock m b x = 0 := by
  unfold takeBlock clearBlock
  rw [ospfsBlock_of_lt (by omega), Mem.fill_of_mem hx hx']

theorem isFree_take {b c : Nat} (hb : 3 ≤ b) (hb' : b < 8192) (hc : c < 8192) :
    isFree (takeBlock m b) c = (isFree m c && decide (b ≠ c)) := by
  rw [← isFree_clear]
  refine isFree_congr (fun x _ _ => ?_) hc
  unfold takeBlock clearBlock
  rw [ospfsBlock_of_lt (by omega), Mem.fill_of_ne (by omega)]

theorem Tidy.not_own_free (h : Tidy g S m) {b : Nat} (hb : g.IsData b) (hf : isFree m b = true)
    (i : Nat × Place) : own m S i ≠ b := by
  rintro rfl
  have h0 : own m S i ≠ 0 := by
    have := hb.1
    have := g.firstdata_ge
    omega
  rw [(h.laid.owns.ok i h0).2] at hf
  cases hf

def freeBlocks (m : Mem) : Nat := ((Finset.range (osNblocks m)).filter (isFree m ·)).card

theorem freeBlocks_take {b : Nat} (hb : 3 ≤ b) (hsmall : osNblocks m ≤ 8192)
    (hlt : b < osNblocks m) (hf : isFree m b = true) :
    freeBlocks (takeBlock m b) + 1 = freeBlocks m := by
  have hn : osNblocks (takeBlock m b) = osNblocks m :=
    Mem.get32_congr fun x _ _ => take_of_ne (by omega) (by omega) (by omega)
  have hset : (Finset.range (osNblocks m)).filter (isFree (takeBlock m b) ·) =
      ((Finset.range (osNblocks m)).filter (isFree m ·)).erase b := by
    ext c
    simp only [Finset.mem_filter, Finset.mem_range, Finset.mem_erase]
    constructor
    · rintro ⟨hc, hcf⟩
      rw [isFree_take hb (by omega) (by omega)] at hcf
      simp only [Bool.and_eq_true, decide_eq_true_eq] at hcf
      exact ⟨Ne.symm hcf.2, hc, hcf.1⟩
    · rintro ⟨hne, hc, hcf⟩
      rw [isFree_take hb (by omega) (by omega), hcf]
      simpa using ⟨hc, Ne.symm hne⟩
  unfold freeBlocks
  rw [hn, hset]
  exact Finset.card_erase_add_one (by simp [hlt, hf])

theorem freeBlocks_congr (hs : ∀ x, 1024 ≤ x → x < 3072 → m' x = m x) (h : osNblocks m ≤ 8192) :
    freeBlocks m' = freeBlocks m := by
  have hn : osNblocks m' = osNblocks m :=
    Mem.get32_congr fun x _ _ => hs x (by omega) (by omega)
  unfold freeBlocks
  rw [hn]
  congr 1
  refine Finset.filter_congr fun b hb => ?_
  rw [isFree_congr (fun x hx hx' => hs x (by omega) hx') (by
    have := Finset.mem_range.1 hb
    omega)]

theorem Tidy.freeBlocks_eq_zero (h : Tidy g S m) :
    freeBlocks m = 0 ↔ ∀ b, g.IsData b → isFree m b = false := by
  unfold freeBlocks
  rw [Finset.card_eq_zero, Finset.filter_eq_empty_iff, h.super.nblocks]
  constructor
  · intro hno b hb
    simpa using hno (Finset.mem_range.2 hb.2)
  · intro hno b hb
    rcases Nat.lt_or_ge b g.firstdata with hlt | hge
    · simp [h.low b hlt]
    · simp [hno b ⟨hge, Finset.mem_range.1 hb⟩]

/-- A block in hand: allocated, with the bytes `c`, and no inode points to it. -/
structure Spare (g : Geometry) (S : Nat → Prop) (m : Mem) (b : Nat) (c : Nat → UInt8) : Prop where
  allocated : Allocated g m b
  unowned : ∀ i, own m S i ≠ b
  bytes : ∀ x, x < 1024 → m (1024 * b + x) = c x

abbrev zeros : Nat → UInt8 := fun _ => 0

theorem Spare.ne_zero {b : Nat} {c : Nat → UInt8} (h : Spare g S m b c) : b ≠ 0 := by
  have := h.allocated.1.1
  have := g.firstdata_ge
  omega

theorem take_inode {b j x : Nat} (hb : g.IsData b) (hj : j < g.ninodes) (hx : inodeAddr j ≤ x)
    (hx' : x < inodeAddr j + 64) : takeBlock m b x = m x := by
  have := inodeAddr_lt hj
  have := inodeAddr_ge j
  have := hb.1
  have := hb.2
  have := g.small
  exact take_of_ne (by omega) (by omega) (by omega)

theorem Tidy.own_take (h : Tidy g S m) {b : Nat} (hb : g.IsData b) (hf : isFree m b = true) :
    own (takeBlock m b) S = own m S := by
  have hfd := g.firstdata_ge
  refine h.laid.own_congr
    (fun j hs x hx hx' => take_inode hb (h.laid.bound _ hs) (by omega) hx')
    fun i _ h0 x hx hx' => take_of_ne (h.nblocks_lt hb) ?_ ?_
  · have := (h.laid.isData h0).1
    omega
  · have := h.not_own_free hb hf i
    omega

theorem Tidy.take (h : Tidy g S m) {b ino k : Nat} (hin : ino < g.ninodes) (hb : g.IsData b)
    (hf : isFree m b = true) :
    Tidy g S (takeBlock m b) ∧ Spare g S (takeBlock m b) b zeros ∧ own (takeBlock m b) S = own m S ∧
      Frame g S ino k m (takeBlock m b) ∧ fileBlocks (takeBlock m b) ino = fileBlocks m ino := by
  have hfd := g.firstdata_ge
  have hb3 : 3 ≤ b := Nat.le_trans hfd hb.1
  have hb8 := h.nblocks_lt hb
  have hfree (c : Nat) (hc : c < 8192) := isFree_take (m := m) hb3 hb8 hc
  have hown := h.own_take hb hf
  have hframe : Frame g S ino k m (takeBlock m b) := by
    refine h.laid.frame_data hin hown fun x hx => ?_
    by_contra hno
    simp only [not_or, not_exists, not_and] at hno
    refine hx (take_of_ne hb8 (by omega) ?_)
    by_contra hin
    exact hno.2.2 b hb.1 (by omega) (by omega) (h.not_own_free hb hf)
  have hcount : fileBlocks (takeBlock m b) ino = fileBlocks m ino := by
    unfold fileBlocks oiSize
    rw [Mem.get32_congr fun x hx hx' => take_inode hb hin hx (by omega)]
  refine ⟨h.of_frame hframe ?_ ?_ ?_, ⟨⟨hb, ?_⟩, ?_, fun x hx =>
    take_zero hb8 (by omega) (by omega)⟩, hown, hframe, hcount⟩
  · intro c hc
    have := hb.1
    rw [hfree c (by omega), h.low c hc]
    rfl
  · rw [hown]
    refine h.laid.owns.mono fun c hc => ⟨hc.1, ?_⟩
    rw [hfree c (h.nblocks_lt hc.1), hc.2]
    rfl
  · intro c hc hs
    rw [hcount] at hc
    rw [hown]
    exact h.mapped_own hs hc
  · rw [hfree b hb8]
    simp
  · rw [hown]
    exact h.not_own_free hb hf

theorem Spare.take {b : Nat} {c : Nat → UInt8} (h : Spare g S m b c) (ht : Tidy g S m) {a : Nat}
    (ha : g.IsData a) (hf : isFree m a = true) : Spare g S (takeBlock m a) b c := by
  have hfd := g.firstdata_ge
  have ha1 := ha.1
  have hb1 := h.allocated.1.1
  have hne : a ≠ b := by
    rintro rfl
    rw [h.allocated.2] at hf
    cases hf
  have ha8 := ht.nblocks_lt ha
  refine ⟨⟨h.allocated.1, ?_⟩, ?_, fun x hx => ?_⟩
  · rw [isFree_take (by omega) ha8 (ht.nblocks_lt h.allocated.1), h.allocated.2]
    rfl
  · rw [ht.own_take ha hf]
    exact h.unowned
  · rw [take_of_ne ha8 (by omega) (by omega)]
    exact h.bytes x hx

end Tidy

end OsLabs.Ospfs
