import OsLabs.Ospfs.Format
import OsLabs.Ospfs.Entries

/-!
# OSPFS: block allocation in the formatter

Until `finishfs` the bitmap and the superblock are not on the disk. `Shadow g
nextb m mf`: `mf` is the disk `m` with both as they would be finished now. The
formatter's block operations are moves on `mf`.
-/

namespace OsLabs.Ospfs

open BlockProg

structure Shadow (g : Geometry) (nextb : Nat) (m mf : Mem) : Prop where
  same : ∀ x, x < 1024 ∨ 3072 ≤ x → mf x = m x
  bits : ∀ b, b < 8192 → isFree mf b = decide (nextb ≤ b ∧ b < g.nblocks)
  ones : ∀ x, 2048 ≤ x → x < 3072 → m x = 0xFF
  le : nextb ≤ g.nblocks
  nextb : g.firstdata ≤ nextb

variable {g : Geometry} {S : Nat → Prop} {nextb : Nat} {m m' mf mf' : Mem} {ino n k : Nat}

theorem Shadow.get32 (h : Shadow g nextb m mf) {a : Nat} (ha : 3072 ≤ a) :
    m.get32 a = mf.get32 a :=
  (Mem.get32_congr fun x _ _ => h.same x (by omega)).symm

/-- Both disks are written behind the bitmap. -/
theorem Shadow.write (h : Shadow g nextb m mf)
    (hw : ∀ x, (m' x = m x ∧ mf' x = mf x) ∨ (3072 ≤ x ∧ mf' x = m' x)) :
    Shadow g nextb m' mf' := by
  refine ⟨fun x hx => ?_, fun b hb => ?_, fun x hx hx' => ?_, h.le, h.nextb⟩
  · rcases hw x with ⟨h1, h2⟩ | ⟨-, h1⟩
    · rw [h1, h2, h.same x hx]
    · exact h1
  · rw [isFree_congr (fun x _ hx => ?_) hb, h.bits b hb]
    rcases hw x with ⟨-, h2⟩ | ⟨hge, -⟩
    · exact h2
    · omega
  · rcases hw x with ⟨h1, -⟩ | ⟨hge, -⟩
    · rw [h1]
      exact h.ones x hx hx'
    · omega

theorem Shadow.set32 (h : Shadow g nextb m mf) {a : Nat} (ha : 3072 ≤ a) (v : Nat) :
    Shadow g nextb (m.set32 a v) (mf.set32 a v) := by
  refine h.write fun x => ?_
  unfold Mem.set32
  split
  · exact .inr ⟨by omega, rfl⟩
  · exact .inl ⟨rfl, rfl⟩

theorem Shadow.store (h : Shadow g nextb m mf) {a : Nat} (ha : 3072 ≤ a) (bytes : Bytes) :
    Shadow g nextb (m.store a bytes) (mf.store a bytes) := by
  refine h.write fun x => ?_
  unfold Mem.store
  split
  · exact .inr ⟨by omega, rfl⟩
  · exact .inl ⟨rfl, rfl⟩

theorem Shadow.free (h : Shadow g nextb m mf) (hlt : nextb < g.nblocks) :
    g.IsData nextb ∧ isFree mf nextb = true := by
  have := g.small
  refine ⟨⟨h.nextb, hlt⟩, ?_⟩
  rw [h.bits nextb (by omega)]
  simpa using hlt

/-- `getblk(nextb++, 1, ..)` takes the first free block. -/
theorem Shadow.take (h : Shadow g nextb m mf) (hlt : nextb < g.nblocks) :
    Shadow g (nextb + 1) (m.fill (1024 * nextb) 1024 0) (takeBlock mf nextb) := by
  have hfd := g.firstdata_ge
  have hsm := g.small
  have hge := h.nextb
  refine ⟨fun x hx => ?_, fun b hb => ?_, fun x hx hx' => ?_, hlt, by omega⟩
  · by_cases hin : 1024 * nextb ≤ x ∧ x < 1024 * nextb + 1024
    · rw [take_zero (by omega) hin.1 hin.2, Mem.fill_of_mem hin.1 hin.2]
    · rw [take_of_ne (by omega) (by omega) (by omega), Mem.fill_of_ne (by omega), h.same x hx]
  · rw [isFree_take (by omega) (by omega) hb, h.bits b hb, ← Bool.decide_and]
    apply decide_eq_decide.2
    omega
  · rw [Mem.fill_of_ne (by omega)]
    exact h.ones x hx hx'

/-- What block allocation for inode `ino` does: it takes blocks from `nextb` on, all of
them get a place, and no place loses its block. -/
structure Grew (g : Geometry) (S : Nat → Prop) (ino k : Nat) (st : Globals) (mf : Mem)
    (st' : Globals) (m' mf' : Mem) : Prop where
  shadow : Shadow g st'.nextb m' mf'
  move : Move g S ino k mf mf'
  globals : st' = { st with nextb := st'.nextb }
  first : g.firstdata ≤ st.nextb
  le : st.nextb ≤ st'.nextb
  kept : ∀ i, own mf S i ≠ 0 → own mf' S i = own mf S i
  onto : ∀ b, st.nextb ≤ b → b < st'.nextb → ∃ i, own mf' S i = b

theorem Grew.trans {st st' st'' : Globals} {m'' mf'' : Mem} (h : Grew g S ino k st mf st' m' mf')
    (h' : Grew g S ino k st' mf' st'' m'' mf'') : Grew g S ino k st mf st'' m'' mf'' := by
  refine ⟨h'.shadow, h.move.trans h'.move, ?_, h.first, Nat.le_trans h.le h'.le, fun i hi => ?_,
    fun b h1 h2 => ?_⟩
  · have h1 := h.globals
    have h2 := h'.globals
    rw [h1] at h2
    exact h2
  · rw [h'.kept i (by rwa [h.kept i hi]), h.kept i hi]
  · rcases Nat.lt_or_ge b st'.nextb with hlt | hge
    · obtain ⟨i, hi⟩ := h.onto b h1 hlt
      have hb : own mf' S i ≠ 0 := by
        have := h.first
        have := g.firstdata_ge
        omega
      exact ⟨i, by rw [h'.kept i hb, hi]⟩
    · exact h'.onto b hge h2

theorem wlp_tableAt {st : Globals} {p : Place} {a : Nat} (hsh : Shadow g st.nextb m mf)
    (ht : Tidy g S mf) (hs : S ino) (hp : Present mf (inodeAddr ino) p) (htab : p.IsTable)
    (ha : a = slot mf (inodeAddr ino) p) :
    (tableAt a).wlp g.nblocks (fun t st' m' => ∃ mf', Grew g S ino k st mf st' m' mf' ∧ t ≠ 0 ∧
      (∀ i, own mf' S i = if i = (ino, p) then t else own mf S i) ∧
      ∀ d c, Spare g S mf d c → Spare g S mf' d c) st m := by
  have ha3 : 3072 ≤ a := by
    have := (ht.laid.slot_range hs hp).1
    have := inodeAddr_ge ino
    omega
  have hget : m.get32 a = own mf S (ino, p) := by
    rw [hsh.get32 ha3, ha, own_of_mem hs, ptr_of_present hp]
  unfold tableAt
  simp only [wlp_bind, wlp_loadWord, hget]
  by_cases h0 : own mf S (ino, p) = 0
  · rw [if_pos h0]
    unfold nextBlock
    simp only [wlp_bind, wlp_getGlobals, wlp_setGlobals, wlp_getBlock, wlp_pure, wlp_storeWord,
      if_true]
    intro hlt
    obtain ⟨hd, hf⟩ := hsh.free hlt
    have hsh' := hsh.take hlt
    obtain ⟨ht', hsp, hown, hfr, -⟩ := ht.take (k := k) (ht.laid.bound _ hs) hd hf
    have hsize : oiSize (takeBlock mf st.nextb) (inodeAddr ino) = oiSize mf (inodeAddr ino) :=
      Mem.get32_congr fun x hx hx' => take_inode hd (ht.laid.bound _ hs) hx (by omega)
    have hptr (q : Place) : ptr (takeBlock mf st.nextb) (inodeAddr ino) q =
        ptr mf (inodeAddr ino) q := ptr_of_own hown hs q
    obtain ⟨hpres, hslot⟩ := place_congr fun q (_ : p.parent = some q) => hptr q
    have hp0 : ptr (takeBlock mf st.nextb) (inodeAddr ino) p = 0 := by
      rw [hptr, ← own_of_mem hs, h0]
    obtain ⟨hmv, hownl, -, hspl⟩ :=
      ht'.link (k := k) (c := zeros) hs (hpres.2 hp) htab hp0 hsp
    rw [hslot, ← ha] at hmv hownl hspl
    refine ⟨_, ⟨hsh'.set32 ha3 _, (Move.mk ht' hfr hsize).trans hmv, rfl, hsh.nextb,
      Nat.le_succ _, fun i hi => ?_, fun b h1 h2 => ?_⟩, hsp.ne_zero, fun i => ?_,
      fun d c hdc => ?_⟩
    · rw [hownl, if_neg, hown]
      rintro rfl
      exact hi h0
    · have hb : b = st.nextb := by
        simp only at h2
        omega
      exact ⟨(ino, p), by rw [hownl, if_pos rfl, hb]⟩
    · rw [hownl, hown]
    · have hne : d ≠ st.nextb := by
        rintro rfl
        have := hdc.allocated.2
        rw [hf] at this
        cases this
      have := ht'.link (k := k) (c := c) hs (hpres.2 hp) htab hp0 hsp
      rw [hslot, ← ha] at this
      exact this.2.2.2 d hne (hdc.take ht hd hf)
  · rw [if_neg h0]
    simp only [wlp_bind, wlp_getBlock, wlp_pure, Bool.false_eq_true, if_false]
    intro _
    refine ⟨mf, ⟨hsh, ht.move_refl, rfl, hsh.nextb, Nat.le_refl _, fun _ _ => rfl,
      fun b h1 h2 => absurd h2 (by omega)⟩, h0, fun i => ?_, fun _ _ h => h⟩
    split
    · next heq => rw [heq]
    · rfl

theorem Grew.enter {st st' : Globals} {b : Nat} {c : Nat → UInt8}
    (h : Grew g S ino n st mf st' m' mf') (hs : S ino)
    (hp : Present mf' (inodeAddr ino) (.leaf n)) (hb : Spare g S mf' b c)
    (h0 : own mf' S (ino, .leaf n) = 0) {a : Nat} (ha : a = slot mf' (inodeAddr ino) (.leaf n)) :
    Grew g S ino n st mf st' (m'.set32 a b) (mf'.set32 a b) ∧
      (∀ i, own (mf'.set32 a b) S i = if i = (ino, .leaf n) then b else own mf' S i) ∧
      ∀ x, x < 1024 → mf'.set32 a b (1024 * b + x) = c x := by
  subst ha
  obtain ⟨hmv, hown, hbytes⟩ := h.move.tidy.enter hs hp hb
  have ha3 : 3072 ≤ slot mf' (inodeAddr ino) (.leaf n) := by
    have := (h.move.tidy.laid.slot_range hs hp).1
    have := inodeAddr_ge ino
    omega
  refine ⟨h.trans ⟨h.shadow.set32 ha3 b, hmv, rfl, Nat.le_trans h.first h.le, Nat.le_refl _,
    fun i hi => ?_, fun d h1 h2 => absurd h2 (by omega)⟩, hown, hbytes⟩
  rw [hown, if_neg]
  rintro rfl
  exact hi h0

theorem Tidy.under_table (h : Tidy g S m) (hs : S ino) {p q : Place} {t : Nat} (hv : p.Valid)
    (hpar : p.parent = some q) (hq : ptr m (inodeAddr ino) q = t) (ht : t ≠ 0) :
    Present m (inodeAddr ino) p ∧ 1024 * t + 4 * p.idx = slot m (inodeAddr ino) p := by
  constructor
  · refine ⟨hv, fun r hr => ?_⟩
    rw [hpar] at hr
    cases hr
    rwa [hq]
  · have hd := h.laid.block_own (i := (ino, q)) (by rw [own_of_mem hs, hq]; exact ht)
    rw [own_of_mem hs, hq] at hd
    rw [slot_of_some hpar, hq, hd]

theorem update_ne_zero {f f' : Nat × Place → Nat} {i₀ : Nat × Place} {b : Nat}
    (h : ∀ i, f' i = if i = i₀ then b else f i) (hb : b ≠ 0) (i : Nat × Place) :
    f' i ≠ 0 ↔ f i ≠ 0 ∨ i = i₀ := by
  rw [h]
  split
  · next hi => simp [hi, hb]
  · next hi => simp [hi]

/-- `storeblk` enters a block in hand as file block `n`, with the tables on the way to it. -/
theorem wlp_storeblk {st : Globals} {b : Nat} {c : Nat → UInt8} (hsh : Shadow g st.nextb m mf)
    (ht : Tidy g S mf) (hs : S ino) (hb : Spare g S mf b c)
    (h0 : own mf S (ino, .leaf n) = 0) :
    (storeblk (inodeAddr ino) b n).wlp g.nblocks (fun _ st' m' => ∃ mf',
      Grew g S ino n st mf st' m' mf' ∧ own mf' S (ino, .leaf n) = b ∧
      (∀ i, own mf' S i ≠ 0 ↔ own mf S i ≠ 0 ∨ (i.1 = ino ∧ i.2.Under (.leaf n))) ∧
      ∀ x, x < 1024 → mf' (1024 * b + x) = c x) st m := by
  have hgrew : Grew g S ino n st mf st m mf := ⟨hsh, ht.move_refl, rfl, hsh.nextb, Nat.le_refl _,
    fun _ _ => rfl, fun b h1 h2 => absurd h2 (by omega)⟩
  have hne := hb.ne_zero
  unfold storeblk
  obtain ⟨hlt, hpar, hidx⟩ | ⟨hge, hlt, hpar, hidx⟩ | ⟨hge, hpar, hidx⟩ := Place.leaf_cases n
  · rw [if_pos hlt, wlp_storeWord]
    have hp : Present mf (inodeAddr ino) (.leaf n) :=
      present_of_root (leaf_valid (by unfold maxfileblks; omega)) hpar
    obtain ⟨hg, hown, hbytes⟩ := hgrew.enter hs hp hb h0 (a := inodeAddr ino + 16 + 4 * n)
      (by rw [slot_of_none hpar, hidx])
    refine ⟨_, hg, by rw [hown, if_pos rfl], fun ⟨j, p⟩ => ?_, hbytes⟩
    rw [update_ne_zero hown hne, Place.under_of_none hpar, Prod.mk.injEq]
  · rw [if_neg (by omega), if_pos hlt]
    simp only [wlp_bind, wlp_storeWord, wlp_putBlock]
    have hpi : Present mf (inodeAddr ino) .indirect := present_of_root trivial rfl
    refine wlp_mono (wlp_tableAt (k := n) hsh ht hs hpi trivial rfl) ?_
    rintro t st₁ m₁ ⟨mf₁, hg₁, ht0, hown₁, hsp₁⟩
    have hptr : ptr mf₁ (inodeAddr ino) .indirect = t := by
      rw [← own_of_mem hs, hown₁, if_pos rfl]
    have hv : (Place.leaf n).Valid := leaf_valid (by unfold maxfileblks; omega)
    obtain ⟨hp, hslot⟩ := hg₁.move.tidy.under_table hs hv hpar hptr ht0
    rw [hidx] at hslot
    obtain ⟨hg, hown, hbytes⟩ := hg₁.enter hs hp (hsp₁ b c hb)
      (by rw [hown₁, if_neg (by simp), h0]) hslot
    refine ⟨_, hg, by rw [hown, if_pos rfl], fun ⟨j, p⟩ => ?_, hbytes⟩
    rw [update_ne_zero hown hne, update_ne_zero hown₁ ht0, Place.under_of_some hpar,
      Place.under_of_none rfl, Prod.mk.injEq, Prod.mk.injEq]
    tauto
  · rw [if_neg (by omega), if_neg (by omega)]
    split
    case isFalse => exact wlp_abort
    rename_i hmax
    simp only [wlp_bind, wlp_storeWord, wlp_putBlock]
    have hpi : Present mf (inodeAddr ino) .indirect2 := present_of_root trivial rfl
    refine wlp_mono (wlp_tableAt (k := n) hsh ht hs hpi trivial rfl) ?_
    rintro t st₁ m₁ ⟨mf₁, hg₁, ht0, hown₁, hsp₁⟩
    have hptr : ptr mf₁ (inodeAddr ino) .indirect2 = t := by
      rw [← own_of_mem hs, hown₁, if_pos rfl]
    have hk : (Place.indir2 ((n - 266) / 256)).Valid := by
      unfold maxfileblks at hmax
      show (n - 266) / 256 < 256
      omega
    obtain ⟨hp₁, hslot₁⟩ := hg₁.move.tidy.under_table hs hk rfl hptr ht0
    refine wlp_mono (wlp_tableAt (k := n) hg₁.shadow hg₁.move.tidy hs hp₁ trivial hslot₁) ?_
    rintro u st₂ m₂ ⟨mf₂, hg₂, hu0, hown₂, hsp₂⟩
    have hptr₂ : ptr mf₂ (inodeAddr ino) (.indir2 ((n - 266) / 256)) = u := by
      rw [← own_of_mem hs, hown₂, if_pos rfl]
    obtain ⟨hp, hslot⟩ := hg₂.move.tidy.under_table hs (show (Place.leaf n).Valid from hmax)
      hpar hptr₂ hu0
    rw [hidx] at hslot
    obtain ⟨hg, hown, hbytes⟩ := (hg₁.trans hg₂).enter hs hp (hsp₂ b c (hsp₁ b c hb))
      (by rw [hown₂, if_neg (by simp), hown₁, if_neg (by simp), h0]) hslot
    refine ⟨_, hg, by rw [hown, if_pos rfl], fun ⟨j, p⟩ => ?_, hbytes⟩
    rw [update_ne_zero hown hne, update_ne_zero hown₂ hu0, update_ne_zero hown₁ ht0,
      Place.under_of_some hpar, Place.under_of_some rfl, Place.under_of_none rfl, Prod.mk.injEq,
      Prod.mk.injEq, Prod.mk.injEq]
    grind

end OsLabs.Ospfs
