import OsLabs.Ospfs.Image

/-!
# OSPFS: directory growth in the formatter

`allocdirentry` finds or makes a blank entry and writes the name into it; all
that counts as content stays as it is.
-/

namespace OsLabs.Ospfs

open BlockProg

variable {g : Geometry} {st st' : Globals} {m m' mf mf' : Mem} {d k n : Nat}

theorem wlp_forRange {nb n : Nat} {f : Nat → Fmt Unit} {I : Nat → Globals → Mem → Prop}
    (h0 : I 0 st m) (hstep : ∀ i, i < n → ∀ s m, I i s m →
      (f i).wlp nb (fun _ s' m' => I (i + 1) s' m') s m) :
    (forRange n f).wlp nb (fun _ s' m' => I n s' m') st m := by
  induction n with
  | zero => exact wlp_pure.2 h0
  | succ n ih =>
    rw [forRange, wlp_bind]
    exact wlp_mono (ih fun i hi => hstep i (by omega)) fun _ s' m' h => hstep n (by omega) s' m' h

theorem wlp_lastDirb {S : Nat → Prop} (hsh : Shadow g st.nextb m mf) (ht : Tidy g S mf) (hs : S d)
    (hn : n < fileBlocks mf d) :
    (lastDirb (inodeAddr d) n).wlp g.nblocks
      (fun r st' m' => r = ptr mf (inodeAddr d) (.leaf n) ∧ st' = st ∧ m' = m) st m := by
  have h0 := ht.mapped d hs n hn
  have hp : Present mf (inodeAddr d) (.leaf n) := by
    by_contra hno
    exact h0 (ptr_of_not_present hno)
  have hge := inodeAddr_ge d
  have hget (p : Place) (hpp : Present mf (inodeAddr d) p) :
      m.get32 (slot mf (inodeAddr d) p) = ptr mf (inodeAddr d) p := by
    have := (ht.laid.slot_range hs hpp).1
    rw [hsh.get32 (by omega), ptr_of_present hpp]
  have hblock (p : Place) (hpp : ptr mf (inodeAddr d) p ≠ 0) :
      ospfsBlock (ptr mf (inodeAddr d) p) = 1024 * ptr mf (inodeAddr d) p := by
    have := ht.laid.block_own (i := (d, p)) (by rwa [own_of_mem hs])
    rwa [own_of_mem hs] at this
  unfold lastDirb
  obtain ⟨hlt, hpar, hidx⟩ | ⟨hge', hlt, hpar, hidx⟩ | ⟨hge', hpar, hidx⟩ := Place.leaf_cases n
  · have hg := hget _ hp
    rw [slot_of_none hpar, hidx] at hg
    rw [if_neg (by omega), if_neg (by omega)]
    simp only [wlp_bind, wlp_loadWord, wlp_getBlock, wlp_pure, hg, Bool.false_eq_true, if_false,
      and_self, implies_true]
  · have hi0 := hp.2 _ hpar
    have hgi := hget .indirect (present_of_root trivial rfl)
    rw [slot_of_none rfl] at hgi
    have hg := hget _ hp
    rw [slot_of_some hpar, hidx, hblock _ hi0, ← hgi] at hg
    rw [if_neg (by omega), if_pos hge']
    simp only [wlp_bind, wlp_loadWord, wlp_getBlock, wlp_putBlock, wlp_pure, Bool.false_eq_true,
      if_false, and_true]
    intro _ _
    exact hg
  · have hi0 := hp.2 _ hpar
    have hpi : Present mf (inodeAddr d) (.indir2 ((n - 266) / 256)) := by
      by_contra hno
      exact hi0 (ptr_of_not_present hno)
    have h20 := hpi.2 _ rfl
    have hg2 := hget .indirect2 (present_of_root trivial rfl)
    rw [slot_of_none rfl] at hg2
    have hgi := hget _ hpi
    rw [slot_of_some rfl, hblock _ h20, ← hg2] at hgi
    have hg := hget _ hp
    rw [slot_of_some hpar, hidx, hblock _ hi0, ← hgi] at hg
    rw [if_pos (by omega), show n - 10 - 256 = n - 266 by omega]
    simp only [wlp_bind, wlp_loadWord, wlp_getBlock, wlp_putBlock, wlp_pure, Bool.false_eq_true,
      if_false, and_true]
    intro _ _ _
    exact hg

theorem wlp_blankFrom {nb dirb n i : Nat} :
    (blankFrom dirb n i).wlp nb (fun r st' m' => st' = st ∧ m' = m ∧ ∀ od, r = some od →
      ∃ j, i ≤ j ∧ j < i + n ∧ od = 1024 * dirb + 128 * j ∧ m.get32 od = 0 ∧
        ∀ j', i ≤ j' → j' < j → m.get32 (1024 * dirb + 128 * j') ≠ 0) st m := by
  induction n generalizing i with
  | zero => exact wlp_pure.2 ⟨rfl, rfl, nofun⟩
  | succ n ih =>
    rw [blankFrom]
    simp only [wlp_bind, wlp_loadWord]
    split
    · next h0 =>
      refine wlp_pure.2 ⟨rfl, rfl, fun od hod => ?_⟩
      cases hod
      exact ⟨i, by omega, by omega, rfl, h0, fun j' h1 h2 => by omega⟩
    · rename_i h0
      refine wlp_mono ih ?_
      rintro r _ _ ⟨rfl, rfl, hr⟩
      refine ⟨rfl, rfl, fun od hod => ?_⟩
      obtain ⟨j, h1, h2, h3, h4, h5⟩ := hr od hod
      refine ⟨j, by omega, by omega, h3, h4, fun j' h6 h7 => ?_⟩
      rcases Nat.eq_or_lt_of_le h6 with rfl | h6
      · exact h0
      · exact h5 j' h6 h7

/-- Entry `k` is the first blank one in the last block of directory `d`. -/
structure FirstBlank (mf : Mem) (d k : Nat) : Prop where
  lt : k < entries mf d
  blank : odIno mf (entryAddr mf d k) = 0
  last : entries mf d ≤ 8 * (k / 8) + 8
  first : ∀ j < k, j / 8 = k / 8 → dirent mf d j ≠ none

/-- A cleared block is the last one of directory `d`, when the size counts it. -/
theorem Image.blankBlock (h : Image g st m mf) (hlt : d < g.ninodes) (hd : IsDir mf d)
    (hnb : st.nextb < g.nblocks) {st₂ : Globals} {m₂ mf₂ : Mem}
    (hg₂ : Grew g (Files g mf) d (fileBlocks mf d) { st with nextb := st.nextb + 1 }
      (takeBlock mf st.nextb) st₂ m₂ mf₂)
    (hleaf₂ : own mf₂ (Files g mf) (d, .leaf (fileBlocks mf d)) = st.nextb)
    (hown₂ : ∀ i, own mf₂ (Files g mf) i ≠ 0 ↔ own (takeBlock mf st.nextb) (Files g mf) i ≠ 0 ∨
      (i.1 = d ∧ i.2.Under (.leaf (fileBlocks mf d))))
    (hzero₂ : ∀ x, x < 1024 → mf₂ (1024 * st.nextb + x) = 0) :
    ∃ mf' k, Image g st₂ (m₂.set32 (inodeAddr d) (oiSize mf (inodeAddr d) + 1024)) mf' ∧
      Kept g (fun _ => False) mf mf' ∧ st₂ = { st with nextb := st₂.nextb } ∧
      1024 * st.nextb = entryAddr mf' d k ∧ FirstBlank mf' d k := by
  have hok := h.tree.dirOk hlt hd
  have hs := hok.mem
  have hdn := h.isDir_lt hlt hd
  obtain ⟨hdata, hfree⟩ := h.shadow.free hnb
  obtain ⟨ht₁, hsp, hown₁, hfr₁, hcount₁⟩ := h.tidy.take (k := fileBlocks mf d) hlt hdata hfree
  have hmv₂ := hg₂.move
  have hsmall := h.tidy.fileBlocks_small hs
  have hblocks := hok.blocks
  have hwh := hok.whole
  have hv : oiSize mf (inodeAddr d) + 1024 < 2 ^ 32 := by omega
  have hcount : ospfsSize2nblocks (oiSize mf (inodeAddr d) + 1024) = fileBlocks mf d + 1 := by
    unfold ospfsSize2nblocks
    omega
  have hkept₂ (i : Nat × Place) (hi : own mf (Files g mf) i ≠ 0) :
      own mf₂ (Files g mf) i = own mf (Files g mf) i := by
    rw [hg₂.kept i (by rwa [hown₁]), hown₁]
  obtain ⟨ht₃, hfr₃, hown₃, hsize₃, hlow₃, hdata₃⟩ :=
    hmv₂.tidy.set_size (k := fileBlocks mf d) hs hv fun c hc => by
      rw [hcount] at hc
      rcases Nat.lt_succ_iff_lt_or_eq.1 hc with hlt' | rfl
      · have h0 := h.tidy.mapped_own hs hlt'
        rwa [hkept₂ _ h0]
      · rw [hleaf₂]
        exact hsp.ne_zero
  have hfr : Frame g (Files g mf) d (fileBlocks mf d) mf
      (mf₂.set32 (inodeAddr d) (oiSize mf (inodeAddr d) + 1024)) :=
    hfr₁.trans (hmv₂.frame.trans hfr₃)
  have hblocks₃ : fileBlocks (mf₂.set32 (inodeAddr d) (oiSize mf (inodeAddr d) + 1024)) d =
      fileBlocks mf d + 1 := by
    unfold fileBlocks
    rw [hsize₃]
    exact hcount
  have hptr₃ : ptr (mf₂.set32 (inodeAddr d) (oiSize mf (inodeAddr d) + 1024)) (inodeAddr d)
      (.leaf (fileBlocks mf d)) = st.nextb := by
    have := congrFun hown₃ (d, .leaf (fileBlocks mf d))
    rw [hleaf₂, own_of_mem hs] at this
    exact this
  have hzero : ∀ x, x < 1024 →
      mf₂.set32 (inodeAddr d) (oiSize mf (inodeAddr d) + 1024) (1024 * st.nextb + x) = 0 := by
    intro x hx
    have := h.shadow.nextb
    rw [hdata₃ _ (by omega)]
    exact hzero₂ x hx
  have hent : ∀ k, dirent (mf₂.set32 (inodeAddr d) (oiSize mf (inodeAddr d) + 1024)) d k =
      dirent mf d k := by
    intro k
    refine dirent_grow hfr h.tidy hok (Nat.le_refl _) (by omega) (fun x h1 h2 => ?_) (by omega)
    have hx : x / 1024 = fileBlocks mf d := by omega
    unfold fileByte
    rw [hx, hptr₃]
    exact hzero _ (Nat.mod_lt _ (by decide))
  have hsh₃ := hg₂.shadow.set32 (inodeAddr_ge d) (oiSize mf (inodeAddr d) + 1024)
  have himg := h.regrow hs hdn (by have := hg₂.globals; rw [this]) hsh₃ ht₃ hfr
    (fun p => ?_) (fun b hb hlt' => ?_) (by omega) fun _ => ⟨by omega, hent⟩
  · refine ⟨_, 8 * fileBlocks mf d, himg, ⟨fun j hj _ => hfr.oiFtype hj, ?_, ?_⟩, ?_, ?_, ?_, ?_,
      ?_, fun j hj hj' => by omega⟩
    · intro j hj hjd _
      exact (hfr.kept h.tidy h.tree).content j hj hjd fun he => hjd (he ▸ hd)
    · intro d' k' hd' _
      by_cases he : d' = d
      · subst he
        exact hent k'
      · exact (hfr.kept h.tidy h.tree).entry d' k' hd' he
    · have := hg₂.globals
      rw [this]
    · unfold entryAddr
      rw [show 8 * fileBlocks mf d / 8 = fileBlocks mf d by omega,
        show 8 * fileBlocks mf d % 8 = 0 by omega, hptr₃]
      omega
    · unfold entries
      omega
    · unfold odIno entryAddr
      rw [show 8 * fileBlocks mf d / 8 = fileBlocks mf d by omega,
        show 8 * fileBlocks mf d % 8 = 0 by omega, hptr₃, Nat.mul_zero, Nat.add_zero]
      exact Mem.get32_of_zero fun x hx => hzero x (by omega)
    · unfold entries
      omega
  · rw [hown₃, hown₂, hown₁, h.exact d p hs, hblocks₃, Place.inUse_succ]
    simp
  · rw [hown₃]
    rcases Nat.lt_trichotomy b st.nextb with hb' | rfl | hb'
    · obtain ⟨i, hi⟩ := h.onto b hb hb'
      have h0 : own mf (Files g mf) i ≠ 0 := by
        have := hb.1
        have := g.firstdata_ge
        omega
      exact ⟨i, by rw [hkept₂ i h0, hi]⟩
    · exact ⟨_, hleaf₂⟩
    · exact hg₂.onto b hb' hlt'

/-- The code at `new_dirb` adds a block of blank entries. -/
theorem Image.newDirb (h : Image g st m mf) (hlt : d < g.ninodes) (hd : IsDir mf d) :
    (newDirb (inodeAddr d) (fileBlocks mf d)).wlp g.nblocks (fun r st' m' => ∃ mf' k,
      Image g st' m' mf' ∧ Kept g (fun _ => False) mf mf' ∧ st' = { st with nextb := st'.nextb } ∧
      r.1 = entryAddr mf' d k ∧ FirstBlank mf' d k) st m := by
  have hok := h.tree.dirOk hlt hd
  have hs := hok.mem
  unfold Ospfs.newDirb nextBlock
  simp only [wlp_bind, wlp_getGlobals, wlp_setGlobals, wlp_getBlock, wlp_pure, if_true]
  intro hnb
  obtain ⟨hdata, hfree⟩ := h.shadow.free hnb
  have hsh₁ := h.shadow.take hnb
  obtain ⟨ht₁, hsp, hown₁, hfr₁, hcount₁⟩ := h.tidy.take (k := fileBlocks mf d) hlt hdata hfree
  have hge3 : 3 ≤ st.nextb := Nat.le_trans g.firstdata_ge h.shadow.nextb
  -- the loop writes zeros to a cleared block
  refine wlp_mono (wlp_forRange (I := fun _ s' m' => s' = { st with nextb := st.nextb + 1 } ∧
      m' = m.fill (1024 * st.nextb) 1024 0) ⟨rfl, rfl⟩ ?_) ?_
  · rintro i hi s' m' ⟨rfl, rfl⟩
    rw [wlp_storeWord]
    refine ⟨rfl, Mem.set32_zero fun x hx hx' => Mem.fill_of_mem (by omega) (by omega)⟩
  rintro _ s' m' ⟨rfl, rfl⟩
  have hleaf0 : own (takeBlock mf st.nextb) (Files g mf) (d, .leaf (fileBlocks mf d)) = 0 := by
    rw [hown₁]
    by_contra hne
    exact Nat.lt_irrefl _ ((h.exact d (.leaf (fileBlocks mf d)) hs).1 hne)
  refine wlp_mono (wlp_storeblk hsh₁ ht₁ hs hsp hleaf0) ?_
  rintro _ st₂ m₂ ⟨mf₂, hg₂, hleaf₂, hown₂, hzero₂⟩
  have hmv₂ := hg₂.move
  have hsize₂ : oiSize mf₂ (inodeAddr d) = oiSize mf (inodeAddr d) := by
    rw [hmv₂.size]
    exact Mem.get32_congr fun x hx hx' => take_inode hdata hlt hx (by omega)
  have hget : m₂.get32 (inodeAddr d) = oiSize mf (inodeAddr d) := by
    rw [hg₂.shadow.get32 (inodeAddr_ge d)]
    exact hsize₂
  simp only [wlp_loadWord, wlp_storeWord, hget]
  split
  case isFalse => exact wlp_abort
  rw [wlp_pure]
  exact h.blankBlock hlt hd hnb hg₂ hleaf₂ hown₂ hzero₂

theorem files_congr (h : ∀ x, 3072 ≤ x → x < 1024 * g.firstdata → mf' x = mf x) :
    Files g mf' = Files g mf := by
  funext j
  unfold Files oiFtype
  refine propext (and_congr_right fun hj => ?_)
  have := inodeAddr_lt hj
  have := inodeAddr_ge j
  rw [Mem.get32_congr fun x _ hx => h x (by omega) (by omega)]

theorem Image.of_data (h : Image g st m mf) (hsh : Shadow g st.nextb m' mf')
    (ht : Tidy g (Files g mf) mf') (hown : own mf' (Files g mf) = own mf (Files g mf))
    (hlow : ∀ x, 3072 ≤ x → x < 1024 * g.firstdata → mf' x = mf x)
    (hent : ∀ d k, d < g.ninodes → dirent mf' d k = dirent mf d k) : Image g st m' mf' := by
  have hfiles := files_congr hlow
  have hword (j : Nat) (hj : j < g.ninodes) (c : Nat) (hc : c ≤ 12) :
      mf'.get32 (inodeAddr j + c) = mf.get32 (inodeAddr j + c) := by
    have := inodeAddr_lt hj
    have := inodeAddr_ge j
    exact Mem.get32_congr fun x _ hx => hlow x (by omega) (by omega)
  have hsize (j : Nat) (hj : j < g.ninodes) : oiSize mf' (inodeAddr j) = oiSize mf (inodeAddr j) :=
    hword j hj 0 (by omega)
  have hty (j : Nat) (hj : j < g.ninodes) : oiFtype mf' (inodeAddr j) = oiFtype mf (inodeAddr j) :=
    hword j hj 4 (by omega)
  have hnl (j : Nat) (hj : j < g.ninodes) : oiNlink mf' (inodeAddr j) = oiNlink mf (inodeAddr j) :=
    hword j hj 8 (by omega)
  have hdir (j : Nat) (hj : j < g.ninodes) : IsDir mf' j ↔ IsDir mf j := by
    unfold IsDir
    rw [hty j hj]
  refine ⟨hsh, by rw [hfiles]; exact ht, fun j p hj => ?_, ?_, ⟨?_, ?_, ?_, ?_⟩, ?_, h.inodes,
    ?_, ?_, ?_, ?_⟩
  · rw [hfiles] at hj ⊢
    rw [hown]
    unfold fileBlocks
    rw [hsize j hj.1]
    exact h.exact j p hj
  · rw [hfiles, hown]
    exact h.onto
  · intro j hj
    rw [hty j hj]
    exact h.tree.kinds j hj
  · intro j hj
    rw [hfiles] at hj
    rw [hsize j hj.1]
    exact h.tree.whole j hj
  · intro d hd hdd
    rw [hsize d hd, hnl d hd]
    exact h.tree.dirs d hd ((hdir d hd).1 hdd)
  · intro d k name i hd he
    rw [hent d k hd] at he
    exact h.tree.names d k name i hd he
  · intro j h2 hj hnd
    rw [hnl j hj, linkCount_congr hent]
    exact h.links j h2 hj fun h' => hnd ((hdir j hj).2 h')
  · intro j hj hj' x hx
    have := inodeAddr_lt hj'
    have := inodeAddr_ge j
    rw [hlow _ (by omega) (by omega)]
    exact h.fresh j hj hj' x hx
  · intro d k name i hd he
    rw [hent d k hd] at he
    exact h.named d k name i hd he
  · intro d hd hdd
    rw [hnl d hd]
    exact h.dirs d hd ((hdir d hd).1 hdd)
  · intro l hl
    obtain ⟨h1, h2, h3⟩ := h.hard l hl
    exact ⟨h1, h2, fun h' => h3 ((hdir _ (Nat.lt_of_lt_of_le h2 h.inodes.2)).1 h')⟩

/-- A blank entry that carries a name already. -/
structure Reserved (g : Geometry) (mf : Mem) (d k : Nat) (name : Bytes) : Prop
    extends FirstBlank mf d k where
  short : name.length ≤ 123
  name : odName mf (entryAddr mf d k) = name

theorem entry_ge (ht : Tidy g (Files g mf) mf) (hok : DirOk (Files g mf) mf d)
    (hk : k < entries mf d) : 1024 * g.firstdata ≤ entryAddr mf d k := by
  have h0 := ht.mapped_own hok.mem (hok.entry_lt hk)
  have := (ht.laid.isData h0).1
  rw [own_of_mem hok.mem] at this
  unfold entryAddr
  omega

/-- Writing to an entry of a directory: no file's content is there. -/
theorem Kept.of_entry_write (ht : Tidy g (Files g mf) mf) (hok : DirOk (Files g mf) mf d)
    (hown : own mf' (Files g mf) = own mf (Files g mf))
    (hlow : ∀ x, x < 1024 * g.firstdata → mf' x = mf x)
    (hw : ∀ x, x < entryAddr mf d k ∨ entryAddr mf d k + 128 ≤ x → mf' x = mf x)
    (hent : ∀ d' k', d' < g.ninodes → d' ≠ d → dirent mf' d' k' = dirent mf d' k') :
    Kept g (fun j => j = d) mf mf' := by
  have hlt := inodeAddr_lt hok.mem.1
  have hword (j : Nat) (hj : j < g.ninodes) (c : Nat) (hc : c ≤ 12) :
      mf'.get32 (inodeAddr j + c) = mf.get32 (inodeAddr j + c) := by
    have := inodeAddr_lt hj
    exact Mem.get32_congr fun x _ hx => hlow x (by omega)
  refine ⟨fun j hj _ => hword j hj 4 (by omega), fun j hj _ hne => ⟨hword j hj.1 0 (by omega),
    fun x hx => ?_⟩, fun d' k' hd' hne => hent d' k' hd' hne⟩
  have hp := ptr_of_own hown hj (.leaf (x / 1024))
  unfold fileByte
  rw [hp]
  have h0 := ht.mapped_own hj hx
  have hne' : own mf (Files g mf) (j, .leaf (x / 1024)) ≠
      own mf (Files g mf) (d, .leaf (k / 8)) := by
    intro heq
    have hij := ht.laid.owns.inj _ _ h0 heq
    simp only [Prod.mk.injEq] at hij
    exact hne hij.1
  rw [own_of_mem hj, own_of_mem hok.mem] at hne'
  refine hw _ ?_
  unfold entryAddr
  omega

theorem Image.wlp_findBlank (h : Image g st m mf) (hlt : d < g.ninodes) (hd : IsDir mf d) :
    wlp g.nblocks
      (if fileBlocks mf d = 0 then Ospfs.newDirb (inodeAddr d) (fileBlocks mf d)
      else do
        let dirb ← lastDirb (inodeAddr d) (fileBlocks mf d - 1)
        match ← blankFrom dirb 8 0 with
        | some od => return (od, dirb)
        | none =>
          putBlock dirb
          Ospfs.newDirb (inodeAddr d) (fileBlocks mf d))
      (fun r st' m' => ∃ mf' k, Image g st' m' mf' ∧ Kept g (fun _ => False) mf mf' ∧
        st' = { st with nextb := st'.nextb } ∧ r.1 = entryAddr mf' d k ∧ FirstBlank mf' d k)
      st m := by
  split
  · exact h.newDirb hlt hd
  rename_i hpos
  have hok := h.tree.dirOk hlt hd
  rw [wlp_bind]
  refine wlp_mono (wlp_lastDirb h.shadow h.tidy hok.mem (n := fileBlocks mf d - 1) (by omega)) ?_
  rintro dirb _ _ ⟨rfl, rfl, rfl⟩
  rw [wlp_bind]
  refine wlp_mono wlp_blankFrom ?_
  rintro r s m ⟨rfl, rfl, hr⟩
  cases r with
  | none =>
    rw [wlp_bind, wlp_putBlock]
    exact h.newDirb hlt hd
  | some od =>
    obtain ⟨j, -, hj, rfl, h0, hfirst⟩ := hr od rfl
    have hentries := hok.entries
    have haddr (i : Nat) (hi : i < 8) :
        1024 * ptr mf (inodeAddr d) (.leaf (fileBlocks mf d - 1)) + 128 * i =
          entryAddr mf d (8 * (fileBlocks mf d - 1) + i) := by
      unfold entryAddr
      rw [show (8 * (fileBlocks mf d - 1) + i) / 8 = fileBlocks mf d - 1 by omega]
      omega
    have hino (i : Nat) (hi : i < 8) :
        m.get32 (1024 * ptr mf (inodeAddr d) (.leaf (fileBlocks mf d - 1)) + 128 * i) =
          odIno mf (entryAddr mf d (8 * (fileBlocks mf d - 1) + i)) := by
      have hge := entry_ge h.tidy hok (k := 8 * (fileBlocks mf d - 1) + i) (by omega)
      have := g.firstdata_ge
      rw [haddr i hi, h.shadow.get32 (by omega)]
      rfl
    have hblank : FirstBlank mf d (8 * (fileBlocks mf d - 1) + j) := by
      refine ⟨by omega, by rw [← hino j (by omega)]; exact h0, by omega, fun k hk hk' => ?_⟩
      obtain ⟨i, rfl⟩ : ∃ i, k = 8 * (fileBlocks mf d - 1) + i :=
        ⟨k - 8 * (fileBlocks mf d - 1), by omega⟩
      have hlive := hfirst i (Nat.zero_le _) (by omega)
      rw [hino i (by omega)] at hlive
      rw [dirent_of_isDir hd (by omega), if_pos hlive]
      exact Option.some_ne_none _
    exact wlp_pure.2 ⟨mf, _, h, .refl, rfl, haddr j (by omega), hblank⟩

theorem Image.writeName (h : Image g st m mf) (hlt : d < g.ninodes) (hd : IsDir mf d)
    (hk : FirstBlank mf d k) (hz : 0 ∉ name) (hlen : name.length ≤ 123) :
    ∃ mf', Image g st (m.store (entryAddr mf d k + 4) (name ++ [0])) mf' ∧
      Kept g (fun _ => False) mf mf' ∧ entryAddr mf' d k = entryAddr mf d k ∧
      Reserved g mf' d k name := by
  have hok := h.tree.dirOk hlt hd
  have hge := entry_ge h.tidy hok hk.lt
  have hfd := g.firstdata_ge
  have hlen' : (name ++ [0]).length = name.length + 1 := by simp
  have hw : ∀ x, x < entryAddr mf d k ∨ entryAddr mf d k + 128 ≤ x →
      mf.store (entryAddr mf d k + 4) (name ++ [0]) x = mf x := fun x hx =>
    Mem.store_of_ne (by omega)
  obtain ⟨ht', hown, hlow, haddr, hents⟩ := h.tidy.entry_write hok hk.lt hw
  have hino : odIno (mf.store (entryAddr mf d k + 4) (name ++ [0])) (entryAddr mf d k) = 0 := by
    have h0 := hk.blank
    unfold odIno at *
    rw [Mem.get32_store_ne (by omega), h0]
  have hent (d' k' : Nat) (hd' : d' < g.ninodes) :
      dirent (mf.store (entryAddr mf d k + 4) (name ++ [0])) d' k' = dirent mf d' k' := by
    by_cases hne : (d', k') = (d, k)
    · cases hne
      unfold dirent
      rw [haddr, hino, hk.blank]
      simp
    · exact hents d' k' hd' (fun hdd => h.tree.dirOk hd' hdd) hne
  have hsize : entries (mf.store (entryAddr mf d k + 4) (name ++ [0])) d = entries mf d := by
    have := inodeAddr_lt hlt
    unfold entries oiSize
    rw [Mem.get32_congr fun x _ hx => hlow x (by omega)]
  have hblank : FirstBlank (mf.store (entryAddr mf d k + 4) (name ++ [0])) d k := by
    refine ⟨by rw [hsize]; exact hk.lt, by rw [haddr]; exact hino, by rw [hsize]; exact hk.last,
      fun j hj hj' => ?_⟩
    rw [hent d j hlt]
    exact hk.first j hj hj'
  refine ⟨_, h.of_data (h.shadow.store (by omega) _) ht' hown (fun x _ => hlow x) hent,
    ?_, haddr, hblank, hlen, ?_⟩
  · have hk' := Kept.of_entry_write h.tidy hok hown hlow hw fun d' k' hd' _ => hent d' k' hd'
    refine ⟨fun j hj _ => ?_, fun j hj hjd _ => hk'.content j hj hjd fun he => hjd (he ▸ hd),
      fun d' k' hd' _ => hent d' k' hd'⟩
    have := inodeAddr_lt hj
    exact Mem.get32_congr fun x _ hx => hlow x (by omega)
  · rw [haddr]
    refine odName_eq hz hlen (fun i hi => ?_) ?_
    · rw [Mem.store_of_lt (by simp; omega), List.getElem_append_left hi]
    · rw [Mem.store_of_lt (by simp), List.getElem_append_right (Nat.le_refl _)]
      simp

/-- `allocdirentry` reserves an entry; no content changes. -/
theorem Image.allocdirentry (h : Image g st m mf) (hlt : d < g.ninodes) (hd : IsDir mf d)
    {name : Bytes} (hz : 0 ∉ name) :
    (allocdirentry (inodeAddr d) name).wlp g.nblocks (fun r st' m' => ∃ mf' k,
      Image g st' m' mf' ∧ Kept g (fun _ => False) mf mf' ∧ st' = { st with nextb := st'.nextb } ∧
      r.1 = entryAddr mf' d k ∧ Reserved g mf' d k name) st m := by
  unfold Ospfs.allocdirentry
  split
  case isTrue => exact wlp_abort
  rename_i hlen
  have hsize : m.get32 (inodeAddr d) = oiSize mf (inodeAddr d) :=
    h.shadow.get32 (inodeAddr_ge d)
  simp only [wlp_bind, wlp_loadWord, hsize]
  refine wlp_mono (h.wlp_findBlank hlt hd) ?_
  rintro ⟨od, dirb⟩ st' m' ⟨mf', k, himg, hkept, hst, hod, hk⟩
  simp only at hod
  subst hod
  simp only [wlp_storeBytes, wlp_pure]
  obtain ⟨mf'', himg', hkept', haddr, hres⟩ :=
    himg.writeName hlt ((hkept.isDir hlt id).2 hd) hk hz (by omega)
  exact ⟨mf'', k, himg', hkept.trans hkept', hst, haddr.symm, hres⟩

end OsLabs.Ospfs
