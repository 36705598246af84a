import OsLabs.Ospfs.Enter

/-!
# OSPFS: copying a file's bytes

The loop of `writefile`. `copied reads` are the bytes that the calls of `readn`
deliver to it; at the end they are the content of the file.
-/

namespace OsLabs.Ospfs

open BlockProg

/-- The bytes that `writefile` copies. -/
def copied : List (Option { bytes : Bytes // bytes.length ≤ 1024 }) → Bytes
  | [] => []
  | none :: _ => []
  | some bytes :: reads =>
    if bytes.val.length < 1024 then bytes else bytes.val ++ copied reads

/-- The file of inode `ino` holds the bytes `bs`. -/
structure HasContent (m : Mem) (ino : Nat) (bs : Bytes) : Prop where
  size : oiSize m (inodeAddr ino) = bs.length
  bytes : ∀ x (hx : x < bs.length), fileByte m ino x = bs[x]

variable {g : Geometry} {S : Nat → Prop} {st st' : Globals} {m m' mf mf' mf₀ : Mem} {ino n : Nat}
  {bs : Bytes}

/-- A file being copied: `n` blocks hold the bytes `bs`, the size is not set yet. -/
structure Filling (g : Geometry) (S : Nat → Prop) (ino n : Nat) (st : Globals) (m mf₀ mf : Mem)
    (bs : Bytes) : Prop where
  shadow : Shadow g st.nextb m mf
  tidy : Tidy g S mf
  frame : Frame g S ino 0 mf₀ mf
  size : oiSize mf (inodeAddr ino) = 0
  exact : ∀ p, own mf S (ino, p) ≠ 0 ↔ p.InUse n
  onto : ∀ b, g.IsData b → b < st.nextb → ∃ i, own mf S i = b
  length : bs.length ≤ 1024 * n
  bytes : ∀ x (hx : x < bs.length), fileByte mf ino x = bs[x]

theorem Filling.le (h : Filling g S ino n st m mf₀ mf bs) : n ≤ 8192 := by
  refine Nat.le_trans (h.tidy.laid.owns.le_card (f := fun b => (ino, .leaf b)) (fun i j hij => ?_)
    (fun b hb => ?_) (fun b hb => hb.1.2)) g.small
  · simpa using hij
  · exact (h.exact (.leaf b)).2 hb

/-- The look-ahead block is cleared and not used. -/
theorem Filling.lookahead (h : Filling g S ino n st m mf₀ mf bs) (hs : S ino)
    (hlt : st.nextb < g.nblocks) :
    ∃ mf', Filling g S ino n st (m.fill (1024 * st.nextb) 1024 0) mf₀ mf' bs := by
  obtain ⟨hd, hf⟩ := h.shadow.free hlt
  have hno := h.tidy.not_own_free hd hf
  have hfd := g.firstdata_ge
  have hd1 := hd.1
  have hin := h.tidy.laid.bound _ hs
  have hw (x : Nat) (hx : x < 1024 * st.nextb ∨ 1024 * st.nextb + 1024 ≤ x) :
      mf.fill (1024 * st.nextb) 1024 0 x = mf x := Mem.fill_of_ne hx
  obtain ⟨hmv, hown, hlow⟩ := h.tidy.write_unowned (k := n) hin hd hno hw
  refine ⟨_, h.shadow.write fun x => ?_, hmv.tidy, h.frame.trans (hmv.frame.mono (Nat.zero_le _)),
    hmv.size.trans h.size, by rw [hown]; exact h.exact, by rw [hown]; exact h.onto, h.length,
    fun x hx => ?_⟩
  · unfold Mem.fill
    split
    · exact .inr ⟨by omega, rfl⟩
    · exact .inl ⟨rfl, rfl⟩
  · have hlen := h.length
    have h0 := (h.exact (.leaf (x / 1024))).2 (show x / 1024 < n by omega)
    rw [own_of_mem hs] at h0
    rw [hmv.frame.fileByte hs (fun _ => by omega) h0]
    exact h.bytes x hx

theorem Filling.add (h : Filling g S ino n st m mf₀ mf bs) (hs : S ino)
    (hlt : st.nextb < g.nblocks) (hfull : bs.length = 1024 * n) {bytes : Bytes}
    (hlen : bytes.length ≤ 1024) :
    (storeblk (inodeAddr ino) st.nextb n).wlp g.nblocks (fun _ st' m' => ∃ mf',
      st' = { st with nextb := st'.nextb } ∧ Filling g S ino (n + 1) st' m' mf₀ mf' (bs ++ bytes))
      { st with nextb := st.nextb + 1 }
      ((m.fill (1024 * st.nextb) 1024 0).store (1024 * st.nextb) bytes) := by
  obtain ⟨hd, hf⟩ := h.shadow.free hlt
  have hfd := g.firstdata_ge
  have hd1 := hd.1
  have hin := h.tidy.laid.bound _ hs
  have hsh₁ := (h.shadow.take hlt).store (a := 1024 * st.nextb) (by omega) bytes
  obtain ⟨ht₁, hsp₁, hown₁, hfr₁, -⟩ := h.tidy.take (k := n) hin hd hf
  have hsize₁ : oiSize (takeBlock mf st.nextb) (inodeAddr ino) = oiSize mf (inodeAddr ino) :=
    Mem.get32_congr fun x hx hx' => take_inode hd hin hx (by omega)
  have hw₂ (x : Nat) (hx : x < 1024 * st.nextb ∨ 1024 * st.nextb + 1024 ≤ x) :
      (takeBlock mf st.nextb).store (1024 * st.nextb) bytes x = takeBlock mf st.nextb x :=
    Mem.store_of_ne (by omega)
  obtain ⟨hmv₂, hown₂, hlow₂⟩ := ht₁.write_unowned (k := n) hin hd hsp₁.unowned hw₂
  have hsp₂ := hsp₁.write hown₂ hlow₂
  have hmv := (Move.mk ht₁ hfr₁ hsize₁).trans hmv₂
  generalize hmf₂ : (takeBlock mf st.nextb).store (1024 * st.nextb) bytes = mf₂ at *
  have hown : own mf₂ S = own mf S := hown₂.trans hown₁
  have h0 : own mf₂ S (ino, .leaf n) = 0 := by
    rw [hown]
    by_contra hne
    exact Nat.lt_irrefl _ ((h.exact (.leaf n)).1 hne)
  refine wlp_mono (wlp_storeblk hsh₁ hmv.tidy hs hsp₂
    h0) ?_
  rintro _ st' m' ⟨mf', hg, hleaf, hown', hbytes⟩
  have hmv' := hmv.trans hg.move
  have hst : st' = { st with nextb := st'.nextb } := by
    have := hg.globals
    rw [this]
  refine ⟨mf', hst, hg.shadow, hmv'.tidy, h.frame.trans (hmv'.frame.mono (Nat.zero_le _)),
    hmv'.size.trans h.size, fun p => ?_, fun b hb hlt' => ?_, ?_, fun x hx => ?_⟩
  · rw [hown', hown, h.exact p, Place.inUse_succ]
    simp
  · rcases Nat.lt_trichotomy b st.nextb with hb' | rfl | hb'
    · obtain ⟨i, hi⟩ := h.onto b hb hb'
      refine ⟨i, ?_⟩
      rw [hg.kept i, hown, hi]
      rw [hown, hi]
      have := hb.1
      omega
    · exact ⟨_, hleaf⟩
    · exact hg.onto b hb' hlt'
  · rw [List.length_append]
    omega
  · rw [List.length_append] at hx
    rcases Nat.lt_or_ge x bs.length with hxc | hxc
    · have h0 := (h.exact (.leaf (x / 1024))).2 (show x / 1024 < n by omega)
      rw [own_of_mem hs] at h0
      rw [hmv'.frame.fileByte hs (fun _ => by omega) h0, List.getElem_append_left hxc]
      exact h.bytes x hxc
    · have hx1 : x / 1024 = n := by omega
      unfold fileByte
      rw [hx1, ← own_of_mem hs, hleaf, hbytes _ (by omega), ← hmf₂, List.getElem_append_right hxc]
      rw [Mem.store_of_lt (by omega)]
      congr 1
      omega

theorem Filling.finish (h : Filling g (Files g mf₀) ino n st' m mf₀ mf bs) (h₀ : Image g st m' mf₀)
    (hs : Files g mf₀ ino) (hlt : ino < st.nextinode) (hdir : ¬ IsDir mf₀ ino)
    (hst : st' = { st with nextb := st'.nextb }) (hn : n = (bs.length + 1023) / 1024) :
    ∃ mf', Image g st' (m.set32 (inodeAddr ino) bs.length) mf' ∧
      Kept g (fun j => j = ino) mf₀ mf' ∧
      oiFtype mf' (inodeAddr ino) = oiFtype mf₀ (inodeAddr ino) ∧ HasContent mf' ino bs := by
  have hle := h.le
  have hlen := h.length
  have hcount : ospfsSize2nblocks bs.length = n := by
    unfold ospfsSize2nblocks
    omega
  obtain ⟨ht, hfr, hown, hsize, -, hdata⟩ := h.tidy.set_size (k := 0) hs (v := bs.length)
    (by omega) fun b hb => (h.exact (.leaf b)).2 (by rwa [hcount] at hb)
  have hfr' := h.frame.trans hfr
  have hblocks : fileBlocks (mf.set32 (inodeAddr ino) bs.length) ino = n := by
    unfold fileBlocks
    rw [hsize]
    exact hcount
  refine ⟨_, h₀.regrow hs hlt hst (h.shadow.set32 (inodeAddr_ge ino) _) ht hfr' (fun p => ?_)
    (by rw [hown]; exact h.onto) (by omega) fun hd => absurd hd hdir,
    hfr'.kept h₀.tidy h₀.tree, hfr'.oiFtype hs.1, hsize, fun x hx => ?_⟩
  · rw [hown, hblocks]
    exact h.exact p
  · have hptr := ptr_of_own hown hs (.leaf (x / 1024))
    have h0 := (h.exact (.leaf (x / 1024))).2 (show x / 1024 < n by omega)
    have hd := (h.tidy.laid.isData h0).1
    rw [own_of_mem hs] at hd
    unfold fileByte
    rw [hptr, hdata _ (by omega)]
    exact h.bytes x hx

theorem Filling.last (h : Filling g (Files g mf₀) ino n st' m mf₀ mf bs) (h₀ : Image g st m' mf₀)
    (hs : Files g mf₀ ino) (hlt : ino < st.nextinode) (hdir : ¬ IsDir mf₀ ino)
    (hst : st' = { st with nextb := st'.nextb }) (hc : bs.length = 1024 * n)
    (hnb : st'.nextb < g.nblocks) :
    ∃ mf', st' = { st with nextb := st'.nextb } ∧
      Image g st' ((m.fill (1024 * st'.nextb) 1024 0).set32 (inodeAddr ino) (n * 1024)) mf' ∧
      Kept g (fun j => j = ino) mf₀ mf' ∧
      oiFtype mf' (inodeAddr ino) = oiFtype mf₀ (inodeAddr ino) ∧ HasContent mf' ino (bs ++ []) := by
  obtain ⟨mf₁, h₁⟩ := h.lookahead hs hnb
  obtain ⟨mf', himg, hk, hty, hcont⟩ := h₁.finish h₀ hs hlt hdir hst (by omega)
  rw [List.append_nil]
  refine ⟨mf', hst, ?_, hk, hty, hcont⟩
  rwa [hc, Nat.mul_comm 1024 n] at himg

theorem Image.writeBlocks (h₀ : Image g st m' mf₀) (hs : Files g mf₀ ino)
    (hlt : ino < st.nextinode) (hdir : ¬ IsDir mf₀ ino)
    (reads : List (Option { bytes : Bytes // bytes.length ≤ 1024 })) {st₁ : Globals}
    (hst : st₁ = { st with nextb := st₁.nextb })
    (h : Filling g (Files g mf₀) ino n st₁ m mf₀ mf bs) (hc : bs.length = 1024 * n) :
    (writeBlocks (inodeAddr ino) reads n).wlp g.nblocks (fun _ st' m' => ∃ mf',
      st' = { st with nextb := st'.nextb } ∧ Image g st' m' mf' ∧
      Kept g (fun j => j = ino) mf₀ mf' ∧
      oiFtype mf' (inodeAddr ino) = oiFtype mf₀ (inodeAddr ino) ∧
      HasContent mf' ino (bs ++ copied reads)) st₁ m := by
  induction reads generalizing n st₁ m mf bs with
  | nil =>
    unfold Ospfs.writeBlocks
    simp only [wlp_bind, wlp_getGlobals, wlp_getBlock, wlp_putBlock, wlp_storeWord, if_true]
    exact h.last h₀ hs hlt hdir hst hc
  | cons r reads ih =>
    cases r with
    | none =>
      unfold Ospfs.writeBlocks
      simp only [wlp_bind, wlp_getGlobals, wlp_getBlock]
      exact fun _ => wlp_abort
    | some bytes =>
      unfold Ospfs.writeBlocks
      simp only [wlp_bind, wlp_getGlobals, wlp_getBlock, wlp_storeBytes, if_true]
      intro hlt'
      by_cases hb0 : bytes.val.length = 0
      · rw [if_pos hb0]
        simp only [wlp_bind, wlp_putBlock, wlp_storeWord]
        have hnil : bytes.val = [] := List.length_eq_zero_iff.1 hb0
        have hstore : (m.fill (1024 * st₁.nextb) 1024 0).store (1024 * st₁.nextb) bytes.val =
            m.fill (1024 * st₁.nextb) 1024 0 := by
          funext x
          exact Mem.store_of_ne (by omega)
        have hcop : copied (some bytes :: reads) = [] := by
          unfold copied
          rw [if_pos (by omega), hnil]
        rw [hstore, hcop]
        exact h.last h₀ hs hlt hdir hst hc hlt'
      · rw [if_neg hb0]
        simp only [wlp_bind, wlp_setGlobals, wlp_putBlock]
        refine wlp_mono (h.add hs hlt' hc bytes.2) ?_
        rintro _ st₂ m₂ ⟨mf₂, hst₂, h₂⟩
        have hst₂' : st₂ = { st with nextb := st₂.nextb } := by
          rw [hst] at hst₂
          exact hst₂
        by_cases hshort : bytes.val.length < 1024
        · rw [if_pos hshort, wlp_storeWord]
          have hcop : copied (some bytes :: reads) = bytes := by
            unfold copied
            rw [if_pos hshort]
          obtain ⟨mf', himg, hk, hty, hcont⟩ := h₂.finish h₀ hs hlt hdir hst₂'
            (by rw [List.length_append]; omega)
          rw [hcop]
          refine ⟨mf', hst₂', ?_, hk, hty, hcont⟩
          rw [List.length_append, hc, Nat.mul_comm 1024 n] at himg
          exact himg
        · rw [if_neg hshort]
          have hfull : bytes.val.length = 1024 := by
            have := bytes.2
            omega
          have hcop : copied (some bytes :: reads) = bytes.val ++ copied reads := by
            rw [copied, if_neg hshort]
          rw [hcop, ← List.append_assoc]
          exact ih hst₂' h₂ (by rw [List.length_append]; omega)

end OsLabs.Ospfs
