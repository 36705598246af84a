import OsLabs.Ospfs.Moves

/-!
# OSPFS: changing a file's size

`add_block`, `remove_block` and `change_size` on a file system in order. The
one step of `add_block` that does not keep it in order is the allocation of an
indirect block under the doubly indirect block, which is not entered there:
`Linked` excludes it.
-/

namespace OsLabs.Ospfs

/-- The entry in the doubly indirect block for the next file block. -/
def nextUnder (m : Mem) (oi : Nat) : Nat :=
  ptr m oi (.indir2 ((ospfsSize2nblocks (oiSize m oi) - 266) / 256))

/-- `add_block` has no indirect block to allocate under the doubly indirect
block, or no two blocks left for it. -/
def Linked (m : Mem) (oi : Nat) : Prop :=
  ospfsSize2nblocks (oiSize m oi) < 266 ∨ nextUnder m oi ≠ 0 ∨ freeBlocks m < 2

/-- The blocks that `add_block` allocates. -/
def addNeeds (m : Mem) (oi : Nat) : Nat :=
  let n := ospfsSize2nblocks (oiSize m oi)
  if n < 10 then 1
  else if n < 266 then if oiIndirect m oi = 0 then 2 else 1
  else if nextUnder m oi = 0 then 2 else 1

variable {g : Geometry} {S : Nat → Prop} {m m' m'' : Mem} {ino b n k : Nat}

structure Added (g : Geometry) (S : Nat → Prop) (ino : Nat) (m m' : Mem) : Prop where
  tidy : Tidy g S m'
  frame : Frame g S ino (fileBlocks m ino) m m'
  size : oiSize m' (inodeAddr ino) = (oiSize m (inodeAddr ino) + 1024) % 2 ^ 32
  blocks : fileBlocks m' ino = fileBlocks m ino + 1
  zero : ∀ x, x / 1024 = fileBlocks m ino → fileByte m' ino x = 0

theorem Tidy.fileBlocks_small (h : Tidy g S m) (hs : S ino) : fileBlocks m ino ≤ 8192 :=
  Nat.le_trans (h.fileBlocks_le hs) g.small

/-! ## `add_block` -/

theorem Tidy.freeBlocks_low (h : Tidy g S m) (hx : ∀ x, x < 3072 → m' x = m x) :
    freeBlocks m' = freeBlocks m :=
  freeBlocks_congr (fun x _ => hx x) (by rw [h.super.nblocks]; exact g.small)

theorem Tidy.enter_added (h : Tidy g S m) (hs : S ino)
    (hm : Move g S ino (fileBlocks m ino) m m')
    (hp : Present m' (inodeAddr ino) (.leaf (fileBlocks m ino))) (hb : Spare g S m' b zeros) :
    let m'' := m'.set32 (slot m' (inodeAddr ino) (.leaf (fileBlocks m ino))) b
    let m₁ := m''.set32 (inodeAddr ino) (oiSize m'' (inodeAddr ino) + 1024)
    Added g S ino m m₁ ∧ freeBlocks m₁ = freeBlocks m' ∧
      ptr m₁ (inodeAddr ino) .indirect = ptr m' (inodeAddr ino) .indirect := by
  intro m'' m₁
  have hsmall := h.fileBlocks_small hs
  obtain ⟨hm'', hnew, hzero⟩ := hm.tidy.enter hs hp hb
  have hmv := hm.trans hm''
  have hcount : ospfsSize2nblocks ((oiSize m'' (inodeAddr ino) + 1024) % 2 ^ 32) =
      fileBlocks m ino + 1 := by
    rw [hmv.size]
    exact size2nblocks_add (Nat.lt_of_le_of_lt (Nat.succ_le_succ hsmall) (by decide))
  obtain ⟨ht, hfr, hown, hsize, hlow, hdata⟩ := hmv.tidy.set_size (k := fileBlocks m ino) hs
    (v := (oiSize m'' (inodeAddr ino) + 1024) % 2 ^ 32) (Nat.mod_lt _ (by decide)) fun c hc => by
      rw [hcount] at hc
      rcases Nat.lt_succ_iff_lt_or_eq.1 hc with hlt | rfl
      · rw [hmv.frame.leaves c hlt]
        exact h.mapped_own hs hlt
      · rw [hnew, if_pos rfl]
        exact hb.ne_zero
  rw [Mem.set32_mod] at ht hfr hown hsize hlow hdata
  have hlow'' (x : Nat) (hx : x < 3072) : m'' x = m' x := by
    have := hm.tidy.laid.slot_range hs hp
    have := inodeAddr_ge ino
    exact Mem.set32_of_ne (by omega)
  refine ⟨⟨ht, hmv.frame.trans hfr, by rw [hsize, hmv.size], ?_, fun x hx => ?_⟩,
    hm.tidy.freeBlocks_low fun x hx => (hlow x hx).trans (hlow'' x hx), ?_⟩
  · unfold fileBlocks
    rw [hsize]
    exact hcount
  · have hptr := congrFun hown (ino, .leaf (fileBlocks m ino))
    rw [hnew, if_pos rfl, own_of_mem hs] at hptr
    have := hb.allocated.1.1
    unfold fileByte
    rw [hx, hptr]
    exact (hdata _ (by omega)).trans (hzero _ (Nat.mod_lt _ (by decide)))
  · have hind := congrFun hown (ino, .indirect)
    rw [hnew, if_neg (by simp), own_of_mem hs, own_of_mem hs] at hind
    exact hind

def AddResult (g : Geometry) (S : Nat → Prop) (ino : Nat) (m : Mem) (r : Ret × Mem) : Prop :=
  (r.1 = .ok () ∧ freeBlocks r.2 + addNeeds m (inodeAddr ino) = freeBlocks m ∧
      Added g S ino m r.2 ∧ (fileBlocks m ino < 10 →
        oiIndirect r.2 (inodeAddr ino) = oiIndirect m (inodeAddr ino))) ∨
    (r.1 = .error .eNoSpc ∧ freeBlocks m < addNeeds m (inodeAddr ino) ∧
      Move g S ino (fileBlocks m ino) m r.2)

/-- The branches of `add_block` after the new block has been taken: they leave a
result, and `add_block` sets the size. -/
def addSize (oi : Nat) : Ret × Mem → Ret × Mem
  | (.ok (), m) => (.ok (), m.set32 oi (oiSize m oi + 1024))
  | (.error e, m) => (.error e, m)

theorem addBlock_eq (m : Mem) (oi : Nat) : addBlock m oi =
    let n := ospfsSize2nblocks (oiSize m oi)
    if n > maxfileblks then (.error .eNoSpc, m)
    else if (allocateBlock m).1 = 0 then (.error .eNoSpc, (allocateBlock m).2)
    else
      let b := (allocateBlock m).1
      let m := clearBlock (allocateBlock m).2 b
      addSize oi (if n < 10 then (.ok (), m.set32 (oi + 16 + 4 * n) b)
        else if n < 10 + 256 then addIndirect m oi n b
        else addIndirect2 m oi n b) := by
  unfold addBlock addSize
  rcases allocateBlock m with ⟨b, m₁⟩
  simp only
  split
  · rfl
  split
  · rfl
  generalize (if ospfsSize2nblocks (oiSize m oi) < 10 then _ else _ : Ret × Mem) = r
  rcases r with ⟨⟨⟩ | _, _⟩ <;> rfl

theorem Tidy.addIndirect (h : Tidy g S m) (hs : S ino) (hn : 10 ≤ fileBlocks m ino)
    (hn' : fileBlocks m ino < 266) (hm : Move g S ino (fileBlocks m ino) m m')
    (hb : Spare g S m' b zeros) (hown : own m' S = own m S)
    (hfree : freeBlocks m' + 1 = freeBlocks m) :
    AddResult g S ino m
      (addSize (inodeAddr ino) (addIndirect m' (inodeAddr ino) (fileBlocks m ino) b)) := by
  have hin := h.laid.bound _ hs
  obtain ⟨hlt, -⟩ | ⟨-, -, hpar, hidx⟩ | ⟨hle, -⟩ := Place.leaf_cases (fileBlocks m ino)
  · omega
  case inr.inr => omega
  have hdir : directIndex (fileBlocks m ino) = fileBlocks m ino - 10 :=
    directIndex_indirect (by omega) (by omega)
  have hsl (m₁ : Mem) : slot m₁ (inodeAddr ino) (.leaf (fileBlocks m ino)) =
      ospfsBlock (oiIndirect m₁ (inodeAddr ino)) + 4 * directIndex (fileBlocks m ino) := by
    rw [slot_of_some hpar, hidx, hdir]
    rfl
  have hind : oiIndirect m' (inodeAddr ino) = oiIndirect m (inodeAddr ino) :=
    ptr_of_own hown hs .indirect
  have hval : (Place.leaf (fileBlocks m ino)).Valid :=
    leaf_valid (by unfold maxfileblks; omega)
  have hneeds : addNeeds m (inodeAddr ino) = if oiIndirect m (inodeAddr ino) = 0 then 2 else 1 := by
    show (if fileBlocks m ino < 10 then _ else if fileBlocks m ino < 266 then _ else _) = _
    rw [if_neg (by omega), if_pos hn']
  unfold Ospfs.addIndirect
  by_cases h0 : oiIndirect m' (inodeAddr ino) = 0
  · rw [if_pos h0]
    rw [← hind, if_pos h0] at hneeds
    rcases hm.tidy.allocate (k := fileBlocks m ino) hin with
      ⟨he, hf0⟩ | ⟨a, he, hcl, had, haf, hmv, hsp, hown', hf'⟩
    · refine .inr ⟨?_, by omega, ?_⟩
      · rw [he]
        rfl
      · rw [he]
        exact hm.trans (hm.tidy.giveBack hin hb)
    · have hb' := hb.take hm.tidy had haf
      have hab : b ≠ a := by
        rintro rfl
        have := hb.allocated.2
        rw [haf] at this
        cases this
      have hp0 : ptr (takeBlock m' a) (inodeAddr ino) .indirect = 0 :=
        (ptr_of_own hown' hs .indirect).trans h0
      have hpres : Present (takeBlock m' a) (inodeAddr ino) .indirect :=
        present_of_root trivial rfl
      obtain ⟨hlink, hownl, hlow, hsp'⟩ :=
        hmv.tidy.link (k := fileBlocks m ino) hs hpres trivial hp0 hsp
      have hp : Present ((takeBlock m' a).set32 (slot (takeBlock m' a) (inodeAddr ino) .indirect) a)
          (inodeAddr ino) (.leaf (fileBlocks m ino)) := by
        refine present_of_parent hval hpar ?_
        rw [← own_of_mem hs, hownl, if_pos rfl]
        exact hsp.ne_zero
      obtain ⟨hadd, hcount, -⟩ :=
        h.enter_added hs (hm.trans (hmv.trans hlink)) hp (hsp' b hab hb')
      rw [hmv.tidy.freeBlocks_low hlow] at hcount
      rw [hsl] at hadd hcount
      refine .inl ⟨?_, ?_, ?_, fun hlt => by omega⟩
      · rw [he]
        simp only [hsp.ne_zero, if_false]
        rfl
      · rw [he]
        simp only [hsp.ne_zero, if_false, hcl]
        exact (congrArg (· + _) hcount).trans (by omega)
      · rw [he]
        simp only [hsp.ne_zero, if_false, hcl]
        exact hadd
  · rw [if_neg h0]
    rw [← hind, if_neg h0] at hneeds
    have hp : Present m' (inodeAddr ino) (.leaf (fileBlocks m ino)) :=
      present_of_parent hval hpar h0
    obtain ⟨hadd, hcount, -⟩ := h.enter_added hs hm hp hb
    rw [hsl] at hadd hcount
    exact .inl ⟨rfl, (congrArg (· + _) hcount).trans (by omega), hadd, fun hlt => by omega⟩

theorem Tidy.addIndirect2 (h : Tidy g S m) (hs : S ino) (hl : Linked m (inodeAddr ino))
    (hn : 266 ≤ fileBlocks m ino) (hm : Move g S ino (fileBlocks m ino) m m')
    (hb : Spare g S m' b zeros) (hown : own m' S = own m S)
    (hfree : freeBlocks m' + 1 = freeBlocks m) :
    AddResult g S ino m
      (addSize (inodeAddr ino) (addIndirect2 m' (inodeAddr ino) (fileBlocks m ino) b)) := by
  have hin := h.laid.bound _ hs
  have hsmall := h.fileBlocks_small hs
  obtain ⟨hlt, -⟩ | ⟨-, hlt, -⟩ | ⟨-, hpar, hidx⟩ := Place.leaf_cases (fileBlocks m ino)
  · omega
  · omega
  have hk : (Place.indir2 ((fileBlocks m ino - 266) / 256)).Valid := by
    show (fileBlocks m ino - 266) / 256 < 256
    omega
  have hptr := ptr_of_own hown hs
  have hunder : m'.get32 (ospfsBlock (oiIndirect2 m' (inodeAddr ino)) +
      4 * (indirIndex (fileBlocks m ino)).toNat) = nextUnder m (inodeAddr ino) := by
    have hi : (indirIndex (fileBlocks m ino)).toNat = (fileBlocks m ino - 266) / 256 :=
      toNat_indirIndex (by omega)
    rw [hi]
    exact (hm.tidy.boot.get_slot hk).trans (hptr _)
  have hneeds : addNeeds m (inodeAddr ino) = if nextUnder m (inodeAddr ino) = 0 then 2 else 1 := by
    show (if fileBlocks m ino < 10 then _ else if fileBlocks m ino < 266 then _ else _) = _
    rw [if_neg (by omega), if_neg (by omega)]
  by_cases h0 : nextUnder m (inodeAddr ino) = 0
  · rw [if_pos h0] at hneeds
    -- no block is left for a table
    have hf0 : freeBlocks m' = 0 := by
      rcases hl with hlt | hne | hlt
      · exact absurd hlt (by unfold fileBlocks at hn; omega)
      · exact absurd h0 hne
      · omega
    have hfail : Ospfs.allocateBlock m' = (0, m') := by
      rcases hm.tidy.allocate (k := fileBlocks m ino) hin with
        ⟨he, -⟩ | ⟨_, -, -, -, -, -, -, -, hf⟩
      · exact he
      · omega
    have hres : addSize (inodeAddr ino) (Ospfs.addIndirect2 m' (inodeAddr ino) (fileBlocks m ino) b) =
        (.error .eNoSpc, Ospfs.freeBlock m' b) := by
      unfold Ospfs.addIndirect2 addUnder
      simp only [hfail, hunder, h0, if_true, ne_eq, not_true_eq_false, if_false, ite_self]
      rfl
    rw [hres]
    exact .inr ⟨rfl, by omega, hm.trans (hm.tidy.giveBack hin hb)⟩
  · rw [if_neg h0] at hneeds
    have hind : ptr m' (inodeAddr ino) (.indir2 ((fileBlocks m ino - 266) / 256)) ≠ 0 :=
      (hptr _).trans_ne h0
    have hind2 : oiIndirect2 m' (inodeAddr ino) ≠ 0 := by
      intro h2
      refine hind (ptr_of_not_present fun hp => hp.2 _ rfl ?_)
      exact h2
    have hp : Present m' (inodeAddr ino) (.leaf (fileBlocks m ino)) :=
      present_of_parent (leaf_valid (by unfold maxfileblks; omega)) hpar hind
    have hsl : slot m' (inodeAddr ino) (.leaf (fileBlocks m ino)) =
        ospfsBlock (nextUnder m (inodeAddr ino)) + 4 * directIndex (fileBlocks m ino) := by
      have hdir : directIndex (fileBlocks m ino) = (fileBlocks m ino - 266) % 256 :=
        directIndex_indirect2 (by omega)
      rw [slot_of_some hpar, hidx, hdir, hptr]
      rfl
    obtain ⟨hadd, hcount, -⟩ := h.enter_added hs hm hp hb
    rw [hsl] at hadd hcount
    have hres : addSize (inodeAddr ino) (Ospfs.addIndirect2 m' (inodeAddr ino) (fileBlocks m ino) b) =
        addSize (inodeAddr ino) (.ok (), m'.set32 (ospfsBlock (nextUnder m (inodeAddr ino)) +
          4 * directIndex (fileBlocks m ino)) b) := by
      unfold Ospfs.addIndirect2 addUnder
      simp only [hind2, hunder, h0, if_false]
    rw [hres]
    exact .inl ⟨rfl, (congrArg (· + _) hcount).trans (by omega), hadd, fun hlt => by omega⟩

/-- `add_block` succeeds iff there are blocks enough; else it leaves the file as it was. -/
theorem Tidy.addBlock (h : Tidy g S m) (hs : S ino) (hl : Linked m (inodeAddr ino)) :
    AddResult g S ino m (addBlock m (inodeAddr ino)) := by
  have hin := h.laid.bound _ hs
  have hsmall := h.fileBlocks_small hs
  have hpos : 0 < addNeeds m (inodeAddr ino) := by
    unfold addNeeds
    grind
  rw [addBlock_eq]
  simp only
  rw [if_neg (by
    show ¬ fileBlocks m ino > maxfileblks
    unfold maxfileblks
    omega)]
  rcases h.allocate (k := fileBlocks m ino) hin with
    ⟨he, hf0⟩ | ⟨b, he, hcl, hbd, hbf, hmv, hsp, hown, hfree⟩
  · rw [he]
    exact .inr ⟨rfl, by omega, h.move_refl⟩
  rw [he]
  simp only [hsp.ne_zero, if_false]
  rw [hcl]
  by_cases h10 : fileBlocks m ino < 10
  · obtain ⟨-, hpar, hidx⟩ | ⟨hge, -⟩ | ⟨hge, -⟩ := Place.leaf_cases (fileBlocks m ino)
    case inr.inl => omega
    case inr.inr => omega
    have hp : Present (takeBlock m b) (inodeAddr ino) (.leaf (fileBlocks m ino)) :=
      present_of_root (leaf_valid (by unfold maxfileblks; omega)) hpar
    obtain ⟨hadd, hcount, hind⟩ := h.enter_added hs hmv hp hsp
    rw [slot_of_none hpar, hidx] at hadd hcount hind
    have hneeds : addNeeds m (inodeAddr ino) = 1 := if_pos h10
    rw [if_pos (show ospfsSize2nblocks (oiSize m (inodeAddr ino)) < 10 from h10)]
    exact .inl ⟨rfl, (congrArg (· + _) hcount).trans (by omega), hadd, fun _ =>
      hind.trans (ptr_of_own hown hs .indirect)⟩
  rw [if_neg (show ¬ ospfsSize2nblocks (oiSize m (inodeAddr ino)) < 10 from h10)]
  by_cases h266 : fileBlocks m ino < 266
  · rw [if_pos (show ospfsSize2nblocks (oiSize m (inodeAddr ino)) < 10 + 256 from h266)]
    exact h.addIndirect hs (by omega) h266 hmv hsp hown hfree
  · rw [if_neg (show ¬ ospfsSize2nblocks (oiSize m (inodeAddr ino)) < 10 + 256 from h266)]
    exact h.addIndirect2 hs hl (by omega) hmv hsp hown hfree

/-! ## `remove_block` -/

theorem under_indirect (h : Place.indirect.Under (.leaf b)) : 10 ≤ b := by
  cases h with
  | step hpar _ =>
    obtain ⟨-, hp, -⟩ | ⟨hb, -⟩ | ⟨hb, -⟩ := Place.leaf_cases b
    · rw [hp] at hpar
      cases hpar
    · exact hb
    · omega

theorem under_indir2 (h : (Place.indir2 k).Under (.leaf b)) : 266 + 256 * k ≤ b := by
  cases h with
  | step hpar hu =>
    obtain ⟨-, hp, -⟩ | ⟨-, -, hp, -⟩ | ⟨hb, hp, -⟩ := Place.leaf_cases b <;> rw [hp] at hpar <;>
      cases hpar
    · cases hu with
      | step hpar' _ => cases hpar'
    · cases hu with
      | refl => omega
      | step hpar' hu' =>
        cases hpar'
        cases hu' with
        | step hpar'' _ => cases hpar''

theorem under_indirect2 (h : Place.indirect2.Under (.leaf b)) : 266 ≤ b := by
  cases h with
  | step hpar hu =>
    obtain ⟨-, hp, -⟩ | ⟨-, -, hp, -⟩ | ⟨hb, -, -⟩ := Place.leaf_cases b
    · rw [hp] at hpar
      cases hpar
    · rw [hp] at hpar
      cases hpar
      cases hu with
      | step hpar' _ => cases hpar'
    · exact hb

theorem Tidy.removeDirect (h : Tidy g S m) (hs : S ino) (hn : n < 10)
    (hge : fileBlocks m ino ≤ n) : Move g S ino n m (removeDirect m (inodeAddr ino) n) := by
  have hmv := (h.release hs (n := n) (by unfold maxfileblks; omega) hge).1
  obtain ⟨-, hpar, hidx⟩ | ⟨hle, -⟩ | ⟨hle, -⟩ := Place.leaf_cases n
  case inr.inl => omega
  case inr.inr => omega
  have hdir : directIndex n = n := directIndex_direct hn
  rw [slot_of_none hpar, hidx] at hmv
  unfold Ospfs.removeDirect
  rw [hdir]
  have hptr : ptr m (inodeAddr ino) (.leaf n) = oiDirect m (inodeAddr ino) n := if_pos hn
  rw [hptr] at hmv
  exact hmv

theorem Tidy.removeIndirect (h : Tidy g S m) (hs : S ino) (hn : 10 ≤ n) (hn' : n < 266)
    (hge : fileBlocks m ino ≤ n) : Move g S ino n m (removeIndirect m (inodeAddr ino) n) := by
  have hval : (Place.leaf n).Valid := leaf_valid (by unfold maxfileblks; omega)
  have hmv := (h.release hs (n := n) hval hge).1
  obtain ⟨hlt, -⟩ | ⟨-, -, hpar, hidx⟩ | ⟨hle, -⟩ := Place.leaf_cases n
  · omega
  case inr.inr => omega
  have hdir : directIndex n = n - 10 := directIndex_indirect (by omega) (by omega)
  have hsl : slot m (inodeAddr ino) (.leaf n) =
      ospfsBlock (oiIndirect m (inodeAddr ino)) + 4 * directIndex n := by
    rw [slot_of_some hpar, hidx, hdir]
    rfl
  rw [← h.boot.get_slot hval, hsl] at hmv
  unfold Ospfs.removeIndirect
  simp only
  split
  · have hn10 : n = 10 := by omega
    exact hmv.trans (hmv.tidy.drop hs (p := .indirect) trivial
      (fun b hb => hn10 ▸ under_indirect hb) (hmv.fileBlocks.trans_le hge))
  · exact hmv

theorem Tidy.removeIndirect2 (h : Tidy g S m) (hs : S ino) (hn : 266 ≤ n) (hn' : n < maxfileblks)
    (hge : fileBlocks m ino ≤ n) : Move g S ino n m (removeIndirect2 m (inodeAddr ino) n) := by
  obtain ⟨hmv, htab⟩ := h.release hs (n := n) hn' hge
  obtain ⟨hlt, -⟩ | ⟨-, hlt, -⟩ | ⟨-, hpar, hidx⟩ := Place.leaf_cases n
  · omega
  · omega
  have hk : (Place.indir2 ((n - 266) / 256)).Valid := by
    unfold maxfileblks at hn'
    show (n - 266) / 256 < 256
    omega
  have hi : (indirIndex n).toNat = (n - 266) / 256 := toNat_indirIndex (by omega)
  have hdir : directIndex n = (n - 266) % 256 := directIndex_indirect2 (by omega)
  have hunder : m.get32 (ospfsBlock (oiIndirect2 m (inodeAddr ino)) + 4 * ((n - 266) / 256)) =
      ptr m (inodeAddr ino) (.indir2 ((n - 266) / 256)) := h.boot.get_slot hk
  have hsl : slot m (inodeAddr ino) (.leaf n) =
      ospfsBlock (ptr m (inodeAddr ino) (.indir2 ((n - 266) / 256))) + 4 * ((n - 266) % 256) := by
    rw [slot_of_some hpar, hidx]
  rw [← h.boot.get_slot (p := .leaf n) hn', hsl] at hmv htab
  unfold Ospfs.removeIndirect2
  simp only [hi, hdir, hunder]
  generalize hm₁ : (Ospfs.freeBlock m _).set32 _ 0 = m₁ at hmv htab
  split
  · rename_i h0
    have hsl₂ : slot m₁ (inodeAddr ino) (.indir2 ((n - 266) / 256)) =
        ospfsBlock (oiIndirect2 m (inodeAddr ino)) + 4 * ((n - 266) / 256) := by
      rw [slot_of_some rfl, htab .indirect2 trivial]
      rfl
    have hmv₂ := hmv.tidy.drop hs hk (n := n) (fun b hb => by have := under_indir2 hb; omega)
      (hmv.fileBlocks.trans_le hge)
    rw [hsl₂] at hmv₂
    have hmv₂' := hmv.trans hmv₂
    split
    · rename_i h0'
      have hn266 : n = 266 := by omega
      exact hmv₂'.trans (hmv₂'.tidy.drop hs (p := .indirect2) trivial
        (fun b hb => hn266 ▸ under_indirect2 hb) (hmv₂'.fileBlocks.trans_le hge))
    · exact hmv₂'
  · exact hmv

/-- `remove_block` takes one block off the file's block count. -/
structure Removed (g : Geometry) (S : Nat → Prop) (ino : Nat) (m m' : Mem) : Prop where
  tidy : Tidy g S m'
  frame : Frame g S ino (fileBlocks m ino) m m'
  size : oiSize m' (inodeAddr ino) = (oiSize m (inodeAddr ino) + (2 ^ 32 - 1024)) % 2 ^ 32
  blocks : fileBlocks m' ino = fileBlocks m ino - 1

theorem Tidy.removeBlock (h : Tidy g S m) (hs : S ino) (hpos : 0 < fileBlocks m ino) :
    Removed g S ino m (removeBlock m (inodeAddr ino)) := by
  have hsmall := h.fileBlocks_small hs
  have hmv : ∃ m₁, Move g S ino (fileBlocks m ino) m m₁ ∧ Ospfs.removeBlock m (inodeAddr ino) =
      m₁.set32 (inodeAddr ino) (oiSize m₁ (inodeAddr ino) + (2 ^ 32 - 1024)) := by
    refine ⟨_, ?_, rfl⟩
    show Move g S ino (fileBlocks m ino) m (if indir2Index (fileBlocks m ino) = 0 then _
      else if indirIndex (fileBlocks m ino) = 0 then _ else _)
    unfold indir2Index indirIndex
    rcases Nat.lt_or_ge (fileBlocks m ino) 10 with h10 | h10
    · rw [if_pos (show fileBlocks m ino < 10 + 256 by omega), if_neg (by decide), if_pos h10,
        if_neg (by decide)]
      exact h.removeDirect hs h10 (Nat.le_refl _)
    rcases Nat.lt_or_ge (fileBlocks m ino) 266 with h266 | h266
    · rw [if_pos (show fileBlocks m ino < 10 + 256 from h266), if_neg (by decide),
        if_neg (show ¬ fileBlocks m ino < 10 by omega),
        if_pos (show fileBlocks m ino ≥ 10 ∧ fileBlocks m ino < 10 + 256 from ⟨h10, h266⟩),
        if_pos rfl]
      exact h.removeIndirect hs h10 h266 (Nat.le_refl _)
    · rw [if_neg (show ¬ fileBlocks m ino < 10 + 256 by omega), if_pos rfl]
      exact h.removeIndirect2 hs h266 (by unfold maxfileblks; omega) (Nat.le_refl _)
  obtain ⟨m₁, hmv, heq⟩ := hmv
  have hcount : ospfsSize2nblocks ((oiSize m₁ (inodeAddr ino) + (2 ^ 32 - 1024)) % 2 ^ 32) =
      fileBlocks m ino - 1 := by
    rw [hmv.size]
    exact size2nblocks_sub hpos
  obtain ⟨ht, hfr, -, hsize, -⟩ := hmv.tidy.set_size (k := fileBlocks m ino) hs
    (v := (oiSize m₁ (inodeAddr ino) + (2 ^ 32 - 1024)) % 2 ^ 32) (Nat.mod_lt _ (by decide))
    fun c hc => by
      rw [hcount] at hc
      rw [hmv.frame.leaves c (by omega)]
      exact h.mapped_own hs (by omega)
  rw [Mem.set32_mod, ← heq] at ht hfr hsize
  refine ⟨ht, hmv.frame.trans hfr, by rw [hsize, hmv.size], ?_⟩
  unfold fileBlocks
  rw [hsize]
  exact hcount

/-! ## The loops of `change_size` -/

/-- Every `add_block` that the first loop of `change_size` calls starts in `P`. -/
def eachAdd (P : Mem → Nat → Prop) (oi newSize : Nat) : (fuel : Nat) → Mem → Prop
  | 0, _ => True
  | fuel + 1, m => ospfsSize2nblocks (oiSize m oi) < ospfsSize2nblocks newSize →
      P m oi ∧ ((Ospfs.addBlock m oi).1 = .ok () →
        eachAdd P oi newSize fuel (Ospfs.addBlock m oi).2)

/-- Growing the file takes `add_block` nowhere but where `Linked` allows it. -/
def GrowLinked (m : Mem) (oi newSize : Nat) : Prop :=
  eachAdd Linked oi newSize (ospfsSize2nblocks newSize) m

def GrowRoom (m : Mem) (oi newSize : Nat) : Prop :=
  eachAdd (fun m oi => addNeeds m oi ≤ freeBlocks m) oi newSize (ospfsSize2nblocks newSize) m

structure Grown (g : Geometry) (S : Nat → Prop) (ino : Nat) (m m' : Mem) : Prop where
  tidy : Tidy g S m'
  frame : Frame g S ino (fileBlocks m ino) m m'
  le : fileBlocks m ino ≤ fileBlocks m' ino
  size : oiSize m' (inodeAddr ino) =
    (oiSize m (inodeAddr ino) + 1024 * (fileBlocks m' ino - fileBlocks m ino)) % 2 ^ 32
  zero : ∀ x, fileBlocks m ino ≤ x / 1024 → x / 1024 < fileBlocks m' ino → fileByte m' ino x = 0

theorem oiSize_lt (m : Mem) (oi : Nat) : oiSize m oi < 2 ^ 32 := Mem.get32_lt

theorem Tidy.grown_refl (h : Tidy g S m) : Grown g S ino m m := by
  have := oiSize_lt m (inodeAddr ino)
  exact ⟨h, .refl, Nat.le_refl _, by omega, fun x h1 h2 => absurd h2 (by omega)⟩

theorem Grown.added (h : Grown g S ino m m') (hs : S ino) (ha : Added g S ino m' m'') :
    Grown g S ino m m'' := by
  have hle := h.le
  have hblocks := ha.blocks
  refine ⟨ha.tidy, h.frame.trans (ha.frame.mono h.le), by omega, ?_, fun x h1 h2 => ?_⟩
  · rw [ha.size, h.size, ha.blocks]
    omega
  · rcases Nat.lt_or_ge (x / 1024) (fileBlocks m' ino) with hlt | hge
    · rw [ha.frame.fileByte hs (fun _ => hlt) (h.tidy.mapped ino hs _ hlt)]
      exact h.zero x h1 hlt
    · exact ha.zero x (by omega)

theorem Tidy.removeBlocks (h : Tidy g S m) (hs : S ino) {r : Nat} (hr : r ≤ fileBlocks m ino) :
    Tidy g S (removeBlocks (inodeAddr ino) r m) ∧
      Frame g S ino (fileBlocks m ino - r) m (Ospfs.removeBlocks (inodeAddr ino) r m) ∧
      (oiSize (Ospfs.removeBlocks (inodeAddr ino) r m) (inodeAddr ino) + 1024 * r) % 2 ^ 32 =
        oiSize m (inodeAddr ino) := by
  induction r generalizing m with
  | zero =>
    have := oiSize_lt m (inodeAddr ino)
    exact ⟨h, .refl, by simp only [Ospfs.removeBlocks]; omega⟩
  | succ r ih =>
    have hrm := h.removeBlock hs (by omega)
    have hblocks := hrm.blocks
    obtain ⟨ht, hfr, hsize⟩ := ih hrm.tidy (by omega)
    refine ⟨ht, (hrm.frame.mono (by omega)).trans (hfr.mono (by omega)), ?_⟩
    have hlt := oiSize_lt m (inodeAddr ino)
    have hsz := hrm.size
    rw [hsz] at hsize
    simp only [Ospfs.removeBlocks]
    omega

theorem Grown.rollback (h : Grown g S ino m m') (hs : S ino) {r : Nat}
    (hr : fileBlocks m' ino = fileBlocks m ino + r) :
    Move g S ino (fileBlocks m ino) m (Ospfs.removeBlocks (inodeAddr ino) r m') := by
  obtain ⟨ht, hfr, hsize⟩ := h.tidy.removeBlocks hs (r := r) (by omega)
  refine ⟨ht, h.frame.trans (hfr.mono (by omega)), ?_⟩
  have h1 := h.size
  have h2 := oiSize_lt m (inodeAddr ino)
  have h3 := oiSize_lt (Ospfs.removeBlocks (inodeAddr ino) r m') (inodeAddr ino)
  rw [hr, Nat.add_sub_cancel_left] at h1
  omega

theorem Grown.growLoop (h : Grown g S ino m m') (hs : S ino) {newSize fuel r : Nat}
    (hr : fileBlocks m' ino = fileBlocks m ino + r)
    (hfuel : ospfsSize2nblocks newSize ≤ fuel + fileBlocks m' ino)
    (hl : eachAdd Linked (inodeAddr ino) newSize fuel m') :
    ∃ ret m'', growLoop (inodeAddr ino) newSize fuel r m' = some (ret, m'') ∧
      ((ret = .ok () ∧
        eachAdd (fun m oi => addNeeds m oi ≤ freeBlocks m) (inodeAddr ino) newSize fuel m' ∧
        Grown g S ino m m'' ∧
        fileBlocks m'' ino = max (fileBlocks m' ino) (ospfsSize2nblocks newSize)) ∨
      (ret = .error .eNoSpc ∧
        ¬ eachAdd (fun m oi => addNeeds m oi ≤ freeBlocks m) (inodeAddr ino) newSize fuel m' ∧
        Move g S ino (fileBlocks m ino) m m'')) := by
  induction fuel generalizing m' r with
  | zero =>
    have hdone : ospfsSize2nblocks newSize ≤ fileBlocks m' ino := by omega
    exact ⟨.ok (), m', growLoop_done hdone, .inl ⟨rfl, trivial, h, by omega⟩⟩
  | succ fuel ih =>
    by_cases hlt : fileBlocks m' ino < ospfsSize2nblocks newSize
    case neg =>
      exact ⟨.ok (), m', growLoop_done (Nat.le_of_not_lt hlt),
        .inl ⟨rfl, fun h' => absurd h' hlt, h, by omega⟩⟩
    obtain ⟨hlk, hl'⟩ := hl hlt
    have hadd := h.tidy.addBlock hs hlk
    generalize hres : Ospfs.addBlock m' (inodeAddr ino) = res at hadd hl'
    obtain ⟨ret, m₁⟩ := res
    rcases hadd with ⟨rfl, hcount, hadd, -⟩ | ⟨rfl, hroom, hmv⟩
    · have hroom : addNeeds m' (inodeAddr ino) ≤ freeBlocks m' := by omega
      rw [growLoop_add hlt hres]
      have hblocks := hadd.blocks
      obtain ⟨ret, m'', heq, hout⟩ := ih (h.added hs hadd) (r := r + 1) (by omega) (by omega)
        (hl' rfl)
      refine ⟨ret, m'', heq, ?_⟩
      rcases hout with ⟨rfl, hroom', hg, hmax⟩ | ⟨rfl, hroom', hg⟩
      · refine .inl ⟨rfl, fun _ => ⟨hroom, fun _ => ?_⟩, hg, by omega⟩
        rw [hres]
        exact hroom'
      · refine .inr ⟨rfl, fun hno => hroom' ?_, hg⟩
        have := (hno hlt).2
        rw [hres] at this
        exact this rfl
    · rw [growLoop_full hlt hres]
      have hg : Grown g S ino m m₁ := by
        have hb := hmv.fileBlocks
        refine ⟨hmv.tidy, h.frame.trans (hmv.frame.mono h.le), by rw [hb]; exact h.le, ?_,
          fun x h1 h2 => ?_⟩
        · rw [hmv.size, hb]
          exact h.size
        · rw [hb] at h2
          rw [hmv.frame.fileByte hs (fun _ => h2) (h.tidy.mapped ino hs _ h2)]
          exact h.zero x h1 h2
      refine ⟨_, _, rfl, .inr ⟨rfl, fun hno => ?_, hg.rollback hs (by rw [hmv.fileBlocks, hr])⟩⟩
      have := (hno hlt).1
      omega

theorem Tidy.shrinkLoop (h : Tidy g S m) (hs : S ino) {newSize fuel : Nat}
    (hfuel : fileBlocks m ino ≤ fuel) :
    ∃ m', shrinkLoop (inodeAddr ino) newSize fuel m = some m' ∧ Tidy g S m' ∧
      Frame g S ino (ospfsSize2nblocks newSize) m m' ∧
      fileBlocks m' ino = min (fileBlocks m ino) (ospfsSize2nblocks newSize) := by
  induction fuel generalizing m with
  | zero =>
    have hdone : fileBlocks m ino ≤ ospfsSize2nblocks newSize := by omega
    exact ⟨m, shrinkLoop_done hdone, h, .refl, by omega⟩
  | succ fuel ih =>
    by_cases hgt : fileBlocks m ino > ospfsSize2nblocks newSize
    case neg => exact ⟨m, shrinkLoop_done (Nat.le_of_not_lt hgt), h, .refl, by omega⟩
    have hrm := h.removeBlock hs (by omega)
    have hblocks := hrm.blocks
    obtain ⟨m', heq, ht, hfr, hb⟩ := ih hrm.tidy (by omega)
    refine ⟨m', ?_, ht, (hrm.frame.mono (by omega)).trans hfr, by omega⟩
    rw [shrinkLoop_remove hgt]
    exact heq

structure Sized (g : Geometry) (S : Nat → Prop) (ino newSize : Nat) (m m' : Mem) : Prop where
  tidy : Tidy g S m'
  frame : Frame g S ino (min (fileBlocks m ino) (ospfsSize2nblocks newSize)) m m'
  size : oiSize m' (inodeAddr ino) = newSize
  zero : ∀ x, fileBlocks m ino ≤ x / 1024 → x / 1024 < ospfsSize2nblocks newSize →
    fileByte m' ino x = 0

/-- `change_size` returns: with the new size if there is room, else with the file as it was. -/
theorem Tidy.changeSize (h : Tidy g S m) (hs : S ino) {newSize : Nat} (hv : newSize < 2 ^ 32)
    (hl : GrowLinked m (inodeAddr ino) newSize) :
    ∃ r m', changeSize m (inodeAddr ino) newSize = some (r, m') ∧
      ((r = .ok () ∧ GrowRoom m (inodeAddr ino) newSize ∧ Sized g S ino newSize m m') ∨
      (r = .error .eNoSpc ∧ ¬ GrowRoom m (inodeAddr ino) newSize ∧
        Move g S ino (fileBlocks m ino) m m')) := by
  have hrefl : Grown g S ino m m := h.grown_refl
  obtain ⟨r, m₁, heq, hout⟩ := hrefl.growLoop hs (Nat.add_zero _).symm (by omega) hl
  rcases hout with ⟨rfl, hroom, hg, hmax⟩ | ⟨rfl, hroom, hmv⟩
  · obtain ⟨m₂, heq₂, ht, hfr, hmin⟩ := hg.tidy.shrinkLoop hs (Nat.le_refl (fileBlocks m₁ ino))
    have heq₂' : Ospfs.shrinkLoop (inodeAddr ino) newSize
        (ospfsSize2nblocks (oiSize m₁ (inodeAddr ino))) m₁ = some m₂ := heq₂
    have hcount : ospfsSize2nblocks newSize = fileBlocks m₂ ino := by omega
    obtain ⟨ht', hfr', hown, hsize, -, hdata⟩ := ht.set_size (k := ospfsSize2nblocks newSize) hs hv
      fun c hc => ht.mapped_own hs (by omega)
    refine ⟨.ok (), m₂.set32 (inodeAddr ino) newSize, changeSize_ok heq heq₂',
      .inl ⟨rfl, hroom, ht', ?_, hsize, fun x h1 h2 => ?_⟩⟩
    · exact (hg.frame.mono (by omega)).trans ((hfr.trans hfr').mono (by omega))
    · have hlt : x / 1024 < fileBlocks m₁ ino := by omega
      rw [hfr'.fileByte hs (fun _ => h2) (ht.mapped ino hs _ (by omega)),
        hfr.fileByte hs (fun _ => h2) (hg.tidy.mapped ino hs _ hlt)]
      exact hg.zero x h1 hlt
  · exact ⟨.error .eNoSpc, m₁, changeSize_error heq, .inr ⟨rfl, hroom, hmv⟩⟩

end OsLabs.Ospfs
