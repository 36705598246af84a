import OsLabs.Ospfs.Transfer
import OsLabs.Ospfs.Mapped

/-!
# OSPFS: writing in place

What the loop of `ospfs_write` does to a file whose blocks are data blocks with
one place each (`Placed`): the pieces land in the file's own blocks, at the
addresses of the positions that are written, and nothing else changes. On a
disk where no two files share a block (`FileSystem`) this leaves every other
file alone.
-/

namespace OsLabs.Ospfs

open Chunks

namespace Volume

variable {V : Volume} {m m' w : Mem} {oi oi' count pos i k n p q x : Nat}
  {buffer : Nat → Option UInt8}

/-- Where piece `k` is moved from or to. -/
theorem piece_address (hin : pos + count ≤ oiSize m oi)
    (h0 : ospfsInodeBlockno m oi (cut 1024 pos k) ≠ 0)
    (hp : cut 1024 pos k ≤ p) (hp' : p < reach 1024 pos count (k + 1)) :
    ospfsInodeBlockno m oi p ≠ 0 ∧ ospfsInodeData m oi p =
      ospfsBlock (ospfsInodeBlockno m oi (cut 1024 pos k)) + cut 1024 pos k % 1024 +
        (p - cut 1024 pos k) := by
  have hle : reach 1024 pos count (k + 1) ≤ pos + count := reach_le
  have hblock := same_block _ hp hp'
  have hno := inodeBlockno_block h0 (q := p) (by omega) hblock
  refine ⟨hno.trans_ne h0, ?_⟩
  unfold ospfsInodeData
  rw [hno]
  omega

def fileblks (m : Mem) (oi : Nat) : Nat := (oiSize m oi + 1023) / 1024

/-- A file whose blocks are data blocks with one place each. It may have holes
where the boot block is empty. -/
structure Placed (V : Volume) (m : Mem) (oi : Nat) : Prop where
  inode : V.Inode oi
  pointers : oiFtype m oi ≠ ftypeSymlink
  size : fileblks m oi ≤ maxfileblks
  mapped : BootZero m ∨ ∀ b < fileblks m oi, ptr m oi (.leaf b) ≠ 0
  data : ∀ p : Place, p.InUse (fileblks m oi) → ptr m oi p ≠ 0 → V.IsData (ptr m oi p)
  once : ∀ p q : Place, p.InUse (fileblks m oi) → q.InUse (fileblks m oi) →
    ptr m oi p ≠ 0 → ptr m oi p = ptr m oi q → p = q

/-- Memories that agree on all a file's pointers are read from, and below the data blocks. -/
structure Quiet (V : Volume) (oi : Nat) (m m' : Mem) : Prop where
  low : ∀ x < 1024 * V.firstdata, m' x = m x
  tables : ∀ p : Place, p.IsTable → p.InUse (fileblks m oi) → ptr m oi p ≠ 0 →
    ∀ x, 1024 * ptr m oi p ≤ x → x < 1024 * ptr m oi p + 1024 → m' x = m x

theorem Quiet.inode (h : Quiet V oi m m') (hoi : V.Inode oi) (hx : x < oi + 64) :
    m' x = m x := by
  obtain ⟨-, hhi, -⟩ := hoi.address
  exact h.low x (by omega)

theorem Quiet.size (h : Quiet V oi m m') (hoi : V.Inode oi) : oiSize m' oi = oiSize m oi :=
  Mem.get32_congr fun _ _ _ => h.inode hoi (by omega)

theorem Quiet.fileblks (h : Quiet V oi m m') (hoi : V.Inode oi) :
    fileblks m' oi = fileblks m oi := by
  unfold Volume.fileblks
  rw [h.size hoi]

namespace Placed

theorem ptr_congr (h : Placed V m oi) (hq : Quiet V oi m m') {p : Place}
    (hp : p.InUse (fileblks m oi)) : ptr m' oi p = ptr m oi p := by
  induction p using Place.parent_induction with
  | h p ih =>
    obtain ⟨hpres, hslot⟩ : (Present m' oi p ↔ Present m oi p) ∧ slot m' oi p = slot m oi p :=
      place_congr fun r hr => ih r hr (Place.inUse_of_parent hr hp)
    by_cases hp' : Present m oi p
    case neg => rw [ptr_of_not_present (fun h' => hp' (hpres.1 h')), ptr_of_not_present hp']
    rw [ptr_of_present (hpres.2 hp'), ptr_of_present hp', hslot]
    refine Mem.get32_congr fun x hx hx' => ?_
    rcases hpar : p.parent with _ | r
    · have := Place.idx_lt_of_none hpar
      rw [slot_of_none hpar] at hx hx'
      exact hq.inode h.inode (by omega)
    · have h0 := hp'.2 r hpar
      have hr := Place.inUse_of_parent hpar hp
      have := Place.idx_lt_of_some hp'.1 hpar
      rw [slot_of_some hpar, (h.data r hr h0).block] at hx hx'
      exact hq.tables r (Place.parent_isTable hpar) hr h0 x (by omega) (by omega)

theorem congr (h : Placed V m oi) (hq : Quiet V oi m m') : Placed V m' oi := by
  have hn := hq.fileblks h.inode
  have := V.firstinob_ge
  have := V.firstdata_ge
  refine ⟨h.inode, ?_, hn ▸ h.size, ?_, fun p hp h0 => ?_, fun p r hp hr h0 he => ?_⟩
  · have hty : oiFtype m' oi = oiFtype m oi :=
      Mem.get32_congr fun _ _ _ => hq.inode h.inode (by omega)
    rw [hty]
    exact h.pointers
  · rcases h.mapped with hz | hm
    · exact .inl fun x hx => (hq.low x (by omega)).trans (hz x hx)
    · refine .inr fun b hb => ?_
      rw [hn] at hb
      rw [h.ptr_congr hq (p := .leaf b) hb]
      exact hm b hb
  · rw [hn] at hp
    rw [h.ptr_congr hq hp] at h0 ⊢
    exact h.data p hp h0
  · rw [hn] at hp hr
    rw [h.ptr_congr hq hp] at h0 he
    rw [h.ptr_congr hq hr] at he
    exact h.once p r hp hr h0 he

theorem inUse (hp : p < oiSize m oi) : p / 1024 < fileblks m oi := by
  unfold fileblks
  omega

theorem inodeBlockno (h : Placed V m oi) (hp : p < oiSize m oi) :
    ospfsInodeBlockno m oi p = ptr m oi (.leaf (p / 1024)) := by
  have hb := inUse hp
  rcases h.mapped with hz | hm
  · exact hz.ospfsInodeBlockno hp h.pointers (Nat.lt_of_lt_of_le hb h.size)
  · have hno := inodeBlockno_ptr (i := p / 1024) (by omega) h.pointers (hm _ hb)
    rw [inodeBlockno_block (hno.trans_ne (hm _ hb)) hp (by omega), hno]

theorem inodeData (h : Placed V m oi) (hp : p < oiSize m oi)
    (h0 : ospfsInodeBlockno m oi p ≠ 0) :
    ospfsInodeData m oi p = 1024 * ptr m oi (.leaf (p / 1024)) + p % 1024 := by
  unfold ospfsInodeData
  rw [h.inodeBlockno hp] at h0 ⊢
  rw [(h.data (.leaf (p / 1024)) (inUse hp) h0).block]

theorem inodeData_inj (h : Placed V m oi) (hp : p < oiSize m oi) (hq : q < oiSize m oi)
    (hp0 : ospfsInodeBlockno m oi p ≠ 0) (hq0 : ospfsInodeBlockno m oi q ≠ 0)
    (he : ospfsInodeData m oi p = ospfsInodeData m oi q) : p = q := by
  rw [h.inodeData hp hp0, h.inodeData hq hq0] at he
  rw [h.inodeBlockno hp] at hp0
  have hleaf := h.once (.leaf (p / 1024)) (.leaf (q / 1024)) (inUse hp) (inUse hq) hp0 (by omega)
  rw [Place.leaf.injEq] at hleaf
  omega

/-- A write to bytes of the file changes no pointer. -/
theorem quiet (h : Placed V m oi)
    (hout : ∀ x, (∀ p < oiSize m oi, ospfsInodeBlockno m oi p ≠ 0 → x ≠ ospfsInodeData m oi p) →
      w x = m x) : Quiet V oi m w := by
  refine ⟨fun x hx => hout x fun p hp h0 he => ?_, fun t ht hn ht0 x hx hx' =>
    hout x fun p hp h0 he => ?_⟩
  · rw [h.inodeData hp h0] at he
    rw [h.inodeBlockno hp] at h0
    have := (h.data (.leaf (p / 1024)) (inUse hp) h0).address
    omega
  · rw [h.inodeData hp h0] at he
    rw [h.inodeBlockno hp] at h0
    have hleaf := h.once (.leaf (p / 1024)) t (inUse hp) hn h0 (by omega)
    rw [← hleaf] at ht
    exact ht

theorem inodeBlockno_quiet (h : Placed V m oi) (hq : Quiet V oi m w) (hp : p < oiSize m oi) :
    ospfsInodeBlockno w oi p = ospfsInodeBlockno m oi p := by
  rw [(h.congr hq).inodeBlockno (by rwa [hq.size h.inode]), h.inodeBlockno hp]
  exact h.ptr_congr hq (p := .leaf _) (inUse hp)

theorem inodeData_quiet (h : Placed V m oi) (hq : Quiet V oi m w) (hp : p < oiSize m oi) :
    ospfsInodeData w oi p = ospfsInodeData m oi p := by
  unfold ospfsInodeData
  rw [h.inodeBlockno_quiet hq hp]

/-! ## The loop of `ospfs_write` -/

theorem lt_size (h0 : ospfsInodeBlockno m oi p ≠ 0) : p < oiSize m oi := by
  by_contra hge
  refine h0 ?_
  unfold ospfsInodeBlockno
  exact if_pos (.inl (Nat.le_of_not_lt hge))

/-- A piece stays in its block, so the loop changes no pointer, whatever the positions. -/
theorem written_quiet (h : Placed V m oi) (hk : Stored m oi count pos buffer k) :
    Quiet V oi m (written m oi count pos buffer k) := by
  induction k with
  | zero => exact ⟨fun _ _ => rfl, fun _ _ _ _ _ _ _ => rfl⟩
  | succ k ih =>
    have hq := ih fun j hj => hk j (Nat.lt_succ_of_lt hj)
    obtain ⟨hlt, h0⟩ := hk k (Nat.lt_succ_self k)
    have hin : cut 1024 pos k % 2 ^ 32 < oiSize m oi := by
      rw [← hq.size h.inode]
      exact lt_size h0
    rw [h.inodeBlockno_quiet hq hin, h.inodeBlockno hin] at h0
    have hd := h.data (.leaf _) (inUse hin) h0
    have := hd.address
    have hnext : cut 1024 pos (k + 1) = 1024 * (cut 1024 pos k / 1024 + 1) := cut_succ (by decide)
    have hlen : reach 1024 pos count (k + 1) ≤ cut 1024 pos (k + 1) := Nat.min_le_left _ _
    have hcut := reach_of_lt hlt
    have hout (x : Nat) (hx : x < 1024 * ptr m oi (.leaf (cut 1024 pos k % 2 ^ 32 / 1024)) ∨
        1024 * ptr m oi (.leaf (cut 1024 pos k % 2 ^ 32 / 1024)) + 1024 ≤ x) :
        written m oi count pos buffer (k + 1) x = written m oi count pos buffer k x := by
      rw [written, h.inodeBlockno_quiet hq hin, h.inodeBlockno hin, hd.block]
      refine Mem.store_of_ne ?_
      rw [length_copyFromUser]
      omega
    refine ⟨fun x hx => (hout x (by omega)).trans (hq.low x hx), fun t ht hn ht0 x hx hx' =>
      (hout x ?_).trans (hq.tables t ht hn ht0 x hx hx')⟩
    by_contra hno
    have hleaf := h.once (.leaf _) t (inUse hin) hn h0 (by omega)
    rw [← hleaf] at ht
    exact ht

/-- **The pieces land in the file**: at the addresses of the positions written. -/
theorem written_outside (h : Placed V m oi) (hin : pos + count ≤ oiSize m oi)
    (hk : Stored m oi count pos buffer k) (x : Nat)
    (hx : ∀ p, pos ≤ p → p < reach 1024 pos count k → ospfsInodeBlockno m oi p ≠ 0 →
      x ≠ ospfsInodeData m oi p) : written m oi count pos buffer k x = m x := by
  induction k generalizing x with
  | zero => rfl
  | succ k ih =>
    have hsize : oiSize m oi < 2 ^ 32 := Mem.get32_lt
    have hk' : Stored m oi count pos buffer k := fun j hj => hk j (Nat.lt_succ_of_lt hj)
    obtain ⟨hlt, h0⟩ := hk k (Nat.lt_succ_self k)
    have hq := h.written_quiet hk'
    rw [Nat.mod_eq_of_lt (by omega), h.inodeBlockno_quiet hq (by omega)] at h0
    have hmono := reach_lt_succ hlt
    have hcut := reach_of_lt hlt
    have hstart : pos ≤ cut 1024 pos k := le_cut (by decide)
    unfold written
    simp only
    rw [Nat.mod_eq_of_lt (by omega), h.inodeBlockno_quiet hq (by omega), Mem.store_of_ne]
    · exact ih hk' x fun p hp hp' => hx p hp (by omega)
    · rw [length_copyFromUser]
      by_contra hno
      obtain ⟨hp0, ha⟩ := piece_address hin h0 (p := cut 1024 pos k + (x -
        (ospfsBlock (ospfsInodeBlockno m oi (cut 1024 pos k)) + cut 1024 pos k % 1024)))
        (by omega) (by omega)
      exact hx _ (by omega) (by omega) hp0 (by omega)

theorem written_inside (h : Placed V m oi) (hin : pos + count ≤ oiSize m oi)
    (hbuf : ∀ i < count, (buffer i).isSome) (hk : Stored m oi count pos buffer k)
    (hp : pos ≤ p) (hp' : p < reach 1024 pos count k) :
    ospfsInodeBlockno m oi p ≠ 0 ∧
      written m oi count pos buffer k (ospfsInodeData m oi p) = (buffer (p - pos)).getD 0 := by
  induction k with
  | zero =>
    rw [reach_zero] at hp'
    omega
  | succ k ih =>
    have hsize : oiSize m oi < 2 ^ 32 := Mem.get32_lt
    have hk' : Stored m oi count pos buffer k := fun j hj => hk j (Nat.lt_succ_of_lt hj)
    obtain ⟨hlt, h0⟩ := hk k (Nat.lt_succ_self k)
    have hq := h.written_quiet hk'
    rw [Nat.mod_eq_of_lt (by omega), h.inodeBlockno_quiet hq (by omega)] at h0
    have hmono := reach_lt_succ hlt
    have hcut := reach_of_lt hlt
    have hstart : pos ≤ cut 1024 pos k := le_cut (by decide)
    have hlast : reach 1024 pos count (k + 1) ≤ pos + count := reach_le
    unfold written
    simp only
    rw [Nat.mod_eq_of_lt (by omega), h.inodeBlockno_quiet hq (by omega)]
    rcases Nat.lt_or_ge p (cut 1024 pos k) with hold | hnew
    · -- a byte of an earlier piece
      obtain ⟨hp0, hbyte⟩ := ih hk' (by omega)
      refine ⟨hp0, ?_⟩
      rw [Mem.store_of_ne, hbyte]
      rw [length_copyFromUser]
      by_contra hno
      obtain ⟨hq0, ha⟩ := piece_address hin h0 (p := cut 1024 pos k + (ospfsInodeData m oi p -
        (ospfsBlock (ospfsInodeBlockno m oi (cut 1024 pos k)) + cut 1024 pos k % 1024)))
        (by omega) (by omega)
      have := h.inodeData_inj (by omega) (by omega) hp0 hq0 (by omega)
      omega
    · obtain ⟨hp0, ha⟩ := piece_address hin h0 hnew hp'
      refine ⟨hp0, ?_⟩
      rw [ha, copyFromUser_of_readable fun i hi => hbuf _ (by omega), Mem.store_of_lt (by
        rw [List.length_map, List.length_range]; omega), List.getElem_map, List.getElem_range]
      congr 2
      omega

theorem writeLoop_ok (h : Placed V m oi) (hmap : ∀ b < fileblks m oi, ptr m oi (.leaf b) ≠ 0)
    (hin : pos + count ≤ oiSize m oi) (hbuf : ∀ i < count, (buffer i).isSome) :
    ∃ k, writeLoop oi count buffer count 0 pos m =
        some (⟨.ok count, pos + count, []⟩, written m oi count pos buffer k) ∧
      Stored m oi count pos buffer k ∧ pos + count ≤ cut 1024 pos k := by
  obtain ⟨⟨ret, fPos, out⟩, k, ht, hend, hout, hk, hcut⟩ := writeLoop_start m oi count pos buffer
  rcases hend with ⟨hret, hpos, -⟩ | ⟨e, j, -, -, ⟨hlt, hfail⟩, hpast⟩
  · cases hret
    cases hpos
    cases hout
    exact ⟨k, ht, hk, hcut rfl⟩
  have hsize : oiSize m oi < 2 ^ 32 := Mem.get32_lt
  have hj : Stored m oi count pos buffer j := by
    intro i hi
    have hmono : cut 1024 pos i < cut 1024 pos j := cut_strictMono (by decide) hi
    exact ⟨by omega, fun h0 => hpast i hi ⟨by omega, .inl h0⟩⟩
  have hstart : pos ≤ cut 1024 pos j := le_cut (by decide)
  rcases hfail with h0 | hc
  · rw [Nat.mod_eq_of_lt (by omega), h.inodeBlockno_quiet (h.written_quiet hj) (by omega),
      h.inodeBlockno (by omega)] at h0
    exact absurd h0 (hmap _ (inUse (by omega)))
  · have hlast : reach 1024 pos count (j + 1) ≤ pos + count := reach_le
    rw [reach_of_lt hlt, copyFromUser_of_readable fun i hi => hbuf _ (by omega)] at hc
    cases hc

end Placed

/-! ## All files of a disk -/

structure File (V : Volume) (m : Mem) (oi : Nat) : Prop where
  inode : V.Inode oi
  live : oiNlink m oi ≠ 0
  pointers : oiFtype m oi ≠ ftypeSymlink

/-- Every data block and every table of every file is a data block of the disk,
used at one place only. -/
structure FileSystem (V : Volume) (m : Mem) : Prop where
  nblocks : osNblocks m = V.nblocks
  ninodes : osNinodes m = V.ninodes
  firstinob : osFirstinob m = V.firstinob
  data : ∀ oi, V.File m oi → ∀ p : Place, p.InUse (fileblks m oi) → V.IsData (ptr m oi p)
  once : ∀ oi oi' p q, V.File m oi → V.File m oi' → p.InUse (fileblks m oi) →
    q.InUse (fileblks m oi') → ptr m oi p = ptr m oi' q → oi = oi' ∧ p = q

namespace FileSystem

theorem placed (h : V.FileSystem m) (hf : V.File m oi) : Placed V m oi := by
  have hdata := h.data oi hf
  refine ⟨hf.inode, hf.pointers, ?_, .inr fun b hb => (hdata (.leaf b) hb).ne_zero,
    fun p hp _ => hdata p hp, fun p q hp hq _ he => (h.once oi oi p q hf hf hp hq he).2⟩
  by_contra hgt
  refine (hdata (.leaf maxfileblks) (Nat.lt_of_not_le hgt)).ne_zero ?_
  exact ptr_of_not_present fun hp => Nat.lt_irrefl _ hp.1

theorem other (h : V.FileSystem m) (hf : V.File m oi) (hf' : V.File m oi') (hne : oi' ≠ oi)
    (hout : ∀ x, (∀ p < oiSize m oi, ospfsInodeBlockno m oi p ≠ 0 → x ≠ ospfsInodeData m oi p) →
      w x = m x) (p : Place) (hp : p.InUse (fileblks m oi'))
    (hx : 1024 * ptr m oi' p ≤ x) (hx' : x < 1024 * ptr m oi' p + 1024) : w x = m x := by
  refine hout x fun q hq h0 he => ?_
  have hpl := h.placed hf
  rw [hpl.inodeData hq h0] at he
  have hsame : ptr m oi (.leaf (q / 1024)) = ptr m oi' p := by omega
  exact hne (h.once oi oi' (.leaf (q / 1024)) p hf hf' (Placed.inUse hq) hp hsame).1.symm

end FileSystem

/-- What a write of `count` bytes within the file does: reading gives the old
bytes with the new ones in place. Every other file, so every directory, keeps its
bytes, and nothing changes below the data blocks, where superblock, bitmap and inodes are. -/
structure Overwritten (V : Volume) (oi pos count : Nat) (buffer : Nat → Option UInt8)
    (m m' : Mem) : Prop where
  read : ∀ q n, q ≤ oiSize m oi → n < 2 ^ 32 →
    ospfsRead m' oi n q (fun _ => true) =
      some ⟨.ok (min n (oiSize m oi - q)), q + min n (oiSize m oi - q),
        (List.range (min n (oiSize m oi - q))).map fun i =>
          if pos ≤ q + i ∧ q + i < pos + count then (buffer (q + i - pos)).getD 0
          else m (ospfsInodeData m oi (q + i))⟩
  others : ∀ oi', V.File m oi' → oi' ≠ oi → ∀ p < oiSize m oi',
    ospfsInodeData m' oi' p = ospfsInodeData m oi' p ∧
      m' (ospfsInodeData m oi' p) = m (ospfsInodeData m oi' p)
  entries : ∀ d, V.File m d → oiFtype m d = ftypeDir → ∀ off < oiSize m d, off % 128 = 0 →
    ospfsInodeData m' d off = ospfsInodeData m d off ∧
      m'.load (ospfsInodeData m d off) 128 = m.load (ospfsInodeData m d off) 128
  low : ∀ x < 1024 * V.firstdata, m' x = m x
  bitmap : ∀ b < V.nblocks, isFree m' b = isFree m b

theorem FileSystem.overwritten (h : V.FileSystem m) (hf : V.File m oi)
    (hreg : oiFtype m oi = ftypeReg) (hin : pos + count ≤ oiSize m oi)
    (hbuf : ∀ i < count, (buffer i).isSome) (hk : Stored m oi count pos buffer k)
    (hcut : pos + count ≤ cut 1024 pos k) :
    Overwritten V oi pos count buffer m (written m oi count pos buffer k) := by
  have hpl := h.placed hf
  have hreach : reach 1024 pos count k = pos + count := Nat.min_eq_right hcut
  have hall : ∀ x, (∀ p < oiSize m oi, ospfsInodeBlockno m oi p ≠ 0 →
      x ≠ ospfsInodeData m oi p) → written m oi count pos buffer k x = m x :=
    fun x hx => hpl.written_outside hin hk x fun p _ hp => hx p (by omega)
  have hq := hpl.quiet hall
  have hno (p : Nat) (hp : p < oiSize m oi) : ospfsInodeBlockno m oi p ≠ 0 := by
    rw [hpl.inodeBlockno hp]
    exact (h.data oi hf (.leaf _) (Placed.inUse hp)).ne_zero
  have hquiet (oi' : Nat) (hf' : V.File m oi') (hne : oi' ≠ oi) :
      Quiet V oi' m (written m oi count pos buffer k) :=
    ⟨hq.low, fun p _ hp _ x hx hx' => h.other hf hf' hne hall p hp hx hx'⟩
  have hblock (oi' : Nat) (hf' : V.File m oi') (hne : oi' ≠ oi) (p : Nat) (hp : p < oiSize m oi')
      (j : Nat) (hj : p % 1024 + j < 1024) : written m oi count pos buffer k
        (ospfsInodeData m oi' p + j) = m (ospfsInodeData m oi' p + j) := by
    have hpl' := h.placed hf'
    have h0 := (h.data oi' hf' (.leaf _) (Placed.inUse hp)).ne_zero
    rw [hpl'.inodeData hp ((hpl'.inodeBlockno hp).trans_ne h0)]
    exact h.other hf hf' hne hall (.leaf (p / 1024)) (Placed.inUse hp) (by omega) (by omega)
  refine ⟨fun q n hqs hn => ?_, fun oi' hf' hne p hp =>
      ⟨(h.placed hf').inodeData_quiet (hquiet oi' hf' hne) hp, ?_⟩,
    fun d hd hdir off hoff hal => ?_, hq.low, fun b hb => ?_⟩
  · have hsize := hq.size hf.inode
    have hmap : Mapped (written m oi count pos buffer k) oi := by
      intro b hb
      rw [hsize] at hb
      rw [hpl.inodeBlockno_quiet hq hb]
      exact hno _ hb
    have hq63 : q < 2 ^ 63 := by
      have : oiSize m oi < 2 ^ 32 := Mem.get32_lt
      omega
    have hread := (ospfsRead_content_iff hmap hn hq63).2 (.inl (by omega))
    rw [hsize] at hread
    rw [hread]
    refine congrArg (fun bs => some (Transfer.mk _ _ bs)) (List.map_congr_left fun i hi => ?_)
    rw [List.mem_range] at hi
    rw [hpl.inodeData_quiet hq (by omega)]
    split
    · rename_i hw
      exact (hpl.written_inside hin hbuf hk hw.1 (by omega)).2
    · rename_i hw
      refine hpl.written_outside hin hk _ fun p hp hp' h0 he => hw ?_
      rw [hpl.inodeData_inj (by omega) (by omega) (hno _ (by omega)) h0 he]
      omega
  · exact hblock oi' hf' hne p hp 0 (by omega)
  · have hne : d ≠ oi := by
      rintro rfl
      rw [hreg] at hdir
      cases hdir
    refine ⟨(h.placed hd).inodeData_quiet (hquiet d hd hne) hoff, ?_⟩
    refine Mem.load_congr fun x hx hx' => ?_
    have := hblock d hd hne off hoff (x - ospfsInodeData m d off) (by omega)
    rwa [Nat.add_sub_cancel' hx] at this
  · have := V.firstdata_ge
    exact isFree_congr (fun x _ hx => hq.low x (by omega)) hb

/-- **Overwriting in place touches only its bytes.** -/
theorem ospfsWrite_overwrites (h : V.FileSystem m) (hf : V.File m oi)
    (hreg : oiFtype m oi = ftypeReg) (hin : pos + count ≤ oiSize m oi)
    (hbuf : ∀ i < count, (buffer i).isSome) :
    ∃ m', ospfsWrite m oi false buffer count pos = some (⟨.ok count, pos + count, []⟩, m') ∧
      Overwritten V oi pos count buffer m m' := by
  have hsize : oiSize m oi < 2 ^ 32 := Mem.get32_lt
  have hroom : makeRoom m oi count pos = some (.ok (), m) := by
    unfold makeRoom
    rw [loffEnd_of_lt (by omega), if_neg (by omega)]
  obtain ⟨k, ht, hk, hcut⟩ := (h.placed hf).writeLoop_ok
    (fun b hb => (h.data oi hf (.leaf b) hb).ne_zero) hin hbuf
  refine ⟨_, ?_, h.overwritten hf hreg hin hbuf hk hcut⟩
  rw [ospfsWrite_eq, writeStart, if_neg Bool.false_ne_true, hroom]
  exact ht

def oneFileDisk : Mem := (sampleDisk 1 0).set32 3144 1

theorem oneFileDisk_file (h : sampleVolume.File oneFileDisk oi) : oi = 3136 := by
  obtain ⟨⟨ino, hlt, rfl⟩, hlive, -⟩ := h
  have hdead : ∀ i < 16, i ≠ 1 → oiNlink oneFileDisk (1024 * 3 + 64 * i) = 0 := by decide +kernel
  have hone : ino = 1 := by
    by_contra hne
    exact hlive (hdead ino hlt hne)
  rw [hone]
  rfl

theorem oneFileDisk_inUse {p : Place} (h : p.InUse (fileblks oneFileDisk 3136)) : p = .leaf 0 := by
  have hn : fileblks oneFileDisk 3136 = 1 := by decide +kernel
  rw [hn] at h
  unfold Place.InUse at h
  cases p with
  | leaf b => rw [Nat.lt_one_iff.1 h]
  | indirect => omega
  | indirect2 => omega
  | indir2 k => omega

theorem oneFileDisk_fileSystem : sampleVolume.FileSystem oneFileDisk := by
  refine ⟨by decide +kernel, by decide +kernel, by decide +kernel, fun oi hf p hp => ?_,
    fun oi oi' p q hf hf' hp hq _ => ?_⟩
  · have hoi := oneFileDisk_file hf
    subst hoi
    rw [oneFileDisk_inUse hp, show ptr oneFileDisk 3136 (.leaf 0) = 4 by decide +kernel]
    exact ⟨by decide, by decide⟩
  · have hoi := oneFileDisk_file hf
    have hoi' := oneFileDisk_file hf'
    subst hoi
    subst hoi'
    exact ⟨rfl, (oneFileDisk_inUse hp).trans (oneFileDisk_inUse hq).symm⟩

/-- Two bytes in the middle of that file are replaced. -/
theorem oneFileDisk_overwritten : ∃ m',
    ospfsWrite oneFileDisk 3136 false (fun _ => some 7) 2 500 = some (⟨.ok 2, 502, []⟩, m') ∧
      Overwritten sampleVolume 3136 500 2 (fun _ => some 7) oneFileDisk m' :=
  ospfsWrite_overwrites oneFileDisk_fileSystem
    ⟨⟨1, by decide, rfl⟩, by decide +kernel, by decide +kernel⟩ (by decide +kernel)
    (by decide +kernel) fun _ _ => rfl

end Volume

end OsLabs.Ospfs
