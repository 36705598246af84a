import OsLabs.Ospfs.Overwrite
import OsLabs.Ospfs.Boot

/-!
# OSPFS: writing past the end

`ospfs_write` gives the file the size it needs and then stores the bytes. The
end of the write is tested in 64 bits, but `change_size` gets its low 32 bits,
and rounds them up to blocks in 32 bits. Where neither wraps (`Fits`) a write
keeps the bytes below its position. Where the end wraps to a size below the
file's, the file is cut.
-/

namespace OsLabs.Ospfs

open Chunks

namespace Volume

variable {V : Volume} {m m' m₁ w : Mem} {oi c count pos start k n q : Nat} {append : Bool}
  {buffer : Nat → Option UInt8}

/-- The file's bytes below position `pos` are still there, and what they were. -/
def KeptBelow (m m' : Mem) (oi pos : Nat) : Prop :=
  ∀ q < oiSize m oi, q < pos → ospfsInodeBlockno m' oi q ≠ 0 ∧
    m' (ospfsInodeData m' oi q) = m (ospfsInodeData m oi q)

/-- A regular file whose blocks are all mapped, allocated and used at one place only. -/
structure Intact (V : Volume) (oi : Nat) (m : Mem) : Prop where
  mounted : V.Mounted m
  inode : V.Inode oi
  regular : oiFtype m oi = ftypeReg
  size : fileblks m oi ≤ maxfileblks
  mapped : ∀ b < fileblks m oi, ptr m oi (.leaf b) ≠ 0
  owns : Owns (ptr m oi) V.IsData
  taken : Taken m oi

theorem Intact.pointers (h : Intact V oi m) : oiFtype m oi ≠ ftypeSymlink := by
  rw [h.regular]
  decide

theorem Intact.placed (h : Intact V oi m) : Placed V m oi :=
  ⟨h.inode, h.pointers, h.size, .inr h.mapped, fun p _ h0 => h.owns.ok p h0,
    fun p q _ _ h0 he => h.owns.inj p q h0 he⟩

theorem Intact.held (h : Intact V oi m) (hz : BootZero m) : Held V oi (fileblks m oi) m := by
  refine ⟨h.mounted, h.owns, ?_, hz⟩
  have := h.size
  unfold fileblks maxfileblks at this
  unfold ospfsSize2nblocks fileblks
  omega

theorem Held.fileblks_eq (h : Held V oi c m) (hsize : oiSize m oi + 1023 < 2 ^ 32) :
    fileblks m oi = c := by
  have := h.count
  unfold ospfsSize2nblocks at this
  unfold fileblks
  omega

theorem Held.placed (h : Held V oi c m) (hoi : V.Inode oi) (hty : oiFtype m oi ≠ ftypeSymlink)
    (hsize : oiSize m oi + 1023 < 2 ^ 32) (hc : c ≤ maxfileblks) : Placed V m oi :=
  ⟨hoi, hty, (h.fileblks_eq hsize).trans_le hc, .inl h.boot, fun p _ h0 => h.points p h0,
    fun p q _ _ h0 he => h.owns.inj p q h0 he⟩

/-! ## The bytes below the position -/

theorem Intact.keptBelow (h : Intact V oi m) (hty : oiFtype m' oi ≠ ftypeSymlink)
    (hsize : oiSize m oi ≤ oiSize m' oi)
    (hleaf : ∀ b < fileblks m oi, ptr m' oi (.leaf b) = ptr m oi (.leaf b))
    (hbyte : ∀ b < fileblks m oi, ∀ x, 1024 * ptr m oi (.leaf b) ≤ x →
      x < 1024 * ptr m oi (.leaf b) + 1024 → m' x = m x) (pos : Nat) :
    KeptBelow m m' oi pos := by
  intro q hq _
  have hb := Placed.inUse hq
  have h0 := h.mapped _ hb
  have h0' : ptr m' oi (.leaf (q / 1024)) ≠ 0 := (hleaf _ hb).trans_ne h0
  have hno := h.placed.inodeBlockno hq
  have hno' : ospfsInodeBlockno m' oi q = ptr m oi (.leaf (q / 1024)) := by
    have hfirst := inodeBlockno_ptr (i := q / 1024) (by omega) hty h0'
    rw [inodeBlockno_block (hfirst.trans_ne h0') (by omega) (by omega), hfirst, hleaf _ hb]
  refine ⟨hno'.trans_ne h0, ?_⟩
  unfold ospfsInodeData
  rw [hno, hno', (h.owns.ok _ h0).block]
  exact hbyte _ hb _ (by omega) (by omega)

/-- The loop of `ospfs_write` stores nothing below its position. -/
theorem KeptBelow.written (h : KeptBelow m w oi pos) (hw : Placed V w oi)
    (hin : pos + count ≤ oiSize w oi) (hk : Stored w oi count pos buffer k) :
    KeptBelow m (written w oi count pos buffer k) oi pos := by
  intro q hq hlt
  obtain ⟨h0, hbyte⟩ := h q hq hlt
  have hqw := Placed.lt_size h0
  have hquiet := hw.written_quiet hk
  refine ⟨(hw.inodeBlockno_quiet hquiet hqw).trans_ne h0, ?_⟩
  rw [hw.inodeData_quiet hquiet hqw, hw.written_outside hin hk, hbyte]
  intro p hp hp' hp0 he
  have hle : reach 1024 pos count k ≤ pos + count := reach_le
  have := hw.inodeData_inj hqw (by omega) h0 hp0 he
  omega

/-! ## `ospfs_write` -/

/-- The call returns, the file is not shorter, the bytes below the write position are
kept, and a call that returns `count` leaves the size that the write needs. -/
def NoLoss (m : Mem) (oi : Nat) (append : Bool) (buffer : Nat → Option UInt8)
    (count pos : Nat) : Prop :=
  ∃ t m', ospfsWrite m oi append buffer count pos = some (t, m') ∧
    oiSize m oi ≤ oiSize m' oi ∧ KeptBelow m m' oi (writeStart m oi append pos) ∧
    (t.ret = .ok count → oiSize m' oi = max (oiSize m oi) (writeStart m oi append pos + count))

/-- The write ends within the file; or the boot block is empty or not read, the write starts
below 2 ^ 32, its end modulo 2 ^ 32 is not below the file's size and can be rounded up to
blocks, and the file can have so many blocks (or the disk has not). -/
def Fits (m : Mem) (oi count start : Nat) : Prop :=
  start + count ≤ oiSize m oi ∨
    ((BootZero m ∨ BootUnread m oi (fileblks m oi)
        (ospfsSize2nblocks ((count + start) % 2 ^ 32))) ∧
      start < 2 ^ 32 ∧ oiSize m oi ≤ (count + start) % 2 ^ 32 ∧
      (count + start) % 2 ^ 32 + 1023 < 2 ^ 32 ∧
      (ospfsSize2nblocks ((count + start) % 2 ^ 32) ≤ maxfileblks ∨
        fileblks m oi + freeBlocks m < maxfileblks))

theorem makeRoom_past (hgt : oiSize m oi < start + count) (hlt : count + start < 2 ^ 63) :
    makeRoom m oi count start = changeSize m oi ((count + start) % 2 ^ 32) := by
  unfold makeRoom
  rw [loffEnd_of_lt hlt, if_pos (by omega)]

theorem makeRoom_within (hle : start + count ≤ oiSize m oi) :
    makeRoom m oi count start = some (.ok (), m) := by
  have : oiSize m oi < 2 ^ 32 := Mem.get32_lt
  unfold makeRoom
  rw [loffEnd_of_lt (by omega), if_neg (by omega)]

theorem stored_eq_zero (h : Stored w oi count start buffer k) (hstart : start < 2 ^ 32)
    (hpast : oiSize w oi ≤ start) : k = 0 := by
  by_contra hk
  obtain ⟨-, h0⟩ := h 0 (Nat.pos_of_ne_zero hk)
  have hlt := Placed.lt_size h0
  rw [cut_zero, Nat.mod_eq_of_lt hstart] at hlt
  exact Nat.not_lt.2 hpast hlt

theorem KeptBelow.writeLoop (h : KeptBelow m w oi start) (hw : Placed V w oi)
    (hsize : oiSize m oi ≤ oiSize w oi) (hstart : start < 2 ^ 32)
    (hend : start + count = oiSize w oi ∨ (oiSize w oi ≤ start ∧ 0 < count)) :
    ∃ t m', writeLoop oi count buffer count 0 start w = some (t, m') ∧
      oiSize m oi ≤ oiSize m' oi ∧ KeptBelow m m' oi start ∧
      (t.ret = .ok count → oiSize m' oi = max (oiSize m oi) (start + count)) := by
  obtain ⟨t, j, ht, -, -, hj, hcut⟩ := writeLoop_start w oi count start buffer
  have hquiet := (hw.written_quiet hj).size hw.inode
  refine ⟨t, _, ht, hsize.trans_eq hquiet.symm, ?_, fun hret => ?_⟩
  · rcases hend with heq | ⟨hpast, -⟩
    · exact h.written hw heq.le hj
    · rw [stored_eq_zero hj hstart hpast]
      exact h
  · rw [hquiet]
    rcases hend with heq | ⟨hpast, hpos⟩
    · omega
    · have hge := hcut hret
      rw [stored_eq_zero hj hstart hpast, cut_zero] at hge
      omega

theorem Intact.noLoss_within (h : Intact V oi m)
    (hle : writeStart m oi append pos + count ≤ oiSize m oi) :
    NoLoss m oi append buffer count pos := by
  unfold NoLoss
  rw [ospfsWrite_eq]
  generalize writeStart m oi append pos = start at hle ⊢
  rw [makeRoom_within hle]
  have hpl := h.placed
  have hkept : KeptBelow m m oi start := fun q hq _ =>
    ⟨(hpl.inodeBlockno hq).trans_ne (h.mapped _ (Placed.inUse hq)), rfl⟩
  obtain ⟨t, j, ht, -, -, hj, -⟩ := writeLoop_start m oi count start buffer
  have hquiet := (hpl.written_quiet hj).size h.inode
  refine ⟨t, _, ht, hquiet.ge, hkept.written hpl hle hj, fun _ => ?_⟩
  rw [hquiet, Nat.max_eq_left hle]

theorem Intact.above (h : Intact V oi m) (hm : Above m w) : Intact V oi w := by
  have hin := h.inode.behind
  have hptr := Points.ptr_above h.owns.ok hm.symm h.inode
  have hfun : ptr w oi = ptr m oi := funext hptr
  have hblks : fileblks w oi = fileblks m oi := by
    have hsize : oiSize w oi = oiSize m oi := hm.get32 hin
    unfold fileblks
    rw [hsize]
  have hbit (b : Nat) : isFree w b = isFree m b := hm.bitvectorTest b
  refine ⟨h.mounted.congr (fun x hx _ => hm x hx) fun b hb => ?_, h.inode, ?_, ?_,
    fun b hb => ?_, ?_, fun p h0 => ?_⟩
  · rw [hbit]
    exact h.mounted.low b hb
  · exact (hm.get32 (a := oi + 4) (by omega)).trans h.regular
  · rw [hblks]
    exact h.size
  · rw [hblks] at hb
    rw [hptr]
    exact h.mapped b hb
  · rw [hfun]
    exact h.owns
  · rw [hptr] at h0 ⊢
    rw [hbit]
    exact h.taken p h0

/-- What a greater size leaves of a file: its blocks and bytes, and where there is room
for it a file of that size. -/
structure Grown (V : Volume) (oi newSize : Nat) (m m' : Mem) (res : Ret) : Prop where
  points : V.Points m' oi
  ftype : oiFtype m' oi = oiFtype m oi
  leaves : ∀ b < fileblks m oi, ptr m' oi (.leaf b) = ptr m oi (.leaf b)
  bytes : ∀ b < fileblks m oi, ∀ x, 1024 * ptr m oi (.leaf b) ≤ x →
    x < 1024 * ptr m oi (.leaf b) + 1024 → m' x = m x
  out : (res = .ok () ∧ oiSize m' oi = newSize ∧ Placed V m' oi) ∨
    (res = .error .eNoSpc ∧ oiSize m' oi = oiSize m oi)

theorem Grown.above {newSize : Nat} {m' w' : Mem} {res : Ret} (hg : Grown V oi newSize w w' res)
    (h : Intact V oi m) (hm : Above m w) (hab : Above m' w') (hround : newSize + 1023 < 2 ^ 32)
    (hmap : res = .ok () → ∀ b < ospfsSize2nblocks newSize, ptr w' oi (.leaf b) ≠ 0) :
    Grown V oi newSize m m' res := by
  have hin := h.inode.behind
  have hptr := Points.ptr_above h.owns.ok hm.symm h.inode
  have hptr' := hg.points.ptr_above hab h.inode
  have hfun : ptr m' oi = ptr w' oi := funext hptr'
  have hblks {m w : Mem} (hm : Above m w) : fileblks w oi = fileblks m oi := by
    have hsize : oiSize w oi = oiSize m oi := hm.get32 hin
    unfold fileblks
    rw [hsize]
  have hsize {m w : Mem} (hm : Above m w) : oiSize w oi = oiSize m oi := hm.get32 hin
  have hty {m w : Mem} (hm : Above m w) : oiFtype w oi = oiFtype m oi := hm.get32 (by omega)
  refine ⟨?_, ?_, fun b hb => ?_, fun b hb x hx hx' => ?_, ?_⟩
  · unfold Points
    rw [hfun]
    exact hg.points
  · rw [← hty hab, hg.ftype, hty hm]
  · rw [hptr', hg.leaves b (by rwa [hblks hm]), hptr]
  · have := Nat.pos_of_ne_zero (h.mapped b hb)
    rw [← hab x (by omega), ← hm x (by omega)]
    rw [← hptr] at hx hx'
    exact hg.bytes b (by rwa [hblks hm]) x hx hx'
  · rw [← hsize hab, ← hsize hm]
    refine hg.out.imp_left fun ⟨hok, hs, hw⟩ => ⟨hok, hs, h.inode, ?_, ?_, ?_, ?_, ?_⟩
    · rw [← hty hab]
      exact hw.pointers
    · rw [← hblks hab]
      exact hw.size
    · refine .inr fun b hb => ?_
      rw [hptr']
      refine hmap hok b ?_
      rw [← hblks hab] at hb
      unfold fileblks at hb
      unfold ospfsSize2nblocks
      omega
    · rw [← hblks hab, hfun]
      exact hw.data
    · rw [← hblks hab, hfun]
      exact hw.once

section

variable {newSize : Nat} (h : Intact V oi m) (hge : oiSize m oi ≤ newSize)
  (hround : newSize + 1023 < 2 ^ 32)
  (hlim : ospfsSize2nblocks newSize ≤ maxfileblks ∨ fileblks m oi + freeBlocks m < maxfileblks)

include h hge hround hlim

theorem Intact.grown (hz : BootZero m) :
    ∃ res m', changeSize m oi newSize = some (res, m') ∧ Grown V oi newSize m m' res := by
  have hh := h.held hz
  have hk : fileblks m oi ≤ ospfsSize2nblocks newSize := by
    unfold fileblks ospfsSize2nblocks
    omega
  obtain ⟨hlo, hhi, -⟩ := h.inode.address
  have hleaf (b : Nat) (hb : b < fileblks m oi) (x : Nat) (hx : 1024 * ptr m oi (.leaf b) ≤ x)
      (hx' : x < 1024 * ptr m oi (.leaf b) + 1024) : Far V oi m x :=
    hh.leaf_far h.taken h.inode (h.mapped b hb) hx hx'
  rcases hh.changeSize_grow h.taken h.inode newSize hk hlim with
    ⟨m₁, he, hh₁, -, hg⟩ | ⟨m₁, he, hu⟩
  · obtain ⟨hw, -, hptr⟩ := hh₁.set_size h.inode (v := newSize) (by omega) rfl
    have hsize : oiSize (m₁.set32 oi newSize) oi = newSize := Mem.get32_set32_of_lt (by omega)
    have hty : oiFtype (m₁.set32 oi newSize) oi = oiFtype m oi := by
      have hsame : oiFtype (m₁.set32 oi newSize) oi = oiFtype m₁ oi := Mem.get32_set32_ne (by omega)
      rw [hsame, hg.ftype]
    have hmax : ospfsSize2nblocks newSize ≤ maxfileblks := by
      have := hg.room
      omega
    refine ⟨_, _, he, hw.points, hty, fun b hb => (hptr _).trans (hg.leaves b hb),
      fun b hb x hx hx' => ?_, .inl ⟨rfl, hsize, ?_⟩⟩
    · have := (hh.points _ (h.mapped b hb)).address
      rw [Mem.set32_of_ne (by omega)]
      exact (hg.far x (hleaf b hb x hx hx')).2
    · exact hw.placed h.inode (hty.trans_ne h.pointers) (by omega) hmax
  · refine ⟨_, _, he, hu.held.points, Mem.get32_congr fun x hx hx' => hu.far x ?_,
      fun b hb => hu.leaves b hb (h.mapped b hb),
      fun b hb x hx hx' => hu.far x (hleaf b hb x hx hx'), .inr ⟨rfl, hu.size⟩⟩
    exact hh.head_far h.inode hx (by omega)

/-- Growth that does not read the boot block is what it is on the disk with an empty one. -/
theorem Intact.grown_unread (hu : BootUnread m oi (fileblks m oi) (ospfsSize2nblocks newSize)) :
    ∃ res m', changeSize m oi newSize = some (res, m') ∧ Grown V oi newSize m m' res := by
  have hm := emptyBoot_above m
  have hin := h.inode.behind
  have hw := h.above hm
  have hsize : oiSize (emptyBoot m) oi = oiSize m oi := hm.get32 hin
  have hblks : fileblks (emptyBoot m) oi = fileblks m oi := by
    unfold fileblks
    rw [hsize]
  have hh := hw.held (emptyBoot_zero m)
  have hk : fileblks (emptyBoot m) oi ≤ ospfsSize2nblocks newSize := by
    unfold fileblks ospfsSize2nblocks
    omega
  rw [← hblks, ← hm.freeBlocks] at hlim
  rw [← hblks] at hu
  obtain ⟨res, m', w', he, hew, hab, hmap⟩ := hh.changeSize_above hw.taken h.inode hm hw.mapped hk
    hlim (hu.above hm hw.owns.ok h.inode)
  obtain ⟨res', w'', hew', hg⟩ := hw.grown (hsize.trans_le hge) hround hlim (emptyBoot_zero m)
  rw [hew] at hew'
  cases hew'
  exact ⟨res, m', he, hg.above h hm hab hround hmap⟩

end

/-- A write behind the end whose end does not wrap below the file's size. -/
theorem Intact.noLoss_past (h : Intact V oi m) (hc : count < 2 ^ 32)
    (hgt : oiSize m oi < writeStart m oi append pos + count)
    (hfit : Fits m oi count (writeStart m oi append pos)) :
    NoLoss m oi append buffer count pos := by
  unfold NoLoss
  rw [ospfsWrite_eq]
  generalize writeStart m oi append pos = start at hgt hfit ⊢
  obtain hle | ⟨hboot, hstart, hge, hround, hlim⟩ := hfit
  · omega
  rw [makeRoom_past hgt (by omega)]
  have hend : start + count = (count + start) % 2 ^ 32 ∨
      ((count + start) % 2 ^ 32 ≤ start ∧ 0 < count) := by omega
  generalize (count + start) % 2 ^ 32 = newSize at hboot hge hround hlim hend ⊢
  obtain ⟨res, m₁, he, hg⟩ :
      ∃ res m', changeSize m oi newSize = some (res, m') ∧ Grown V oi newSize m m' res :=
    hboot.elim (h.grown hge hround hlim) (h.grown_unread hge hround hlim)
  have hty := hg.ftype.trans_ne h.pointers
  rw [he]
  rcases hg.out with ⟨rfl, hsize, hw⟩ | ⟨rfl, hsize⟩
  · have hkept := h.keptBelow hty (hge.trans_eq hsize.symm) hg.leaves hg.bytes start
    refine hkept.writeLoop hw (by omega) hstart ?_
    rw [hsize]
    exact hend
  · exact ⟨_, _, rfl, hsize.ge, h.keptBelow hty hsize.ge hg.leaves hg.bytes start,
      fun hret => by cases hret⟩

/-- An end that wraps below the file's size cuts the file. -/
theorem Intact.cut_of_wraps (h : Intact V oi m) (buffer : Nat → Option UInt8) (hz : BootZero m)
    (hn : fileblks m oi < maxfileblks)
    (hgt : oiSize m oi < writeStart m oi append pos + count)
    (hlt : writeStart m oi append pos + count < 2 ^ 63)
    (hwrap : (count + writeStart m oi append pos) % 2 ^ 32 < oiSize m oi) :
    ∃ t m', ospfsWrite m oi append buffer count pos = some (t, m') ∧
      oiSize m' oi = (count + writeStart m oi append pos) % 2 ^ 32 := by
  rw [ospfsWrite_eq]
  generalize writeStart m oi append pos = start at hgt hlt hwrap ⊢
  rw [makeRoom_past hgt (by omega)]
  generalize (count + start) % 2 ^ 32 = newSize at hwrap ⊢
  have hh := h.held hz
  have hn' := hn
  unfold fileblks maxfileblks at hn'
  have hk : ospfsSize2nblocks newSize ≤ fileblks m oi := by
    unfold fileblks ospfsSize2nblocks
    omega
  obtain ⟨hlo, hhi, -⟩ := h.inode.address
  obtain ⟨m₁, he, hchop⟩ := hh.changeSize_shrink h.inode newSize hk hn.le (by omega)
  obtain ⟨hw, -, -⟩ := hchop.held.set_size h.inode (v := newSize) (by omega) rfl
  have hsize : oiSize (m₁.set32 oi newSize) oi = newSize := Mem.get32_set32_of_lt (by omega)
  have hty : oiFtype (m₁.set32 oi newSize) oi ≠ ftypeSymlink := by
    have hsame : oiFtype (m₁.set32 oi newSize) oi = oiFtype m oi := by
      refine Mem.get32_congr fun x hx hx' => ?_
      have hfar := hh.head_far h.inode hx (by omega : x < oi + 16)
      rw [Mem.set32_of_ne (by omega)]
      exact hchop.bytes x hfar.bitmap hfar.inode hfar.tables
    rw [hsame]
    exact h.pointers
  have hpl := hw.placed h.inode hty (by omega) (by omega)
  obtain ⟨t, j, ht, -, -, hj, -⟩ := writeLoop_start (m₁.set32 oi newSize) oi count start buffer
  rw [he]
  exact ⟨t, _, ht, ((hpl.written_quiet hj).size h.inode).trans hsize⟩

/-- **A write loses nothing** when it fits, and cuts the file when its end wraps. -/
theorem ospfsWrite_noLoss (h : Intact V oi m) (hc : count < 2 ^ 32) :
    (Fits m oi count (writeStart m oi append pos) → NoLoss m oi append buffer count pos) ∧
    (BootZero m → fileblks m oi < maxfileblks →
      oiSize m oi < writeStart m oi append pos + count →
      writeStart m oi append pos + count < 2 ^ 63 →
      (count + writeStart m oi append pos) % 2 ^ 32 < oiSize m oi →
      ¬ NoLoss m oi append buffer count pos) := by
  constructor
  · intro hfit
    rcases Nat.lt_or_ge (oiSize m oi) (writeStart m oi append pos + count) with hgt | hle
    · exact h.noLoss_past hc hgt hfit
    · exact h.noLoss_within hle
  · rintro hz hn hgt hlt hwrap ⟨t, m', he, hge, -⟩
    obtain ⟨t', m'', he', hsize⟩ := h.cut_of_wraps buffer hz hn hgt hlt hwrap
    rw [he] at he'
    cases he'
    omega

theorem WellFormed.intact (h : V.WellFormed m oi n) (hreg : oiFtype m oi = ftypeReg) :
    Intact V oi m := by
  have hblks : fileblks m oi = n := by
    have := h.size
    have := h.blocks
    unfold fileblks
    omega
  refine ⟨h.mounted, h.inode, hreg, hblks.trans_le h.within, fun b hb => h.ptr_ne_zero.2 ?_,
    ⟨fun p h0 => (h.sound.owns.ok p h0).1, h.sound.owns.inj⟩, h.taken⟩
  rw [hblks] at hb
  exact hb

theorem sampleDisk_intact {f : Nat} (hn : n ≤ 266) (hf : f < 2 ^ 32) :
    Intact sampleVolume 3136 (sampleDisk n f) :=
  (sampleDisk_wellFormed hn hf).intact (sampleDisk_word (j := 785) hn hf)

/-- A file of one block gets a second one. -/
theorem sampleDisk_extended : NoLoss (sampleDisk 1 7) 3136 false (fun _ => some 7) 100 1000 := by
  refine (ospfsWrite_noLoss (sampleDisk_intact (by decide) (by decide)) (by decide)).1
    (.inr ⟨.inl fun x hx => sampleDisk_boot hx, by decide, ?_, by decide, .inl (by decide)⟩)
  rw [show oiSize (sampleDisk 1 7) 3136 = 1024 from
    sampleDisk_word (j := 784) (by decide) (by decide)]
  decide

/-- One byte is written at position 2 ^ 32 of a file of one block: the call returns 1,
and the file has one byte. -/
theorem sampleDisk_cut : Intact sampleVolume 3136 (sampleDisk 1 0) ∧
    oiSize (sampleDisk 1 0) 3136 = 1024 ∧
    (ospfsWrite (sampleDisk 1 0) 3136 false (fun _ => some 7) 1 (2 ^ 32)).map
      (fun r => (r.1.ret, oiSize r.2 3136)) = some (.ok 1, 1) ∧
    ¬ NoLoss (sampleDisk 1 0) 3136 false (fun _ => some 7) 1 (2 ^ 32) := by
  have hsize : oiSize (sampleDisk 1 0) 3136 = 1024 :=
    sampleDisk_word (j := 784) (by decide) (by decide)
  have hrun : (ospfsWrite (sampleDisk 1 0) 3136 false (fun _ => some 7) 1 (2 ^ 32)).map
      (fun r => (r.1.ret, oiSize r.2 3136)) = some (.ok 1, 1) := by decide +kernel
  refine ⟨sampleDisk_intact (by decide) (by decide), hsize, hrun, ?_⟩
  rintro ⟨t, m', he, hge, -⟩
  rw [he] at hrun
  have hone : oiSize m' 3136 = 1 := congrArg Prod.snd (Option.some.inj hrun)
  omega

end Volume

end OsLabs.Ospfs
