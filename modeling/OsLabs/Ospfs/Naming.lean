import OsLabs.Ospfs.Standing

/-!
# OSPFS: entries, types and link counts under the calls

The pieces that the calls on names are made of, by what they do to the directory entries and to
the type and link count of the inodes: setting up an inode, finding a blank entry, filling in an
entry, clearing one, and truncating a file.
-/

namespace OsLabs.Ospfs

variable {g : Geometry} {m m' m'' w : Mem} {d k ino od : Nat} {name : Bytes}

/-- The entries, types and link counts are what they were. -/
structure SameNames (g : Geometry) (m m' : Mem) : Prop where
  dirents : ∀ d k, d < g.ninodes → dirent m' d k = dirent m d k
  ftypes : ∀ j, j < g.ninodes → oiFtype m' (inodeAddr j) = oiFtype m (inodeAddr j)
  nlinks : ∀ j, j < g.ninodes → oiNlink m' (inodeAddr j) = oiNlink m (inodeAddr j)

theorem SameNames.refl : SameNames g m m := ⟨fun _ _ _ => rfl, fun _ _ => rfl, fun _ _ => rfl⟩

/-- Entry `k` of directory `d` is written, and nothing else. -/
structure WritesEntry (g : Geometry) (d k : Nat) (m m' : Mem) : Prop where
  others : ∀ d' k', d' < g.ninodes → (d', k') ≠ (d, k) → dirent m' d' k' = dirent m d' k'
  ftypes : ∀ j, j < g.ninodes → oiFtype m' (inodeAddr j) = oiFtype m (inodeAddr j)
  nlinks : ∀ j, j < g.ninodes → oiNlink m' (inodeAddr j) = oiNlink m (inodeAddr j)

/-! ## Blank entries -/

/-- Directory `d` may have grown by blank entries. -/
structure Blanks (g : Geometry) (S : Nat → Prop) (d : Nat) (m m' : Mem) : Prop where
  tidy : Tidy g S m'
  frame : Frame g S d (fileBlocks m d) m m'
  whole : oiSize m' (inodeAddr d) % 1024 = 0
  entries : ∀ k, dirent m' d k = dirent m d k

/-- `create_blank_direntry`: the entries of the directory stay. -/
theorem Tidy.blankEntry {S : Nat → Prop} (h : Tidy g S m) (hok : DirOk S m d)
    (hno : StaysInTables m d) : ∃ r m', Ospfs.createBlankDirentry m (inodeAddr d) = some (r, m') ∧
      Blanks g S d m m' ∧ (r = .error .eNoSpc ∨ ∃ k < Ospfs.entries m' d,
        r = .ok (entryAddr m' d k) ∧ dirent m d k = none) := by
  have hwhole := hok.whole
  have hblocks := hok.blocks
  have hsmall := h.fileBlocks_small hok.mem
  have hd := h.laid.bound _ hok.mem
  rcases h.scan hok (fun od => odIno m od == 0) with ⟨hscan, hall⟩ | ⟨j, hj, ht, -, hscan⟩
  · have hcrowded : Crowded m d := fun k hk => by simpa using hall k hk
    have hmod : (oiSize m (inodeAddr d) + 8192) % 2 ^ 32 = oiSize m (inodeAddr d) + 8192 := by omega
    have hnew : ospfsSize2nblocks (oiSize m (inodeAddr d) + 8192) = fileBlocks m d + 8 := by
      rw [hblocks]
      unfold ospfsSize2nblocks
      omega
    have hgrow : GrowLinked m (inodeAddr d) (oiSize m (inodeAddr d) + 8192) :=
      h.growLinked hok.mem (by rw [hnew]; exact hno hcrowded)
    obtain ⟨r, m', hrun, hout⟩ := h.changeSize hok.mem (by omega) hgrow
    have hcall : Ospfs.createBlankDirentry m (inodeAddr d) = some (r.map fun _ =>
        Ospfs.ospfsInodeData m' (inodeAddr d) ((128 + oiSize m (inodeAddr d)) % 2 ^ 32), m') := by
      unfold Ospfs.createBlankDirentry
      rw [hscan, hmod, hrun]
      rcases r with e | u <;> rfl
    refine ⟨_, m', hcall, ?_⟩
    rcases hout with ⟨rfl, -, hsized⟩ | ⟨rfl, -, hmv⟩
    · have hsize := hsized.size
      have hf : Frame g S d (fileBlocks m d) m m' := by
        have := hsized.frame
        rwa [hnew, Nat.min_eq_left (by omega)] at this
      have hb : Blanks g S d m m' := by
        refine ⟨hsized.tidy, hf, by omega, fun k => ?_⟩
        refine dirent_grow hf h hok (Nat.le_refl _) (by omega) (fun x h1 h2 => ?_) (by omega)
        exact hsized.zero x h1 (by unfold ospfsSize2nblocks; omega)
      refine ⟨hb, .inr ?_⟩
      have hok' : DirOk S m' d := ⟨hok.mem, (hf.isDir hd).2 hok.dir, hb.whole⟩
      have hlt : 1 + oiSize m (inodeAddr d) / 128 < Ospfs.entries m' d := by
        unfold Ospfs.entries
        omega
      have hpos : (128 + oiSize m (inodeAddr d)) % 2 ^ 32 =
          128 * (1 + oiSize m (inodeAddr d) / 128) := by
        omega
      refine ⟨_, hlt, ?_, ?_⟩
      · rw [hpos, hsized.tidy.entry_data hok' hlt]
        rfl
      · unfold dirent Ospfs.entries
        rw [if_neg fun h' => by omega]
    · exact ⟨⟨hmv.tidy, hmv.frame, hmv.size ▸ hwhole, fun k =>
        hmv.dirent h (fun _ => hok) hd⟩, .inl rfl⟩
  · have hcall : Ospfs.createBlankDirentry m (inodeAddr d) = some (.ok (entryAddr m d j), m) := by
      unfold Ospfs.createBlankDirentry
      rw [hscan]
      rfl
    refine ⟨_, m, hcall, ⟨h, .refl, hwhole, fun _ => rfl⟩, .inr ⟨j, hj, rfl, ?_⟩⟩
    unfold dirent
    rw [if_neg fun h' => h'.2.2 (by simpa using ht)]

/-! ## Inodes -/

namespace Standing

variable (h : Standing g m)

include h

theorem dirent_of_inode (hin : ino < g.ninodes) (hnd : ¬ IsDir m ino) (hnd' : ¬ IsDir m' ino)
    (hw : ∀ x, x < inodeAddr ino ∨ inodeAddr ino + 64 ≤ x → m' x = m x) (hd : d < g.ninodes) :
    dirent m' d k = dirent m d k := by
  by_cases hdi : d = ino
  · subst hdi
    unfold dirent
    rw [if_neg fun h' => hnd' h'.1, if_neg fun h' => hnd h'.1]
  have hlt := inodeAddr_lt hin
  have hsame : SameInode m m' d := .of_others hw hdi
  refine dirent_congr hsame.ftype hsame.size fun hk hdir x hx => ?_
  have hok := h.dirOk hd hdir
  have ht : Tidy g (fun j => j = d) m :=
    h.tidy.congr (fun j hj => hj ▸ hok.mem) (fun _ _ => rfl) (fun _ _ _ => rfl)
      fun _ _ => Nat.le_refl _
  have hown : own m' (fun j => j = d) = own m (fun j => j = d) := by
    refine ht.laid.own_of_meta (fun j hj x hx hx' => ?_) fun x hx => hw x (by omega)
    subst hj
    exact hsame x (by omega) hx'
  have haddr : entryAddr m' d k = entryAddr m d k := by
    unfold entryAddr
    rw [ptr_of_own (S := fun j => j = d) hown rfl]
  have hdata := (h.tidy.laid.isData (h.tidy.mapped_own hok.mem (hok.entry_lt hk))).1
  rw [own_of_mem hok.mem] at hdata
  rw [haddr]
  refine hw _ (.inr ?_)
  unfold entryAddr
  omega

theorem entries_le (hd : d < g.ninodes) (hdir : IsDir m d) : entries m d ≤ 8 * g.nblocks := by
  have hok := h.dirOk hd hdir
  have := h.tidy.fileBlocks_le hok.mem
  rw [hok.entries]
  omega

theorem findFreeInode_cases :
    (Ospfs.findFreeInode m = some 0 ∧
      ∀ j, 2 ≤ j → j < g.ninodes → oiNlink m (inodeAddr j) ≠ 0) ∨
    ∃ ino, Ospfs.findFreeInode m = some ino ∧ 2 ≤ ino ∧ ino < g.ninodes ∧
      oiNlink m (inodeAddr ino) = 0 := by
  have hscan : ∀ n i, 2 ≤ i → i + n = g.ninodes ∨ n = 0 →
      (findFreeFrom m n i = some 0 ∧
        ∀ j, i ≤ j → j < i + n → oiNlink m (inodeAddr j) ≠ 0) ∨
      ∃ ino, findFreeFrom m n i = some ino ∧ 2 ≤ ino ∧ ino < g.ninodes ∧
        oiNlink m (inodeAddr ino) = 0 := by
    intro n
    induction n with
    | zero => exact fun i _ _ => .inl ⟨rfl, fun j _ _ => by omega⟩
    | succ n ih =>
      intro i hi hn
      have hlt : i < g.ninodes := by omega
      rw [findFreeFrom, h.tidy.ospfsInode hlt, Option.bind_eq_bind, Option.bind_some]
      by_cases h0 : oiNlink m (inodeAddr i) = 0
      · rw [if_pos h0]
        exact .inr ⟨i, rfl, hi, hlt, h0⟩
      rw [if_neg h0]
      rcases ih (i + 1) (by omega) (by omega) with ⟨hrun, hall⟩ | hfound
      · refine .inl ⟨hrun, fun j hj hj' => ?_⟩
        by_cases hji : j = i
        · rwa [hji]
        · exact hall j (by omega) (by omega)
      · exact .inr hfound
  unfold Ospfs.findFreeInode
  rw [show osNinodes m = g.ninodes from h.tidy.super.ninodes]
  rcases hscan (g.ninodes - 2) 2 (Nat.le_refl 2) (by omega) with ⟨hrun, hall⟩ | hfound
  · exact .inl ⟨hrun, fun j h2 hj => hall j h2 (by omega)⟩
  · exact .inr hfound

/-! ## Entries -/

theorem writesEntry (hd : d < g.ninodes) (hdir : IsDir m d) (hk : k < entries m d)
    (hw : ∀ x, x < entryAddr m d k ∨ entryAddr m d k + 128 ≤ x → m' x = m x) :
    WritesEntry g d k m m' ∧ entryAddr m' d k = entryAddr m d k := by
  obtain ⟨-, -, hlow, haddr, hothers⟩ := h.tidy.entry_write (h.dirOk hd hdir) hk hw
  have hword (j c : Nat) (hj : j < g.ninodes) (hc : c + 4 ≤ 64) :
      m'.get32 (inodeAddr j + c) = m.get32 (inodeAddr j + c) := by
    have := inodeAddr_lt hj
    exact Mem.get32_congr fun x _ _ => hlow x (by omega)
  exact ⟨⟨fun d' k' hd' hne => hothers d' k' hd' (h.dirOk hd') hne,
    fun j hj => hword j 4 hj (by omega), fun j hj => hword j 8 hj (by omega)⟩, haddr⟩

theorem fillEntry (hd : d < g.ninodes) (hdir : IsDir m d) (hk : k < entries m d)
    (hlen : name.length ≤ 123) (hz : 0 ∉ name) (hi : 0 < ino) (hi' : ino < 2 ^ 32) :
    let m' := writeDirentry m (entryAddr m d k) ino name
    WritesEntry g d k m m' ∧ Touched g d m m' ∧ dirent m' d k = some (name, ino) := by
  intro m'
  have hw : ∀ x, x < entryAddr m d k ∨ entryAddr m d k + 128 ≤ x → m' x = m x :=
    fun x hx => writeDirentry_of_ne hlen hx
  obtain ⟨hwrites, haddr⟩ := h.writesEntry hd hdir hk hw
  have htouched := h.entryWrite hd hdir hk hw
  have hsize : oiSize m' (inodeAddr d) = oiSize m (inodeAddr d) := by
    obtain ⟨-, -, hlow, -, -⟩ := h.tidy.entry_write (h.dirOk hd hdir) hk hw
    have := inodeAddr_lt hd
    exact Mem.get32_congr fun x _ _ => hlow x (by omega)
  have hk' : k < entries m' d := by
    unfold entries
    rwa [hsize]
  have hino : odIno m' (entryAddr m d k) = ino := by
    show Mem.get32 (Mem.store (Mem.store _ _ _) _ _) _ = ino
    rw [Mem.get32_store_ne (by omega), Mem.get32_store_ne (by omega), Mem.get32_set32_of_lt hi']
  have hname : odName m' (entryAddr m d k) = name := by
    refine odName_eq hz hlen (fun i hil => ?_) ?_
    · show Mem.store (Mem.store _ _ _) _ _ _ = _
      rw [Mem.store_of_ne (by omega), Mem.store_of_lt hil]
    · have hnul : m' (entryAddr m d k + 4 + name.length + 0) = 0 := Mem.store_of_lt (by decide)
      exact hnul
  refine ⟨hwrites, htouched, ?_⟩
  rw [dirent_of_isDir htouched.isDir hk', haddr, hino, hname, if_pos (by omega)]

theorem clearEntry (hd : d < g.ninodes) (hdir : IsDir m d) (hk : k < entries m d) :
    let m' := m.set32 (entryAddr m d k) 0
    WritesEntry g d k m m' ∧ Touched g d m m' ∧ dirent m' d k = none := by
  intro m'
  have hw : ∀ x, x < entryAddr m d k ∨ entryAddr m d k + 128 ≤ x → m' x = m x :=
    fun x hx => Mem.set32_of_ne (by omega)
  obtain ⟨hwrites, haddr⟩ := h.writesEntry hd hdir hk hw
  refine ⟨hwrites, h.entryWrite hd hdir hk hw, ?_⟩
  have hino : odIno m' (entryAddr m' d k) = 0 := by
    rw [haddr]
    exact Mem.get32_set32_of_lt (by decide)
  unfold dirent
  rw [if_neg fun h' => h'.2.2 hino]

/-- `create_blank_direntry` returns: a blank entry, or there is no room for more blocks. -/
theorem blankEntry (hd : d < g.ninodes) (hdir : IsDir m d) (hno : StaysInTables m d) :
    ∃ r m', Ospfs.createBlankDirentry m (inodeAddr d) = some (r, m') ∧ Touched g d m m' ∧
      SameNames g m m' ∧ (r = .error .eNoSpc ∨ ∃ k < entries m' d, r = .ok (entryAddr m' d k) ∧
        dirent m d k = none) := by
  obtain ⟨r, m', hrun, hb, hcase⟩ := h.tidy.blankEntry (h.dirOk hd hdir) hno
  have hf := hb.frame
  refine ⟨r, m', hrun, h.touched hd hdir hb.tidy hf.inodes hf.attrs hb.whole,
    ⟨fun d' k' hd' => ?_, fun j hj => hf.oiFtype hj, fun j hj => hf.oiNlink hj⟩, hcase⟩
  by_cases hdd : d' = d
  · rw [hdd]
    exact hb.entries k'
  · exact hf.dirent h.tidy (h.dirOk hd') hd' hdd

/-! ## Files -/

theorem nlink_set (hin : ino < g.ninodes) (hnd : ¬ IsDir m ino) (v : Nat) :
    let m' := m.set32 (inodeAddr ino + 8) v
    (∀ d k, d < g.ninodes → dirent m' d k = dirent m d k) ∧
      (∀ j, j < g.ninodes → oiFtype m' (inodeAddr j) = oiFtype m (inodeAddr j)) ∧
      ∀ j, j < g.ninodes → j ≠ ino → oiNlink m' (inodeAddr j) = oiNlink m (inodeAddr j) := by
  intro m'
  refine ⟨fun d k hd => h.dirent_of_inode hin hnd (h.setNlink hin hnd v).2
    (fun x hx => Mem.set32_of_ne (by omega)) hd, fun j hj => ?_, fun j hj hne => ?_⟩
  · refine Mem.get32_set32_ne ?_
    unfold inodeAddr
    omega
  · refine Mem.get32_set32_ne ?_
    unfold inodeAddr
    omega

/-- `change_size` of a file to 0 returns, and the names stay. -/
theorem truncates (hlt : ino < g.ninodes) (hnd : ¬ IsDir m ino)
    (htype : oiFtype m (inodeAddr ino) ≠ ftypeSymlink) :
    ∃ r m', changeSize m (inodeAddr ino) 0 = some (r, m') ∧ Standing g m' ∧ SameNames g m m' := by
  by_cases hsize : oiSize m (inodeAddr ino) = 0
  · have hblocks : ospfsSize2nblocks (oiSize m (inodeAddr ino)) = 0 := by
      rw [hsize]
      rfl
    have hsame : m.set32 (inodeAddr ino) 0 = m := by
      have := Mem.set32_get32 (m := m) (a := inodeAddr ino)
      rwa [show m.get32 (inodeAddr ino) = 0 from hsize] at this
    refine ⟨_, _, changeSize_same hblocks, ?_⟩
    rw [hsame]
    exact ⟨h, .refl⟩
  have hocc : Occupied g m ino := ⟨⟨hlt, htype⟩, .inr hsize⟩
  have hnone : Volume.NoNewTable (fileBlocks m ino) (ospfsSize2nblocks 0) := fun i _ hi =>
    absurd hi (Nat.not_lt_zero _)
  obtain ⟨r, m', hrun, hout⟩ := h.tidy.changeSize hocc (by decide) (h.tidy.growLinked hocc hnone)
  refine ⟨r, m', hrun, h.truncate hlt hnd htype hrun, ?_⟩
  have hframe : ∃ n, Frame g (Occupied g m) ino n m m' := by
    rcases hout with ⟨-, -, hs⟩ | ⟨-, -, hm⟩
    · exact ⟨_, hs.frame⟩
    · exact ⟨_, hm.frame⟩
  obtain ⟨n, hf⟩ := hframe
  refine ⟨fun d k hd => ?_, fun j hj => hf.oiFtype hj, fun j hj => hf.oiNlink hj⟩
  by_cases hdi : d = ino
  · subst hdi
    unfold dirent
    rw [if_neg fun h' => hnd ((hf.isDir hd).1 h'.1), if_neg fun h' => hnd h'.1]
  · exact hf.dirent h.tidy (h.dirOk hd) hd hdi

end Standing

/-! ## The calls -/

structure FreeInode (g : Geometry) (m : Mem) (ino : Nat) : Prop where
  two_le : 2 ≤ ino
  lt : ino < g.ninodes
  nlink : oiNlink m (inodeAddr ino) = 0
  plain : ¬ IsDir m ino

/-- From disk `w`, `name` is to be entered in directory `d` for inode `ino`; `true` when it is. -/
inductive NameEnters (g : Geometry) (d : Nat) (name : Bytes) (ino : Nat) (w : Mem) :
    Bool → Mem → Prop
  | full {m' : Mem} (hrun : createBlankDirentry w (inodeAddr d) = some (.error .eNoSpc, m'))
      (ht : Touched g d w m') (hs : SameNames g w m') : NameEnters g d name ino w false m'
  | entered {m₁ : Mem} {k : Nat}
      (hrun : createBlankDirentry w (inodeAddr d) = some (.ok (entryAddr m₁ d k), m₁))
      (ht : Touched g d w m₁) (hs : SameNames g w m₁) (hk : k < entries m₁ d)
      (hblank : dirent w d k = none) :
      NameEnters g d name ino w true (writeDirentry m₁ (entryAddr m₁ d k) ino name)

/-- `ospfs_create` or `ospfs_symlink`, which sets up the new inode as `init` says. -/
inductive Creates (g : Geometry) (d : Nat) (name : Bytes) (init : Nat → Mem) (m : Mem) :
    Ret → Mem → Prop
  | taken (hf : (findDirentry m (inodeAddr d) name).isSome = true) :
      Creates g d name init m (.error .eExist) m
  | exhausted (hf : (findDirentry m (inodeAddr d) name).isSome = false)
      (hall : ∀ j, 2 ≤ j → j < g.ninodes → oiNlink m (inodeAddr j) ≠ 0) :
      Creates g d name init m (.error .eNoSpc) m
  | full {ino : Nat} {m' : Mem} (hf : (findDirentry m (inodeAddr d) name).isSome = false)
      (hi : findFreeInode m = some ino) (hfree : FreeInode g m ino)
      (he : NameEnters g d name ino (init ino) false m') :
      Creates g d name init m (.error .eNoSpc) m'
  | entered {ino : Nat} {m' : Mem} {r : Ret}
      (hf : (findDirentry m (inodeAddr d) name).isSome = false)
      (hi : findFreeInode m = some ino) (hfree : FreeInode g m ino)
      (he : NameEnters g d name ino (init ino) true m') (hr : r = .ok () ∨ r = .error .eNoMem) :
      Creates g d name init m r m'

inductive LinksTo (g : Geometry) (d : Nat) (name : Bytes) (i : Nat) (m : Mem) : Ret → Mem → Prop
  | tooLong (hlen : name.length > 123) : LinksTo g d name i m (.error .eNameTooLong) m
  | taken (hf : (findDirentry m (inodeAddr d) name).isSome = true) :
      LinksTo g d name i m (.error .eExist) m
  | full {m' : Mem} (hf : (findDirentry m (inodeAddr d) name).isSome = false)
      (he : NameEnters g d name i m false m') : LinksTo g d name i m (.error .eNoSpc) m'
  | entered {w : Mem} (hlen : name.length ≤ 123)
      (hf : (findDirentry m (inodeAddr d) name).isSome = false)
      (he : NameEnters g d name i m true w) : LinksTo g d name i m (.ok ())
        (w.set32 (inodeAddr i + 8) (oiNlink w (inodeAddr i) + 1))

inductive Unlinks (g : Geometry) (d k i : Nat) (m : Mem) : Mem → Prop
  | kept {w : Mem} (hw : w = m.set32 (entryAddr m d k) 0) :
      Unlinks g d k i m (w.set32 (inodeAddr i + 8) (oiNlink w (inodeAddr i) + (2 ^ 32 - 1)))
  | last {w m' : Mem} {r : Ret} (hw : w = m.set32 (entryAddr m d k) 0)
      (hlast : oiNlink (w.set32 (inodeAddr i + 8) (oiNlink w (inodeAddr i) + (2 ^ 32 - 1)))
        (inodeAddr i) = 0)
      (hfile : oiFtype m (inodeAddr i) ≠ ftypeSymlink)
      (hrun : changeSize (w.set32 (inodeAddr i + 8) (oiNlink w (inodeAddr i) + (2 ^ 32 - 1)))
        (inodeAddr i) 0 = some (r, m')) : Unlinks g d k i m m'

/-- An inode of the file system has a Linux inode. -/
theorem mkLinuxInode {i : Nat} (hoi : ospfsInode m i = some (inodeAddr i))
    (hkind : oiFtype m (inodeAddr i) ≤ ftypeSymlink) (newInode : Bool) :
    ospfsMkLinuxInode m i newInode = some (if newInode then some i else none) := by
  have hkinds : oiFtype m (inodeAddr i) = ftypeReg ∨ oiFtype m (inodeAddr i) = ftypeDir ∨
      oiFtype m (inodeAddr i) = ftypeSymlink := by
    unfold ftypeReg ftypeDir ftypeSymlink at *
    omega
  unfold ospfsMkLinuxInode
  rw [hoi]
  cases newInode
  · rfl
  · exact if_pos hkinds

namespace Standing

theorem enterInode_spec (h : Standing g w) (hd : d < g.ninodes) (hdir : IsDir w d)
    (hno : StaysInTables w d) (hlen : name.length ≤ 123) (hi : ino < g.ninodes)
    (hkind : oiFtype w (inodeAddr ino) ≤ ftypeSymlink) (newInode : Bool) :
    ∃ r b m', Ospfs.enterInode w (inodeAddr d) name ino newInode = some (r, m') ∧
      NameEnters g d name ino w b m' ∧
      ((b = false ∧ r = .error .eNoSpc) ∨
        (b = true ∧ r = if newInode then .ok () else .error .eNoMem)) := by
  obtain ⟨r, m₁, hrun, ht, hs, hcase⟩ := h.blankEntry hd hdir hno
  unfold Ospfs.enterInode
  rw [hrun]
  rcases hcase with rfl | ⟨k, hk, rfl, hblank⟩
  · exact ⟨_, false, m₁, rfl, .full hrun ht hs, .inl ⟨rfl, rfl⟩⟩
  have hwrite : ∀ x, x < entryAddr m₁ d k ∨ entryAddr m₁ d k + 128 ≤ x →
      writeDirentry m₁ (entryAddr m₁ d k) ino name x = m₁ x :=
    fun x hx => writeDirentry_of_ne hlen hx
  have hst := (ht.standing.entryWrite hd ht.isDir hk hwrite).standing
  have hfty := (ht.standing.writesEntry hd ht.isDir hk hwrite).1.ftypes ino hi
  have hmk := mkLinuxInode (hst.tidy.ospfsInode hi)
    (by rw [hfty, hs.ftypes ino hi]; exact hkind) newInode
  simp only [Option.bind_eq_bind, Option.bind_some, hmk]
  cases newInode
  · exact ⟨_, true, _, rfl, .entered hrun ht hs hk hblank, .inr ⟨rfl, rfl⟩⟩
  · exact ⟨_, true, _, rfl, .entered hrun ht hs hk hblank, .inr ⟨rfl, rfl⟩⟩

theorem findFreeInode_spec (h : Standing g m) :
    (Ospfs.findFreeInode m = some 0 ∧
      ∀ j, 2 ≤ j → j < g.ninodes → oiNlink m (inodeAddr j) ≠ 0) ∨
    ∃ ino, Ospfs.findFreeInode m = some ino ∧ ino ≠ 0 ∧ FreeInode g m ino ∧
      ospfsInode m ino = some (inodeAddr ino) := by
  rcases h.findFreeInode_cases with hall | ⟨ino, hrun, h2, hlt, h0⟩
  · exact .inl hall
  · exact .inr ⟨ino, hrun, by omega,
      ⟨h2, hlt, h0, fun hdir => (h.dirs ino hlt hdir).2 h0⟩, h.tidy.ospfsInode hlt⟩

theorem setUp (h : Standing g m) (hset : SetUp g ino m w) : Standing g w :=
  h.of_inode hset.lt hset.free hset.plain hset.others fun hocc => absurd hocc hset.unoccupied

/-- The common end of `ospfs_create` and `ospfs_symlink`. -/
theorem creates (h : Standing g m) (hd : d < g.ninodes) (hdir : IsDir m d)
    (hno : StaysInTables m d) (hlen : name.length ≤ 123) {f : Nat → Mem}
    (hf : (findDirentry m (inodeAddr d) name).isSome = false)
    (hi : Ospfs.findFreeInode m = some ino) (hfree : FreeInode g m ino)
    (hset : SetUp g ino m (f ino))
    (hkind : oiFtype (f ino) (inodeAddr ino) ≤ ftypeSymlink) (newInode : Bool) :
    ∃ r m', Ospfs.enterInode (f ino) (inodeAddr d) name ino newInode = some (r, m') ∧
      Creates g d name f m r m' ∧ (newInode = true → r ≠ .error .eNoMem) := by
  have hne : d ≠ ino := by
    rintro rfl
    exact hfree.plain hdir
  have hsame : SameInode m (f ino) d := .of_others hset.others hne
  have hno' := (h.entries_of_inode hset.lt hd hdir hne hset.others).2 hno
  obtain ⟨r, b, m', hrun, he, hr⟩ := (h.setUp hset).enterInode_spec hd (hsame.isDir.2 hdir) hno'
    hlen hset.lt hkind newInode
  rcases hr with ⟨rfl, rfl⟩ | ⟨rfl, rfl⟩
  · exact ⟨_, m', hrun, .full hf hi hfree he, fun _ => nofun⟩
  cases newInode
  · exact ⟨_, m', hrun, .entered hf hi hfree he (.inr rfl), nofun⟩
  · exact ⟨_, m', hrun, .entered hf hi hfree he (.inl rfl), fun _ => nofun⟩

theorem create_spec (h : Standing g m) (hd : d < g.ninodes) (hdir : IsDir m d)
    (hno : StaysInTables m d) (hlen : name.length ≤ 123) (mode : Nat) (newInode : Bool) :
    ∃ r m', ospfsCreate m d name mode newInode = some (r, m') ∧
      Creates g d name (fun ino => initFile m (inodeAddr ino) mode) m r m' ∧
      (newInode = true → r ≠ .error .eNoMem) := by
  unfold ospfsCreate
  rw [h.tidy.ospfsInode hd]
  rcases hf : (findDirentry m (inodeAddr d) name).isSome with _ | _
  swap
  · simp only [hf, if_true]
    exact ⟨_, m, rfl, .taken hf, fun _ => nofun⟩
  simp only [hf, Bool.false_eq_true, if_false]
  rcases h.findFreeInode_spec with ⟨hi, hall⟩ | ⟨ino, hi, h0, hfree, hoi⟩
  · rw [hi]
    exact ⟨_, m, rfl, .exhausted hf hall, fun _ => nofun⟩
  simp only [hi, Option.bind_eq_bind, Option.bind_some, if_neg h0, hoi]
  refine h.creates hd hdir hno hlen (f := fun ino => initFile m (inodeAddr ino) mode) hf hi hfree
    (.file hfree.lt hfree.plain mode) ?_ newInode
  unfold initFile oiFtype
  rw [Mem.get32_set32_ne (by omega), Mem.get32_set32_ne (by omega),
    Mem.get32_set32_of_lt (by decide)]
  decide

theorem symlink_spec (h : Standing g m) (hd : d < g.ninodes) (hdir : IsDir m d)
    (hno : StaysInTables m d) (name symname : Bytes) (newInode : Bool) :
    ∃ r m', ospfsSymlink m d name symname newInode = some (r, m') ∧
      (((name.length > 123 ∨ symname.length > 51) ∧ r = .error .eNameTooLong ∧ m' = m) ∨
        (name.length ≤ 123 ∧ symname.length ≤ 51 ∧
          Creates g d name (fun ino => initSymlink m (inodeAddr ino) symname) m r m')) ∧
      (newInode = true → r ≠ .error .eNoMem) := by
  unfold ospfsSymlink
  rw [h.tidy.ospfsInode hd]
  by_cases hlong : name.length > 123 ∨ symname.length > 51
  · simp only [if_pos hlong]
    exact ⟨_, m, rfl, .inl ⟨hlong, rfl, rfl⟩, fun _ => nofun⟩
  have hshort : name.length ≤ 123 ∧ symname.length ≤ 51 := by omega
  simp only [if_neg hlong]
  rcases hf : (findDirentry m (inodeAddr d) name).isSome with _ | _
  swap
  · simp only [if_true]
    exact ⟨_, m, rfl, .inr ⟨hshort.1, hshort.2, .taken hf⟩, fun _ => nofun⟩
  simp only [Bool.false_eq_true, if_false]
  rcases h.findFreeInode_spec with ⟨hi, hall⟩ | ⟨ino, hi, h0, hfree, hoi⟩
  · rw [hi]
    exact ⟨_, m, rfl, .inr ⟨hshort.1, hshort.2, .exhausted hf hall⟩, fun _ => nofun⟩
  simp only [hi, Option.bind_eq_bind, Option.bind_some, if_neg h0, hoi]
  have hkind : oiFtype (initSymlink m (inodeAddr ino) symname) (inodeAddr ino) ≤ ftypeSymlink := by
    unfold initSymlink oiFtype
    rw [Mem.get32_store_ne (by omega), Mem.get32_set32_of_lt (by decide)]
  obtain ⟨r, m', hrun, hc, hmem⟩ := h.creates hd hdir hno hshort.1
    (f := fun ino => initSymlink m (inodeAddr ino) symname) hf hi hfree
    (.symlink hfree.lt hfree.plain hshort.2) hkind newInode
  exact ⟨r, m', hrun, .inr ⟨hshort.1, hshort.2, hc⟩, hmem⟩

theorem link_spec (h : Standing g m) (hd : d < g.ninodes) (hdir : IsDir m d)
    (hno : StaysInTables m d) (name : Bytes) {i : Nat} (hi : i < g.ninodes) :
    ∃ r m', ospfsLink m i d name = some (r, m') ∧ LinksTo g d name i m r m' := by
  unfold ospfsLink
  by_cases hlong : name.length > 123
  · rw [if_pos hlong]
    exact ⟨_, m, rfl, .tooLong hlong⟩
  rw [if_neg hlong, h.tidy.ospfsInode hd]
  simp only [Option.bind_eq_bind, Option.bind_some]
  rcases hf : (findDirentry m (inodeAddr d) name).isSome with _ | _
  swap
  · simp only [if_true]
    exact ⟨_, m, rfl, .taken hf⟩
  simp only [Bool.false_eq_true, if_false]
  obtain ⟨r, m₁, hrun, ht, hs, hcase⟩ := h.blankEntry hd hdir hno
  rw [hrun]
  rcases hcase with rfl | ⟨k, hk, rfl, hblank⟩
  · exact ⟨_, m₁, rfl, .full hf (.full hrun ht hs)⟩
  have hlen : name.length ≤ 123 := by omega
  have hwrite : ∀ x, x < entryAddr m₁ d k ∨ entryAddr m₁ d k + 128 ≤ x →
      writeDirentry m₁ (entryAddr m₁ d k) i name x = m₁ x :=
    fun x hx => writeDirentry_of_ne hlen hx
  have hst := (ht.standing.entryWrite hd ht.isDir hk hwrite).standing
  simp only [Option.bind_some, hst.tidy.ospfsInode hi]
  exact ⟨_, _, rfl, .entered hlen hf (.entered hrun ht hs hk hblank)⟩

/-- The loop of `ospfs_unlink` stops at the entry that a scan finds. -/
theorem unlinkScan_of_scan {oi n off o od' : Nat}
    (hs : scan m oi (lookupMatches m name) n off = some od') :
    ∃ off', off' < off + 128 * n ∧ Ospfs.unlinkScan m oi name n off o = (off', od') := by
  induction n generalizing off o with
  | zero => cases hs
  | succ n ih =>
    rw [scan] at hs
    rw [Ospfs.unlinkScan]
    split at hs
    · rename_i ht
      cases hs
      exact ⟨off, by omega, if_pos ht⟩
    · rename_i ht
      obtain ⟨off', hlt, hrun⟩ := ih (o := ospfsInodeData m oi off) hs
      refine ⟨off', by omega, ?_⟩
      simp only [ht, if_false, Bool.false_eq_true]
      exact hrun

theorem unlink_spec (h : Standing g m) (hd : d < g.ninodes) (hdir : IsDir m d) {i : Nat}
    (hi : i < g.ninodes) (hnd : ¬ IsDir m i) (hk : k < entries m d)
    (hscan : scan m (inodeAddr d) (lookupMatches m name) (direntries m (inodeAddr d)) 0 =
      some (entryAddr m d k)) :
    ∃ m', ospfsUnlink m d name i = some (.ok (), m') ∧ Unlinks g d k i m m' := by
  obtain ⟨off, hoff, hloop⟩ := unlinkScan_of_scan (o := 0) hscan
  have hoff' : off ≠ oiSize m (inodeAddr d) := by
    rw [(h.dirOk hd hdir).direntries] at hoff
    unfold entries at hoff
    omega
  unfold ospfsUnlink
  rw [h.tidy.ospfsInode hd]
  simp only [Option.bind_eq_bind, Option.bind_some, hloop, if_neg hoff']
  obtain ⟨hwrites, ht₁, -⟩ := h.clearEntry hd hdir hk
  obtain ⟨w, hw⟩ : ∃ w, w = m.set32 (entryAddr m d k) 0 := ⟨_, rfl⟩
  rw [← hw] at hwrites ht₁ ⊢
  rw [ht₁.standing.tidy.ospfsInode hi]
  simp only [Option.bind_some]
  have hndw : ¬ IsDir w i := (isDir_congr (hwrites.ftypes i hi)).not.2 hnd
  obtain ⟨hst₂, hnd₂⟩ := ht₁.standing.setNlink hi hndw (oiNlink w (inodeAddr i) + (2 ^ 32 - 1))
  have hfty := (ht₁.standing.nlink_set hi hndw (oiNlink w (inodeAddr i) + (2 ^ 32 - 1))).2.1 i hi
  split
  · rename_i hlast
    obtain ⟨r, m', hrun, -⟩ := hst₂.truncates hi hnd₂ hlast.1
    rw [hrun]
    refine ⟨m', rfl, .last hw hlast.2 ?_ hrun⟩
    rw [← hwrites.ftypes i hi, ← hfty]
    exact hlast.1
  · exact ⟨_, rfl, .kept hw⟩

end Standing

end OsLabs.Ospfs
