import OsLabs.Ospfs.Abandon
import OsLabs.Ospfs.Overwrite
import OsLabs.Ospfs.Dir

/-!
# OSPFS: name creation that fails

`ospfs_create` and `ospfs_symlink` claim an inode before they look for a blank
directory entry. When the directory cannot grow they return the error and keep
the inode. `ospfs_link` claims nothing first, so it fails as `change_size` does.
-/

namespace OsLabs.Ospfs

inductive NameCall
  | create (name : Bytes) (mode : Nat) (newInode : Bool)
  | symlink (name symname : Bytes) (newInode : Bool)
  | link (srcIno : Nat) (name : Bytes)

namespace NameCall

def run (m : Mem) (dirIno : Nat) : NameCall → Option (Ret × Mem)
  | create name mode newInode => ospfsCreate m dirIno name mode newInode
  | symlink name symname newInode => ospfsSymlink m dirIno name symname newInode
  | link srcIno name => ospfsLink m srcIno dirIno name

/-- The call is refused: a name or target is too long, the name exists, or the call needs
an inode and none is free. -/
def Refused (m : Mem) (dirOi : Nat) : NameCall → Prop
  | create name _ _ => (findDirentry m dirOi name).isSome ∨ findFreeInode m = some 0
  | symlink name symname _ => name.length > 123 ∨ symname.length > 51 ∨
      (findDirentry m dirOi name).isSome ∨ findFreeInode m = some 0
  | link _ name => name.length > 123 ∨ (findDirentry m dirOi name).isSome

def IsLink : NameCall → Prop
  | link _ _ => True
  | _ => False

/-- The disk when the call looks for a blank entry. -/
def Claims (m w : Mem) : NameCall → Prop
  | create _ mode _ => ∃ ino fileOi, findFreeInode m = some ino ∧ ino ≠ 0 ∧
      ospfsInode m ino = some fileOi ∧ w = initFile m fileOi mode
  | symlink _ symname _ => ∃ ino symlinkOi, findFreeInode m = some ino ∧ ino ≠ 0 ∧
      ospfsInode m ino = some symlinkOi ∧ symname.length ≤ 51 ∧ w = initSymlink m symlinkOi symname
  | link _ _ => w = m

end NameCall

/-- An error for lack of space, an existing name, or a name or target that is too long. -/
def NameError (e : Errno) : Prop := e = .eNoSpc ∨ e = .eExist ∨ e = .eNameTooLong

variable {m m' w : Mem} {dirIno dirOi ino oi : Nat} {name : Bytes} {e : Errno} {c : NameCall}

theorem NameCall.Refused.run (hc : c.Refused m oi)
    (hoi : ospfsInode m dirIno = some oi) : ∃ e, c.run m dirIno = some (.error e, m) := by
  cases c with
  | create name mode newInode =>
    show ∃ e, ospfsCreate m dirIno name mode newInode = _
    unfold ospfsCreate
    rw [hoi]
    by_cases hf : (findDirentry m oi name).isSome = true
    · exact ⟨_, if_pos hf⟩
    · refine ⟨.eNoSpc, ?_⟩
      simp only [if_neg hf, hc.resolve_left hf]
      rfl
  | symlink name symname newInode =>
    show ∃ e, ospfsSymlink m dirIno name symname newInode = _
    unfold ospfsSymlink
    rw [hoi]
    by_cases hlong : name.length > 123 ∨ symname.length > 51
    · exact ⟨_, if_pos hlong⟩
    have hc' := (or_assoc.2 hc).resolve_left hlong
    by_cases hf : (findDirentry m oi name).isSome = true
    · refine ⟨.eExist, ?_⟩
      simp only [if_neg hlong, if_pos hf]
      rfl
    · refine ⟨.eNoSpc, ?_⟩
      simp only [if_neg hlong, if_neg hf, hc'.resolve_left hf]
      rfl
  | link i name =>
    show ∃ e, ospfsLink m i dirIno name = _
    unfold ospfsLink
    by_cases hlong : name.length > 123
    · exact ⟨_, if_pos hlong⟩
    · refine ⟨.eExist, ?_⟩
      rw [if_neg hlong, hoi]
      exact if_pos (hc.resolve_left hlong)

theorem createBlankDirentry_error (h : createBlankDirentry m dirOi = some (.error e, m')) :
    changeSize m dirOi ((oiSize m dirOi + 8192) % 2 ^ 32) = some (.error e, m') := by
  unfold createBlankDirentry at h
  generalize (oiSize m dirOi + 8192) % 2 ^ 32 = newSize at h ⊢
  split at h
  · cases h
  · rcases hc : changeSize m dirOi newSize with _ | ⟨_ | u, m₁⟩
    · simp [hc] at h
    · simp only [hc, Option.bind_eq_bind, Option.bind_some, Option.pure_def, Option.some.injEq,
        Prod.mk.injEq, Except.error.injEq] at h
      rw [h.1, h.2]
    · simp [hc] at h

theorem enterInode_error {newInode : Bool} (he : e ≠ .eNoMem)
    (h : enterInode m dirOi name ino newInode = some (.error e, m')) :
    changeSize m dirOi ((oiSize m dirOi + 8192) % 2 ^ 32) = some (.error e, m') := by
  unfold enterInode at h
  rcases hc : createBlankDirentry m dirOi with _ | ⟨e' | od, m₁⟩
  · simp [hc] at h
  · simp only [hc, Option.bind_eq_bind, Option.bind_some, Option.pure_def, Option.some.injEq,
      Prod.mk.injEq, Except.error.injEq] at h
    rw [h.1, h.2] at hc
    exact createBlankDirentry_error hc
  · simp only [hc, Option.bind_eq_bind, Option.bind_some] at h
    rcases hl : ospfsMkLinuxInode (writeDirentry m₁ od ino name) ino newInode with _ | _ | i
    · simp [hl] at h
    · simp only [hl, Option.bind_some, Option.pure_def, Option.some.injEq, Prod.mk.injEq,
        Except.error.injEq] at h
      exact absurd h.1.symm he
    · simp [hl] at h

/-- How a call fails: it is refused, or the directory does not grow. -/
def NameCall.FailsAs (c : NameCall) (m : Mem) (dirOi : Nat) (e : Errno) (m' : Mem) : Prop :=
  (c.Refused m dirOi ∧ m' = m) ∨ (¬ c.Refused m dirOi ∧ ∃ w, c.Claims m w ∧
    changeSize w dirOi ((oiSize w dirOi + 8192) % 2 ^ 32) = some (.error e, m'))

section

variable {newInode : Bool} (hdir : ospfsInode m dirIno = some dirOi)

include hdir

theorem ospfsCreate_error {mode : Nat} (hmem : e ≠ .eNoMem) (hio : e ≠ .eIo)
    (h : (NameCall.create name mode newInode).run m dirIno = some (.error e, m')) :
    (NameCall.create name mode newInode).FailsAs m dirOi e m' := by
  unfold NameCall.run ospfsCreate at h
  simp only [hdir] at h
  by_cases hf : (findDirentry m dirOi name).isSome
  · simp only [hf, if_true] at h
    cases h
    exact .inl ⟨.inl hf, rfl⟩
  rcases hi : findFreeInode m with _ | ino
  · simp [hf, hi] at h
  by_cases h0 : ino = 0
  · subst h0
    simp only [hf, hi, Bool.false_eq_true, if_false, if_true, Option.bind_eq_bind,
      Option.bind_some, Option.pure_def, Option.some.injEq, Prod.mk.injEq] at h
    exact .inl ⟨.inr hi, h.2.symm⟩
  rcases ho : ospfsInode m ino with _ | fileOi
  · simp [hf, hi, h0, ho] at h
    exact absurd h.1.symm hio
  · simp only [hf, hi, h0, ho, Bool.false_eq_true, if_false, Option.bind_eq_bind,
      Option.bind_some] at h
    refine .inr ⟨?_, _, ⟨ino, fileOi, hi, h0, ho, rfl⟩, enterInode_error hmem h⟩
    rintro (hf' | hi')
    · exact hf hf'
    · rw [hi] at hi'
      cases hi'
      exact h0 rfl

theorem ospfsSymlink_error {symname : Bytes} (hmem : e ≠ .eNoMem)
    (h : (NameCall.symlink name symname newInode).run m dirIno = some (.error e, m')) :
    (NameCall.symlink name symname newInode).FailsAs m dirOi e m' := by
  unfold NameCall.run ospfsSymlink at h
  simp only [hdir] at h
  by_cases hl : name.length > 123 ∨ symname.length > 51
  · simp only [hl, if_true] at h
    cases h
    exact .inl ⟨hl.imp_right .inl, rfl⟩
  by_cases hf : (findDirentry m dirOi name).isSome
  · simp only [hl, hf, if_true, if_false] at h
    cases h
    exact .inl ⟨.inr (.inr (.inl hf)), rfl⟩
  rcases hi : findFreeInode m with _ | ino
  · simp [hl, hf, hi] at h
  by_cases h0 : ino = 0
  · subst h0
    simp only [hl, hf, hi, Bool.false_eq_true, if_false, if_true, Option.bind_eq_bind,
      Option.bind_some, Option.pure_def, Option.some.injEq, Prod.mk.injEq] at h
    exact .inl ⟨.inr (.inr (.inr hi)), h.2.symm⟩
  rcases ho : ospfsInode m ino with _ | symlinkOi
  · simp [hl, hf, hi, h0, ho] at h
  · simp only [hl, hf, hi, h0, ho, Bool.false_eq_true, if_false, Option.bind_eq_bind,
      Option.bind_some] at h
    refine .inr ⟨?_, _, ⟨ino, symlinkOi, hi, h0, ho, by omega, rfl⟩, enterInode_error hmem h⟩
    rintro (hl' | hl' | hf' | hi')
    · exact hl (.inl hl')
    · exact hl (.inr hl')
    · exact hf hf'
    · rw [hi] at hi'
      cases hi'
      exact h0 rfl

theorem ospfsLink_error {srcIno : Nat}
    (h : (NameCall.link srcIno name).run m dirIno = some (.error e, m')) :
    (NameCall.link srcIno name).FailsAs m dirOi e m' := by
  unfold NameCall.run ospfsLink at h
  by_cases hl : name.length > 123
  · simp only [hl, if_true] at h
    cases h
    exact .inl ⟨.inl hl, rfl⟩
  by_cases hf : (findDirentry m dirOi name).isSome
  · simp only [hl, hdir, hf, if_false, if_true, Option.bind_eq_bind, Option.bind_some,
      Option.pure_def, Option.some.injEq, Prod.mk.injEq] at h
    exact .inl ⟨.inr hf, h.2.symm⟩
  refine .inr ⟨fun hr => hr.elim hl hf, m, rfl, ?_⟩
  rcases hc : createBlankDirentry m dirOi with _ | ⟨e' | od, m₁⟩
  · simp [hl, hdir, hf, hc] at h
  · simp only [hl, hdir, hf, hc, Bool.false_eq_true, if_false, Option.bind_eq_bind,
      Option.bind_some, Option.pure_def, Option.some.injEq, Prod.mk.injEq,
      Except.error.injEq] at h
    rw [h.1, h.2] at hc
    exact createBlankDirentry_error hc
  · rcases ho : ospfsInode (writeDirentry m₁ od srcIno name) srcIno with _ | oi
    · simp [hl, hdir, hf, hc, ho] at h
    · simp [hl, hdir, hf, hc, ho] at h

end

theorem NameCall.error_cases (hdir : ospfsInode m dirIno = some dirOi) (he : NameError e)
    (h : c.run m dirIno = some (.error e, m')) : c.FailsAs m dirOi e m' := by
  have hmem : e ≠ .eNoMem := by
    rintro rfl
    rcases he with he | he | he <;> cases he
  have hio : e ≠ .eIo := by
    rintro rfl
    rcases he with he | he | he <;> cases he
  cases c with
  | create name mode newInode => exact ospfsCreate_error hdir hmem hio h
  | symlink name symname newInode => exact ospfsSymlink_error hdir hmem h
  | link srcIno name => exact ospfsLink_error hdir h

theorem findFreeFrom_free {k i : Nat} (h : findFreeFrom m k i = some ino) (h0 : ino ≠ 0) :
    ∃ oi, ospfsInode m ino = some oi ∧ oiNlink m oi = 0 := by
  induction k generalizing i with
  | zero =>
    cases h
    exact absurd rfl h0
  | succ k ih =>
    rw [findFreeFrom] at h
    rcases ho : ospfsInode m i with _ | oi
    · simp [ho] at h
    · simp only [ho, Option.bind_eq_bind, Option.bind_some] at h
      split at h
      · rename_i hn
        cases h
        exact ⟨oi, ho, hn⟩
      · exact ih h

namespace Volume

variable {V : Volume} {b d n x : Nat}

structure Dir (V : Volume) (m : Mem) (d : Nat) : Prop where
  inode : V.Inode d
  live : oiNlink m d ≠ 0
  dir : oiFtype m d = ftypeDir

/-- The blocks of every directory are allocated, each used at one place of it. -/
structure Directories (V : Volume) (m : Mem) : Prop where
  mounted : V.Mounted m
  boot : BootZero m
  size : ∀ d, V.Dir m d → fileblks m d ≤ maxfileblks
  owns : ∀ d, V.Dir m d → Owns (ptr m d) V.IsData
  taken : ∀ d, V.Dir m d → Taken m d

/-- What counts of a disk: the free bitmap, the inodes, and the entries of every directory. -/
structure SameState (V : Volume) (m m' : Mem) : Prop where
  bitmap : ∀ b < V.nblocks, isFree m' b = isFree m b
  inodes : ∀ x, 1024 * V.firstinob ≤ x → x < 1024 * V.firstdata → m' x = m x
  entries : ∀ d, V.Dir m d → ∀ off < oiSize m d, off % 128 = 0 →
    ospfsInodeData m' d off = ospfsInodeData m d off ∧
      m'.load (ospfsInodeData m d off) 128 = m.load (ospfsInodeData m d off) 128

theorem SameState.refl : V.SameState m m :=
  ⟨fun _ _ => rfl, fun _ _ _ => rfl, fun _ _ _ _ _ => ⟨rfl, rfl⟩⟩

theorem Dir.pointers (h : V.Dir m d) : oiFtype m d ≠ ftypeSymlink := by
  rw [h.dir]
  decide

theorem Directories.held (h : V.Directories m) (hd : V.Dir m d) : Held V d (fileblks m d) m := by
  refine ⟨h.mounted, h.owns d hd, ?_, h.boot⟩
  have := h.size d hd
  unfold fileblks maxfileblks at this
  unfold ospfsSize2nblocks fileblks
  omega

/-- The contents of a free block do not count. -/
theorem GivenBack.sameState (h : GivenBack V m m') (hd : V.Directories m) : V.SameState m m' := by
  rcases h with rfl | ⟨b, hb, hf, rfl⟩
  · exact .refl
  have := V.firstinob_ge
  have := V.firstdata_ge
  have hb' := hb.address
  have hfirst : osFirstinob (takeBlock m b) = V.firstinob := by
    rw [← hd.mounted.firstinob]
    exact Mem.get32_congr fun x _ hx => take_of_ne hb (.inl (by omega)) (by omega)
  obtain ⟨hbytes, hbits⟩ := freeBlock_data hfirst hb
  have hw (x : Nat) (hx : x < 2048 ∨ 1024 * V.firstinob ≤ x)
      (hx' : x < 1024 * b ∨ 1024 * b + 1024 ≤ x) : freeBlock (takeBlock m b) b x = m x :=
    (hbytes x hx).trans (take_of_ne hb hx hx')
  generalize freeBlock (takeBlock m b) b = m' at hbits hw
  refine ⟨fun c hc => ?_, fun x hx hx' => hw x (.inr hx) (by omega), fun d hdir off hoff hal => ?_⟩
  · rw [hbits, isFree_take hb hc]
    by_cases hbc : b = c
    · subst hbc
      simp [hf]
    · simp [hbc]
  · -- the blocks of a directory are not free
    obtain ⟨hlo, hhi, -⟩ := hdir.inode.address
    have hh := hd.held hdir
    have hne (p : Place) (h0 : ptr m d p ≠ 0) : ptr m d p ≠ b := by
      rintro rfl
      rw [hd.taken d hdir p h0] at hf
      cases hf
    have hptr : ∀ p, ptr m' d p = ptr m d p := by
      refine ptr_congr fun q hq => Mem.get32_congr fun x hx hx' => ?_
      rcases hh.points.slot_home hq with hin | ⟨t, -, ht0, h1, h2⟩
      · exact hw x (.inr (by omega)) (by omega)
      · have := hne t ht0
        have := (hh.points t ht0).address
        exact hw x (.inr (by omega)) (by omega)
    have hsize : oiSize m' d = oiSize m d :=
      Mem.get32_congr fun x hx hx' => hw x (.inr (by omega)) (by omega)
    have hty : oiFtype m' d = oiFtype m d :=
      Mem.get32_congr fun x hx hx' => hw x (.inr (by omega)) (by omega)
    have hboot : BootZero m' := fun x hx => (hw x (.inl (by omega)) (by omega)).trans (hd.boot x hx)
    have hmax : off / 1024 < maxfileblks :=
      Nat.lt_of_lt_of_le (Placed.inUse hoff) (hd.size d hdir)
    have hno : ospfsInodeBlockno m d off = ptr m d (.leaf (off / 1024)) :=
      hd.boot.ospfsInodeBlockno hoff hdir.pointers hmax
    have hno' : ospfsInodeBlockno m' d off = ptr m d (.leaf (off / 1024)) := by
      rw [hboot.ospfsInodeBlockno (by rwa [hsize]) (hty.trans_ne hdir.pointers) hmax, hptr]
    unfold ospfsInodeData
    rw [hno, hno']
    refine ⟨rfl, Mem.load_congr fun x hx hx' => ?_⟩
    by_cases h0 : ptr m d (.leaf (off / 1024)) = 0
    · have hz : ospfsBlock 0 = 0 := rfl
      rw [h0, hz] at hx hx'
      exact hw x (.inl (by omega)) (by omega)
    · have hp := hh.points _ h0
      have := hne _ h0
      have := hp.address
      rw [hp.block] at hx hx'
      exact hw x (.inr (by omega)) (by omega)

theorem claims_cases (hm : V.Mounted m) (h : c.Claims m w) : (c.IsLink ∧ w = m) ∨
    (¬ c.IsLink ∧ ∃ fileOi, V.Inode fileOi ∧ oiNlink m fileOi = 0 ∧ oiNlink w fileOi = 1 ∧
      ∀ x, x < fileOi ∨ fileOi + 64 ≤ x → w x = m x) := by
  cases c with
  | create name mode newInode =>
    obtain ⟨ino, fileOi, hi, h0, ho, rfl⟩ := h
    obtain ⟨oi, ho', hn⟩ := findFreeFrom_free hi h0
    rw [ho] at ho'
    cases ho'
    refine .inr ⟨id, fileOi, hm.inode ho, hn, ?_, fun x hx => ?_⟩
    · unfold initFile oiNlink
      rw [Mem.get32_set32_ne (by omega), Mem.get32_set32_of_lt (by decide)]
    · unfold initFile
      rw [Mem.set32_of_ne (by omega), Mem.set32_of_ne (by omega), Mem.set32_of_ne (by omega),
        Mem.set32_of_ne (by omega)]
  | symlink name symname newInode =>
    obtain ⟨ino, symlinkOi, hi, h0, ho, hlen, rfl⟩ := h
    obtain ⟨oi, ho', hn⟩ := findFreeFrom_free hi h0
    rw [ho] at ho'
    cases ho'
    refine .inr ⟨id, symlinkOi, hm.inode ho, hn, ?_, fun x hx => ?_⟩
    · unfold initSymlink oiNlink
      rw [Mem.get32_store_ne (by omega), Mem.get32_set32_ne (by omega),
        Mem.get32_set32_of_lt (by decide)]
    · unfold initSymlink
      rw [Mem.store_of_ne (by omega), Mem.set32_of_ne (by omega), Mem.set32_of_ne (by omega),
        Mem.set32_of_ne (by omega)]
  | link srcIno name => exact .inl ⟨trivial, h⟩

theorem Held.other_inode {fileOi : Nat} (h : Held V d n m) (ht : Taken m d) (hd : V.Inode d)
    (hf : V.Inode fileOi) (hne : fileOi ≠ d)
    (hw : ∀ x, x < fileOi ∨ fileOi + 64 ≤ x → w x = m x) :
    Held V d n w ∧ Taken w d ∧ oiSize w d = oiSize m d ∧
      ∀ x, fileOi ≤ x → x < fileOi + 64 → Far V d w x := by
  obtain ⟨hdlo, hdhi, -⟩ := hd.address
  obtain ⟨hflo, hfhi, -⟩ := hf.address
  have := V.firstdata_ge
  have hsep : fileOi + 64 ≤ d ∨ d + 64 ≤ fileOi := by
    obtain ⟨i, -, hi⟩ := hd
    obtain ⟨j, -, hj⟩ := hf
    omega
  have hptr : ∀ p, ptr w d p = ptr m d p := by
    refine ptr_congr fun q hq => Mem.get32_congr fun x hx hx' => hw x ?_
    rcases h.points.slot_home hq with hin | ⟨t, -, ht0, h1, h2⟩
    · omega
    · have := (h.points t ht0).address
      omega
  have hsize : oiSize w d = oiSize m d := Mem.get32_congr fun x hx hx' => hw x (by omega)
  have hlow : ∀ x < 1024 * V.firstinob, w x = m x := fun x hx => hw x (by omega)
  obtain ⟨hh, ht'⟩ := h.congr hlow hptr (hsize.symm ▸ h.count)
  refine ⟨hh, ht' ht, hsize,
    fun x hx hx' => ⟨by omega, by omega, fun p _ h0 => ?_, fun b hb _ => ?_⟩⟩
  · have := (hh.points p h0).address
    omega
  · have := hb.address
    omega

/-- **A name call that fails changes nothing** when it is refused, and a link also when
already the first `add_block` finds too few blocks. Else it does: the inode it has
claimed stays claimed, or the directory's growth is not undone. -/
theorem nameCall_atomic_iff (c : NameCall) (hdir : ospfsInode m dirIno = some dirOi)
    (he : NameError e) (hrun : c.run m dirIno = some (.error e, m')) :
    (c.Refused m dirOi → m' = m) ∧
    (V.Directories m → V.Dir m dirOi → c.IsLink →
      freeBlocks m < blocksNeeded m dirOi (fileblks m dirOi) → V.SameState m m') ∧
    (V.Directories m → V.Dir m dirOi →
      fileblks m dirOi + 8 ≤ maxfileblks ∨ fileblks m dirOi + freeBlocks m < maxfileblks →
      V.SameState m m' → c.Refused m dirOi ∨
        (c.IsLink ∧ freeBlocks m < blocksNeeded m dirOi (fileblks m dirOi))) := by
  have hcases := NameCall.error_cases hdir he hrun
  have hgrow (hd : V.Directories m) (hdd : V.Dir m dirOi) :
      ospfsSize2nblocks ((oiSize m dirOi + 8192) % 2 ^ 32) = fileblks m dirOi + 8 := by
    have := hd.size dirOi hdd
    unfold fileblks maxfileblks at this
    unfold ospfsSize2nblocks fileblks
    omega
  refine ⟨fun hr => ?_, fun hd hdd hl hroom => ?_, fun hd hdd hlim hsame => ?_⟩
  · rcases hcases with ⟨-, hm⟩ | ⟨hno, -⟩
    · exact hm
    · exact absurd hr hno
  · rcases hcases with ⟨-, rfl⟩ | ⟨-, w, hw, hc⟩
    · exact .refl
    rcases claims_cases hd.mounted hw with ⟨-, rfl⟩ | ⟨hno, -⟩
    · have hfail := (hd.held hdd).changeSize_fails (hd.taken _ hdd) hdd.inode
        (by rw [hgrow hd hdd]; omega) (hd.size _ hdd) hc
      exact (hfail.1 hroom).sameState hd
    · exact absurd hl hno
  · rcases hcases with ⟨hr, -⟩ | ⟨-, w, hw, hc⟩
    · exact .inl hr
    have hh := hd.held hdd
    have ht := hd.taken _ hdd
    obtain ⟨hlo, hhi, -⟩ := hdd.inode.address
    rcases claims_cases hd.mounted hw with ⟨hl, rfl⟩ | ⟨-, fileOi, hf, hz, hone, hout⟩
    · refine .inr ⟨hl, ?_⟩
      by_contra hroom
      have hfail := hh.changeSize_fails ht hdd.inode (by rw [hgrow hd hdd]; omega)
        (hd.size _ hdd) hc
      rcases hfail.2 (by rw [hgrow hd hdd]; exact hlim) hroom with ⟨a, ha, hfree, htaken⟩ | hD
      · have hbit := hsame.bitmap a ha.2
        rw [hfree, htaken] at hbit
        cases hbit
      · exact hD (Mem.get32_congr fun x hx hx' => hsame.inodes x (by omega) (by omega))
    · -- the inode that was claimed has a link
      exfalso
      have hne : fileOi ≠ dirOi := by
        rintro rfl
        exact hdd.live hz
      obtain ⟨hh', ht', hsize, hfar⟩ := hh.other_inode ht hdd.inode hf hne hout
      obtain ⟨hflo, hfhi, -⟩ := hf.address
      have hfree : freeBlocks w = freeBlocks m :=
        freeBlocks_congr hd.mounted fun x _ hx => hout x (by omega)
      rw [hsize] at hc
      rcases hh'.changeSize_grow ht' hdd.inode ((oiSize m dirOi + 8192) % 2 ^ 32)
        (by rw [hgrow hd hdd]; omega) (by rw [hgrow hd hdd, hfree]; exact hlim) with
        ⟨_, hok, -⟩ | ⟨m₁, herr, hu⟩
      · rw [hc] at hok
        cases hok
      · rw [hc] at herr
        cases herr
        have hkept : oiNlink m' fileOi = oiNlink w fileOi :=
          Mem.get32_congr fun x hx hx' => hu.far x (hfar x (by omega) (by omega))
        have hsame' : oiNlink m' fileOi = oiNlink m fileOi :=
          Mem.get32_congr fun x hx hx' => hsame.inodes x (by omega) (by omega)
        omega

def smallVolume : Volume := ⟨8, 4, 3, by decide, by decide, by decide⟩

/-- No block is free. The root directory has one block with eight entries, which all
name inode 3, a file of three blocks. Inode 2 is free. -/
def fullRootWord (j : Nat) : Nat :=
  if j < 256 then 0
  else if j = 257 then 8
  else if j = 258 then 4
  else if j = 259 then 3
  else if j = 784 then 1024
  else if j = 785 then ftypeDir
  else if j = 786 then 2
  else if j = 788 then 4
  else if j = 816 then 3072
  else if j = 818 then 8
  else if 820 ≤ j ∧ j < 823 then j - 815
  else if 1024 ≤ j ∧ j < 1280 then
    if j % 32 = 0 then 3 else if j % 32 = 1 then 97 + (j - 1024) / 32 else 0
  else 0

def fullRootDisk : Mem := Mem.ofWords fullRootWord

theorem fullRootDisk_ptr {p : Place} (h0 : ptr fullRootDisk 3136 p ≠ 0) :
    p = .leaf 0 ∧ ptr fullRootDisk 3136 p = 4 := by
  have hind : oiIndirect fullRootDisk 3136 = 0 := by decide +kernel
  have hind2 : oiIndirect2 fullRootDisk 3136 = 0 := by decide +kernel
  have hentry (j : Nat) : entry fullRootDisk 0 j = 0 := rfl
  have hdirect : ∀ b < 10, b ≠ 0 → oiDirect fullRootDisk 3136 b = 0 := by decide +kernel
  cases p with
  | leaf b =>
    by_cases hb : b = 0
    · subst hb
      exact ⟨rfl, by decide +kernel⟩
    · refine absurd ?_ h0
      simp only [ptr, hind, hind2, hentry, ite_self]
      split
      · exact hdirect b (by assumption) hb
      · rfl
  | indirect => exact absurd hind h0
  | indirect2 => exact absurd hind2 h0
  | indir2 k =>
    refine absurd ?_ h0
    simp only [ptr, hind2, hentry, ite_self]

theorem fullRootDisk_dir (h : smallVolume.Dir fullRootDisk d) : d = 3136 := by
  obtain ⟨⟨ino, hlt, rfl⟩, hlive, hdir⟩ := h
  have hno : ∀ i < 4, i ≠ 1 → oiNlink fullRootDisk (1024 * 3 + 64 * i) = 0 ∨
      oiFtype fullRootDisk (1024 * 3 + 64 * i) = ftypeReg := by decide +kernel
  have hone : ino = 1 := by
    by_contra hne
    rcases hno ino hlt hne with h0 | hreg
    · exact hlive h0
    · exact absurd (hdir.symm.trans hreg) (by decide)
  rw [hone]
  rfl

theorem fullRootDisk_directories : smallVolume.Directories fullRootDisk := by
  refine ⟨⟨by decide +kernel, by decide +kernel, by decide +kernel, by decide +kernel⟩,
    fun x hx => ?_, fun d hd => ?_, fun d hd => ?_, fun d hd => ?_⟩
  · have hw : fullRootWord (x / 4) = 0 := if_pos (by omega)
    show UInt8.ofNat (fullRootWord (x / 4) / 2 ^ (8 * (x % 4))) = 0
    rw [hw, Nat.zero_div]
    rfl
  · rw [fullRootDisk_dir hd]
    decide +kernel
  · rw [fullRootDisk_dir hd]
    refine ⟨fun p h0 => ?_, fun p q h0 he => ?_⟩
    · rw [(fullRootDisk_ptr h0).2]
      exact ⟨by decide, by decide⟩
    · rw [(fullRootDisk_ptr h0).1, (fullRootDisk_ptr (he.symm.trans_ne h0)).1]
  · rw [fullRootDisk_dir hd]
    intro p h0
    rw [(fullRootDisk_ptr h0).2]
    decide +kernel

/-- A file is created in the full root directory: the call fails, and inode 2 has a link. -/
theorem fullRoot_create_leaks : smallVolume.Directories fullRootDisk ∧
    oiNlink fullRootDisk 3200 = 0 ∧ ∃ m',
      ospfsCreate fullRootDisk 1 [110] 420 true = some (.error .eNoSpc, m') ∧
      oiNlink m' 3200 = 1 ∧ ¬ smallVolume.SameState fullRootDisk m' := by
  have hret : (ospfsCreate fullRootDisk 1 [110] 420 true).map (fun r => (r.1, oiNlink r.2 3200)) =
      some (.error .eNoSpc, 1) := by decide +kernel
  obtain ⟨⟨r, m'⟩, hrun, heq⟩ := Option.map_eq_some_iff.1 hret
  have hr : r = .error .eNoSpc := congrArg Prod.fst heq
  have hn : oiNlink m' 3200 = 1 := congrArg Prod.snd heq
  have hz : oiNlink fullRootDisk 3200 = 0 := by decide +kernel
  subst hr
  refine ⟨fullRootDisk_directories, hz, m', hrun, hn, fun hsame => ?_⟩
  have hk : oiNlink m' 3200 = oiNlink fullRootDisk 3200 := by
    refine Mem.get32_congr fun x hx hx' => hsame.inodes x ?_ ?_
    · have : smallVolume.firstinob = 3 := rfl
      omega
    · have : smallVolume.firstdata = 4 := rfl
      omega
  omega

end Volume

end OsLabs.Ospfs
