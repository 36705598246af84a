import OsLabs.Ospfs.Failing
import OsLabs.Ospfs.Lost

/-!
# OSPFS: who holds a block

`Exclusive g m`: each block that a live file or directory uses, be it for data or for pointers, is a
data block, is not free, and is held at one place of one inode. Runs of all the calls keep it from
any image on (`fileRuns_exclusive`), if `ospfs_create` is not given the inode of a symbolic link
whose text it would take for block numbers.
-/

namespace OsLabs.Ospfs

open Volume

variable {o : Options} {g : Geometry} {S : Nat → Prop} {m m' : Mem} {lost : Finset Nat}
  {i ino : Nat} {p : Place}

/-! ## Blocks in use -/

/-- A live file or directory whose size calls for a block at the place. -/
structure Uses (m : Mem) (i oi : Nat) (p : Place) : Prop where
  inode : ospfsInode m i = some oi
  kind : oiFtype m oi = ftypeReg ∨ oiFtype m oi = ftypeDir
  live : oiNlink m oi ≠ 0
  inUse : p.InUse (ospfsSize2nblocks (oiSize m oi))

structure Exclusive (g : Geometry) (m : Mem) : Prop where
  data : ∀ i oi p, Uses m i oi p → Allocated g m (ptr m oi p)
  once : ∀ i j oi oj p q, Uses m i oi p → ospfsInode m j = some oj →
    oiFtype m oj ≠ ftypeSymlink → ptr m oj q = ptr m oi p → j = i ∧ q = p
  low : ∀ b < g.firstdata, isFree m b = false

/-- The pointer blocks on the way to a block are there. -/
theorem Tidy.used (h : Tidy g S m) (hs : S ino) (hp : p.InUse (fileBlocks m ino)) :
    ptr m (inodeAddr ino) p ≠ 0 := by
  have hsmall := h.fileBlocks_small hs
  have hentry {t j : Nat} (h0 : entry m t j ≠ 0) : t ≠ 0 := fun hz => h0 (if_pos hz)
  have hunder (k : Nat) (hk : 266 + 256 * k < fileBlocks m ino) :
      entry m (oiIndirect2 m (inodeAddr ino)) k ≠ 0 := by
    have hmapped := h.mapped ino hs (266 + 256 * k) hk
    have hmax : 266 + 256 * k < maxfileblks := by
      unfold maxfileblks
      omega
    have hdiv : (266 + 256 * k - 266) / 256 = k := by omega
    rw [ptr, if_neg (by omega), if_neg (by omega), if_pos hmax, hdiv] at hmapped
    exact hentry hmapped
  cases p with
  | leaf b => exact h.mapped ino hs b hp
  | indirect => exact h.indirect_ne_zero hs hp
  | indirect2 => exact hentry (hunder 0 hp)
  | indir2 k =>
    have hk : k < 256 := by
      have hp' : 266 + 256 * k < fileBlocks m ino := hp
      omega
    rw [ptr, if_pos hk]
    exact hunder k hp

theorem Settled.exclusive (h : Settled g m) : Exclusive g m := by
  have huse {i oi : Nat} {p : Place} (hu : Uses m i oi p) : ∃ hf : Files g m i,
      ptr m oi p = own m (Files g m) (i, p) ∧ own m (Files g m) (i, p) ≠ 0 := by
    obtain ⟨hi, rfl⟩ := h.tidy.of_ospfsInode hu.inode
    have hf : Files g m i := by
      refine ⟨hi, ?_⟩
      rcases hu.kind with hk | hk <;> rw [hk] <;> decide
    refine ⟨hf, (own_of_mem hf p).symm, ?_⟩
    rw [own_of_mem hf]
    exact h.tidy.used hf hu.inUse
  refine ⟨fun i oi p hu => ?_, fun i j oi oj p q hu hoj hty he => ?_, h.tidy.low⟩
  · obtain ⟨hf, hown, h0⟩ := huse hu
    rw [hown]
    exact h.tidy.laid.owns.ok _ h0
  · obtain ⟨hf, hown, h0⟩ := huse hu
    obtain ⟨hj, rfl⟩ := h.tidy.of_ospfsInode hoj
    have hfj : Files g m j := ⟨hj, hty⟩
    rw [hown, ← own_of_mem hfj] at he
    have hij := h.tidy.laid.owns.inj _ _ h0 he.symm
    exact ⟨(congrArg Prod.fst hij).symm, (congrArg Prod.snd hij).symm⟩

/-! ## Calls -/

/-- The call is refused, or it is tame and makes no file of a symbolic link's inode that still has
the link's text. -/
def DirCall.Spared (m : Mem) : DirCall → Prop
  | enter dirIno c => ∀ oi, ospfsInode m dirIno = some oi → c.Refused m oi ∨
      (c.Fits ∧ StaysInTables m dirIno ∧ (enter dirIno c).Unmarked m)
  | unlink _ _ _ => True

namespace FileCall

def Handed (m : Mem) : FileCall → Prop
  | name c => c.Handed m ∧ c.Current m
  | write _ _ _ _ _ | read _ _ _ _ | resize _ _ => True

/-- As `Careful`, where a call on names that is refused may be made on any directory. -/
def Spared (m : Mem) : FileCall → Prop
  | name c => c.Spared m
  | c => c.Careful m

end FileCall

theorem DirCall.Spared.tame {c : DirCall} (h : c.Spared m) : c.Tame m := by
  cases c with
  | unlink d name i => trivial
  | enter d c => exact fun oi hoi => (h oi hoi).imp_right fun h => ⟨h.1, h.2.1⟩

theorem Settled.nameCall (h : Settled g m) (hl : Tallied g m lost) {c : DirCall} {r : Ret}
    (hi : c.Handed m) (hcur : c.Current m) (hc : c.Spared m) (hrun : c.run m = some (r, m')) :
    Settled g m' := by
  cases c with
  | unlink d name i =>
    have hi' : (DirCall.unlink d name i).Issued m := hi
    exact (h.evolves hl hi' hcur trivial trivial hrun).settled
  | enter d c =>
    have hoi := h.tidy.ospfsInode (h.standing.isDirectory_iff.1 hi.isDirectory).1
    rcases hc _ hoi with href | ⟨hfits, hno, hclean⟩
    · obtain ⟨e, hrun'⟩ := href.run hoi
      cases hrun.symm.trans hrun'
      exact h
    · exact (h.evolves hl (hi.issued hfits) hcur hno hclean hrun).settled

/-- **One call** keeps the blocks and the link counts in order. -/
theorem Settled.call (h : Settled g m) (hl : Tallied g m lost) {c : FileCall} {r : FileRet}
    (hi : c.Handed m) (hc : c.Spared m) (hrun : c.run m = some (r, m')) :
    Settled g m' ∧ ∃ lost', Tallied g m' lost' := by
  have hedits {i : Nat} (he : Edits g i m m') : Settled g m' ∧ ∃ lost', Tallied g m' lost' :=
    ⟨he.settled, lost, hl.congr he.settled.standing he.names⟩
  cases c with
  | name c =>
    obtain ⟨⟨r', m₁⟩, hrun', he⟩ := Option.map_eq_some_iff.1 hrun
    cases he
    obtain ⟨lost', hl', -⟩ := hl.step hi.1 hi.2 hc.tame hrun'
    exact ⟨h.nameCall hl hi.1 hi.2 hc hrun', lost', hl'⟩
  | write i append buffer count pos =>
    obtain ⟨hoi, hr⟩ := h.opened hc.1
    obtain ⟨hfit, hno⟩ := hc.2 _ hoi
    obtain ⟨u, m₁, hrun', hed, -⟩ := h.writes hr.files hr.not_isDir append buffer hfit hno
    rw [FileCall.run, hoi, Option.bind_some, hrun'] at hrun
    cases hrun
    exact hedits hed
  | read i copyToUser count pos =>
    obtain ⟨oi, -, hrun'⟩ := Option.bind_eq_some_iff.1 hrun
    obtain ⟨u, -, he⟩ := Option.map_eq_some_iff.1 hrun'
    cases he
    exact ⟨h, lost, hl⟩
  | resize i size =>
    obtain ⟨hoi, hr⟩ := h.opened hc.1
    obtain ⟨hfit, hno⟩ := hc.2 _ hoi
    have hkind : oiFtype m (inodeAddr i) ≠ ftypeDir := hr.not_isDir
    obtain ⟨u, m₁, hrun', hed, -⟩ := h.changeSize hr.files hr.not_isDir hfit hno
    rw [FileCall.run, hoi, Option.bind_some, ospfsNotifySize, if_neg hkind, hrun'] at hrun
    cases hrun
    exact hedits hed

/-! ## Runs -/

/-- The calls and their results, from an image. -/
def fileRuns (o : Options) : System Mem (FileCall × FileRet) where
  Init m := ∃ st, formatted o = some (st, m)
  Step m c m' := c.1.Handed m ∧ c.1.run m = some (c.2, m')

/-- **Blocks have one holder** in every state of a run of spared calls. -/
theorem fileRuns_exclusive {calls : List (FileCall × FileRet)}
    (h : (fileRuns o).RunIf (fun m c => c.1.Spared m) calls m) :
    ∃ g, Super g m ∧ Exclusive g m := by
  have hinv : ∃ g lost, Settled g m ∧ Tallied g m lost := by
    refine h.inv (I := fun _ m => ∃ g lost, Settled g m ∧ Tallied g m lost) ?_ ?_
    · rintro m ⟨st, hf⟩
      obtain ⟨g, mc, -, himg⟩ := formatted_fits hf
      exact ⟨g, ∅, himg.settled, himg.tallied⟩
    · rintro calls m ⟨c, r⟩ m' ⟨g, lost, hset, hl⟩ hc ⟨hi, hrun⟩
      obtain ⟨hset', lost', hl'⟩ := hset.call hl hi hc hrun
      exact ⟨g, lost', hset', hl'⟩
  obtain ⟨g, lost, hset, -⟩ := hinv
  exact ⟨g, hset.tidy.super, hset.exclusive⟩

theorem FileCall.Issued.handed {c : FileCall} (h : c.Issued m) : c.Handed m := by
  cases c with
  | name c =>
    refine ⟨?_, h.2⟩
    rcases c with ⟨d, ⟨name, mode, newInode⟩ | _ | _⟩ | _
    · exact h.1.1
    all_goals exact h.1
  | write ino append buffer count pos => trivial
  | read ino copyToUser count pos => trivial
  | resize ino size => trivial

theorem FileCall.Contained.spared {c : FileCall} (h : c.Contained m) (hi : c.Issued m) :
    c.Spared m := by
  cases c with
  | name c =>
    cases c with
    | unlink d name i => trivial
    | enter d c =>
      refine fun oi _ => .inr ⟨?_, h.1, h.2⟩
      cases c with
      | create name mode newInode => exact hi.1.2
      | symlink name symname newInode => trivial
      | link i name => trivial
  | write ino append buffer count pos => exact h
  | read ino copyToUser count pos => trivial
  | resize ino size => exact h

/-- The runs of contained calls are among these. -/
theorem fileRuns_of_contained {calls : List (FileCall × FileRet)}
    (h : (fileCalls o).RunIf (fun m c => c.1.Contained m) calls m) :
    (fileRuns o).RunIf (fun m c => c.1.Spared m) calls m := by
  refine h.inv (I := fun calls m => (fileRuns o).RunIf (fun m c => c.1.Spared m) calls m) ?_ ?_
  · rintro m ⟨hf, -⟩
    exact .init hf
  · rintro calls m c m' hr hc ⟨hi, hrun⟩
    exact hr.step (hc.spared hi) ⟨hi.handed, hrun⟩

/-- The file that `greeting` makes in the link's inode has one block. -/
theorem fileRuns_exclusive_greeted : ∃ m g,
    (fileRuns (oneLink ⟨[120], by decide⟩)).RunIf (fun m c => c.1.Spared m) greeting.reverse m ∧
    Super g m ∧ Exclusive g m ∧
    ∃ oi, Uses m 2 oi (.leaf 0) ∧ isFree m (ptr m oi (.leaf 0)) = false := by
  have hsome : greeted.any (fun m => decide ((ospfsInode m 2).any fun oi =>
      decide (oiFtype m oi = ftypeReg ∧ oiNlink m oi = 1 ∧
        ospfsSize2nblocks (oiSize m oi) = 1))) = true := by decide +kernel
  obtain ⟨m, hm, hchecks⟩ := (Option.any_eq_true _ _).1 hsome
  obtain ⟨oi, hoi, hchecks⟩ := (Option.any_eq_true _ _).1 (of_decide_eq_true hchecks)
  obtain ⟨htype, hlink, hblocks⟩ := of_decide_eq_true hchecks
  have hrun := fileRuns_of_contained (greeted_run hm)
  obtain ⟨g, hsuper, hexcl⟩ := fileRuns_exclusive hrun
  have huse : Uses m 2 oi (.leaf 0) := by
    refine ⟨hoi, .inl htype, by omega, ?_⟩
    rw [hblocks]
    exact Nat.zero_lt_one
  exact ⟨m, g, hrun, hsuper, hexcl, oi, huse, (hexcl.data 2 oi _ huse).2⟩

/-! ## A link's text as a block number -/

/-- Forty-five bytes; the last one stands in the first byte of `oi_indirect`. -/
def numberText : CString := ⟨List.replicate 44 97 ++ [5], by decide⟩

/-- Removing the link, making a file `a` and giving it eleven blocks. -/
def reusing : List (FileCall × FileRet) :=
  [(.name (.unlink 1 [108] 2), .ret (.ok ())),
    (.name (.enter 1 (.create [97] 420 true)), .ret (.ok ())),
    (.resize 2 11264, .ret (.ok ()))]

def reused : Option Mem := do
  let r ← formatted (oneLink numberText)
  System.execIf (fun m c => issuedCheck m c.1)
    (fun m c => (c.1.run m).bind fun r => if r.1 = c.2 then some r.2 else none) r.2 reusing

theorem reused_run (h : reused = some m) :
    (fileRuns (oneLink numberText)).Run reusing.reverse m := by
  unfold reused at h
  obtain ⟨⟨st, m₀⟩, hf, h⟩ := Option.bind_eq_some_iff.1 h
  refine System.runIf_of_execIf ?_ ⟨st, hf⟩ h
  intro m c m' hi hr
  obtain ⟨⟨r, m''⟩, hrun, hr⟩ := Option.bind_eq_some_iff.1 hr
  split at hr
  case isFalse => cases hr
  rename_i hres
  cases hr
  obtain rfl : r = c.2 := hres
  exact ⟨trivial, (issued_of_check hi).handed, hrun⟩

/-- Block 5 is the first block of `a` and its indirect block. -/
theorem fileRuns_shared : ∃ m, (fileRuns (oneLink numberText)).Run reusing.reverse m ∧
    ¬ ∃ g, Super g m ∧ Exclusive g m := by
  have hsome : reused.any (fun m => decide ((ospfsInode m 2).any fun oi =>
      decide (oiFtype m oi = ftypeReg ∧ oiNlink m oi = 1 ∧
        ospfsSize2nblocks (oiSize m oi) = 11 ∧ oiDirect m oi 0 = oiIndirect m oi))) = true := by
    decide +kernel
  obtain ⟨m, hm, hchecks⟩ := (Option.any_eq_true _ _).1 hsome
  obtain ⟨oi, hoi, hchecks⟩ := (Option.any_eq_true _ _).1 (of_decide_eq_true hchecks)
  obtain ⟨htype, hlink, hblocks, hsame⟩ := of_decide_eq_true hchecks
  refine ⟨m, reused_run hm, ?_⟩
  rintro ⟨g, -, hexcl⟩
  have huse : Uses m 2 oi .indirect := by
    refine ⟨hoi, .inl htype, by omega, ?_⟩
    rw [hblocks]
    show 10 < 11
    decide
  have hnot : oiFtype m oi ≠ ftypeSymlink := by
    rw [htype]
    decide
  have hone := hexcl.once 2 2 oi oi .indirect (.leaf 0) huse hoi hnot hsame
  cases hone.2

end OsLabs.Ospfs
