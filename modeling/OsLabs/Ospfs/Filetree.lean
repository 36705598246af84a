import OsLabs.Ospfs.Contents

/-!
# OSPFS: names and files

A `FileTree` says what the file system is for: the names in the directories and what the files
hold. Every run of `ospfs_create`, `ospfs_symlink`, `ospfs_link`, `ospfs_unlink`, `ospfs_write`,
`ospfs_read` and size changes from a formatted image is a run of such trees with the same calls
and results (`contents_refine`), and no data block is used at two places.
-/

namespace OsLabs.Ospfs

open Volume

/-! ## Calls -/

inductive FileCall
  | name (c : DirCall)
  | write (ino : Nat) (append : Bool) (buffer : Nat → Option UInt8) (count pos : Nat)
  | read (ino : Nat) (copyToUser : Nat → Bool) (count pos : Nat)
  | resize (ino size : Nat)

inductive FileRet
  | ret (r : Ret)
  | transfer (t : Transfer)
  deriving DecidableEq

/-- The inode is a regular file's. `ospfs_unlink` frees the inode of a file that is open, and a
symbolic link may get it then. -/
def Opened (m : Mem) (i : Nat) : Prop := ∃ oi, ospfsInode m i = some oi ∧ oiFtype m oi = ftypeReg

/-- A file may get this size: it is no 32-bit overflow away, and no indirect block is started under
the doubly indirect block. -/
def Growable (m : Mem) (oi size : Nat) : Prop :=
  size + 1023 < 2 ^ 32 ∧ NoNewTable (ospfsSize2nblocks (oiSize m oi)) (ospfsSize2nblocks size)

namespace FileCall

def run (m : Mem) : FileCall → Option (FileRet × Mem)
  | name c => (c.run m).map fun r => (.ret r.1, r.2)
  | write ino append buffer count pos => (ospfsInode m ino).bind fun oi =>
      (ospfsWrite m oi append buffer count pos).map fun r => (.transfer r.1, r.2)
  | read ino copyToUser count pos => (ospfsInode m ino).bind fun oi =>
      (ospfsRead m oi count pos copyToUser).map fun t => (.transfer t, m)
  | resize ino size => (ospfsInode m ino).bind fun oi =>
      (ospfsNotifySize m oi size).map fun r => (.ret r.1, r.2)

/-- What the kernel checks before it calls. -/
def Issued (m : Mem) : FileCall → Prop
  | name c => c.Issued m ∧ c.Current m
  | write _ _ _ _ _ | read _ _ _ _ | resize _ _ => True

/-- The call starts no new table, makes no file of a symbolic link's inode that still has the link's
text, reads only within the file, and is made on a regular file if it is a call on an open file. -/
def Contained (m : Mem) : FileCall → Prop
  | name c => c.Contained m ∧ c.Unmarked m
  | write ino append _ count pos => Opened m ino ∧ ∀ oi, ospfsInode m ino = some oi →
      Growable m oi (writeStart m oi append pos + count)
  | read ino _ count pos => Opened m ino ∧ ∀ oi, ospfsInode m ino = some oi →
      count < 2 ^ 32 ∧ pos ≤ oiSize m oi
  | resize ino size => Opened m ino ∧ ∀ oi, ospfsInode m ino = some oi → Growable m oi size

end FileCall

/-! ## The trees -/

/-- `file i` is what file `i` holds, or `none` when `i` is no regular file. -/
structure FileTree where
  names : Namespace
  file : Nat → Option Content

def DirCall.newFile : DirCall → Option Content
  | enter _ (.create _ _ _) => some .empty
  | _ => none

namespace FileTree

def put (t : FileTree) (i : Nat) (c : Content) : FileTree :=
  { t with file := Function.update t.file i (some c) }

/-- A call with its result, for `n` inodes. A call on names keeps every file that has a name before
and after it. -/
inductive Step (n : Nat) : FileTree → FileCall × FileRet → FileTree → Prop
  | name {t t' : FileTree} {c : DirCall} {r : Ret} (hs : Namespace.Step n t.names (c, r) t'.names)
      (hold : ∀ e e' i, t.names.bound e = some i → t'.names.bound e' = some i →
        t'.file i = t.file i)
      (hnew : ∀ e i, t.names.Fresh n i → t'.names.bound e = some i → t'.file i = c.newFile) :
      Step n t (.name c, .ret r) t'
  | write {t : FileTree} {i count pos : Nat} {append : Bool} {buffer : Nat → Option UInt8}
      {u : Transfer} {c c' : Content} (hc : t.file i = some c)
      (hw : c.Writes buffer count (if append then c.size else pos) u c') :
      Step n t (.write i append buffer count pos, .transfer u) (t.put i c')
  | writeFull {t : FileTree} {i count pos : Nat} {append : Bool} {buffer : Nat → Option UInt8}
      {c : Content} (hc : t.file i = some c)
      (hroom : Content.room c.size < Content.room ((if append then c.size else pos) + count)) :
      Step n t (.write i append buffer count pos,
        .transfer ⟨.error .eNoSpc, if append then c.size else pos, []⟩) t
  | read {t : FileTree} {i count pos : Nat} {copyToUser : Nat → Bool} {u : Transfer} {c : Content}
      (hc : t.file i = some c) (hr : c.Reads copyToUser count pos u) :
      Step n t (.read i copyToUser count pos, .transfer u) t
  | resize {t : FileTree} {i size : Nat} {c : Content} (hc : t.file i = some c) :
      Step n t (.resize i size, .ret (.ok ())) (t.put i (c.resize size))
  | resizeFull {t : FileTree} {i size : Nat} {c : Content} (hc : t.file i = some c)
      (hroom : Content.room c.size < Content.room size) :
      Step n t (.resize i size, .ret (.error .eNoSpc)) t

def system (n : Nat) : System FileTree (FileCall × FileRet) where
  Init t := t.names.lost = ∅
  Step := Step n

end FileTree

/-! ## The disk as a tree -/

variable {o : Options} {g : Geometry} {m m' : Mem} {s : Namespace} {t : FileTree} {i j : Nat}

instance (g : Geometry) (m : Mem) (j : Nat) : Decidable (Regular g m j) :=
  inferInstanceAs (Decidable (_ ∧ _))

def fileMap (g : Geometry) (m : Mem) (j : Nat) : Option Content :=
  if Regular g m j then some (content m j) else none

theorem fileMap_of_regular (h : Regular g m j) : fileMap g m j = some (content m j) := if_pos h

theorem Edits.fileMap_eq (h : Edits g i m m') (hi : Regular g m i) :
    fileMap g m' = Function.update (fileMap g m) i (some (content m' i)) := by
  funext j
  by_cases hji : j = i
  · subst hji
    rw [Function.update_self]
    exact if_pos (h.regular.2 hi)
  rw [Function.update_of_ne hji]
  by_cases hj : Regular g m j
  · rw [fileMap_of_regular (h.regular.2 hj), fileMap_of_regular hj, h.others j hj hji]
  · unfold fileMap
    rw [if_neg hj, if_neg fun h' => hj (h.regular.1 h')]

theorem Evolves.fileMap_old {kind : Nat} (h : Evolves g kind m m') (hj : j < g.ninodes)
    (hl : oiNlink m (inodeAddr j) ≠ 0) (hl' : oiNlink m' (inodeAddr j) ≠ 0) :
    fileMap g m' j = fileMap g m j := by
  have htype := h.ftypes j hj hl hl'
  have hiff : Regular g m' j ↔ Regular g m j := by
    unfold Regular
    rw [htype]
  by_cases hr : Regular g m j
  · rw [fileMap_of_regular (hiff.2 hr), fileMap_of_regular hr, h.old j hr hl hl']
  · unfold fileMap
    rw [if_neg hr, if_neg fun h' => hr (hiff.1 h')]

theorem Evolves.fileMap_new {c : DirCall} (h : Evolves g c.madeType m m') (hj : j < g.ninodes)
    (h0 : oiNlink m (inodeAddr j) = 0) (hl : oiNlink m' (inodeAddr j) ≠ 0) :
    fileMap g m' j = c.newFile := by
  obtain ⟨htype, hnew⟩ := h.new j hj h0 hl
  have hnone (hk : c.madeType = ftypeSymlink) : fileMap g m' j = none := by
    refine if_neg fun hr => ?_
    have hreg := hr.2
    rw [htype, hk] at hreg
    cases hreg
  cases c with
  | unlink d name ino => exact hnone rfl
  | enter d c =>
    cases c with
    | create name mode newInode =>
      rw [fileMap_of_regular ⟨hj, htype⟩, hnew rfl]
      rfl
    | symlink name symname newInode => exact hnone rfl
    | link ino name => exact hnone rfl

theorem Orderly.live (h : Orderly g m s) {e : Nat × Bytes} (he : s.bound e = some i) :
    i < g.ninodes ∧ oiNlink m (inodeAddr i) ≠ 0 := by
  have hb : s.bound (e.1, e.2) = some i := he
  obtain ⟨h2, hi, hpos⟩ := h.named hb
  exact ⟨hi, h.toTallied.live h2 hi hpos⟩

theorem Orderly.nlink_of_fresh (h : Orderly g m s) (hi : s.Fresh g.ninodes i) :
    oiNlink m (inodeAddr i) = 0 := by
  have hnone : {e | s.bound e = some i} = ∅ := Set.eq_empty_of_forall_notMem hi.unnamed
  rw [h.links_ncard hi.two_le hi.lt hi.file, hnone, Set.ncard_empty, if_neg hi.kept]

theorem Settled.opened (h : Settled g m) (ho : Opened m i) :
    ospfsInode m i = some (inodeAddr i) ∧ Regular g m i := by
  obtain ⟨oi, hoi, htype⟩ := ho
  obtain ⟨hi, rfl⟩ := h.tidy.of_ospfsInode hoi
  exact ⟨hoi, hi, htype⟩

/-- The disk `m` is the tree `t`. -/
structure Filed (g : Geometry) (m : Mem) (t : FileTree) : Prop where
  orderly : Orderly g m t.names
  settled : Settled g m
  file : t.file = fileMap g m

namespace Filed

variable (h : Filed g m t)

include h

theorem file_of_regular (hr : Regular g m i) : t.file i = some (content m i) := by
  rw [h.file]
  exact fileMap_of_regular hr

theorem edits (hr : Regular g m i) (he : Edits g i m m') : Filed g m' (t.put i (content m' i)) := by
  refine ⟨h.orderly.congr he.settled.standing he.names, he.settled, ?_⟩
  show Function.update t.file i _ = _
  rw [h.file, he.fileMap_eq hr]

theorem edits_same (hr : Regular g m i) (he : Edits g i m m') (hc : content m' i = content m i) :
    Filed g m' t := by
  refine ⟨h.orderly.congr he.settled.standing he.names, he.settled, ?_⟩
  rw [h.file, he.fileMap_eq hr, hc, ← fileMap_of_regular hr, Function.update_eq_self]

/-- **Calls on names** return, and are steps of the tree. -/
theorem nameStep {c : DirCall} (hi : c.Issued m) (hcur : c.Current m) (hc : c.Contained m)
    (hu : c.Unmarked m) : ∃ r m' t', c.run m = some (r, m') ∧
      t.Step g.ninodes (.name c, .ret r) t' ∧ Filed g m' t' := by
  obtain ⟨r, m', s', hrun, hstep, hord⟩ := h.orderly.step hi hcur hc
  have hev := h.settled.evolves h.orderly.toTallied hi hcur hc hu hrun
  refine ⟨r, m', ⟨s', fileMap g m'⟩, hrun, .name hstep (fun e e' j he he' => ?_)
    fun e j hfresh he => ?_, ⟨hord, hev.settled, rfl⟩⟩
  · obtain ⟨hj, hl⟩ := h.orderly.live he
    rw [h.file]
    exact hev.fileMap_old hj hl (hord.live he').2
  · exact hev.fileMap_new hfresh.lt (h.orderly.nlink_of_fresh hfresh) (hord.live he).2

/-- **Calls on files** do, too. -/
theorem step {c : FileCall} (hi : c.Issued m) (hc : c.Contained m) : ∃ r m' t',
    c.run m = some (r, m') ∧ t.Step g.ninodes (c, r) t' ∧ Filed g m' t' := by
  cases c with
  | name c =>
    obtain ⟨r, m', t', hrun, hstep, h'⟩ := h.nameStep hi.1 hi.2 hc.1 hc.2
    refine ⟨.ret r, m', t', ?_, hstep, h'⟩
    rw [FileCall.run, hrun]
    rfl
  | write i append buffer count pos =>
    obtain ⟨hoi, hr⟩ := h.settled.opened hc.1
    obtain ⟨hfit, hno⟩ := hc.2 _ hoi
    have hfile := h.file_of_regular hr
    obtain ⟨u, m', hrun, hed, hw | ⟨rfl, hroom, hsame⟩⟩ :=
      h.settled.writes hr.files hr.not_isDir append buffer hfit hno
    · refine ⟨.transfer u, m', _, ?_, .write hfile hw, h.edits hr hed⟩
      rw [FileCall.run, hoi, Option.bind_some, hrun]
      rfl
    · refine ⟨_, m', t, ?_, .writeFull hfile hroom, h.edits_same hr hed hsame⟩
      rw [FileCall.run, hoi, Option.bind_some, hrun]
      rfl
  | read i copyToUser count pos =>
    obtain ⟨hoi, hr⟩ := h.settled.opened hc.1
    obtain ⟨hcount, hpos⟩ := hc.2 _ hoi
    obtain ⟨u, hrun, hreads⟩ := h.settled.reads hr.files hcount hpos copyToUser
    refine ⟨.transfer u, m, t, ?_, .read (h.file_of_regular hr) hreads, h⟩
    rw [FileCall.run, hoi, Option.bind_some, hrun]
    rfl
  | resize i size =>
    obtain ⟨hoi, hr⟩ := h.settled.opened hc.1
    obtain ⟨hfit, hno⟩ := hc.2 _ hoi
    have hfile := h.file_of_regular hr
    have hkind : oiFtype m (inodeAddr i) ≠ ftypeDir := hr.not_isDir
    obtain ⟨r, m', hrun, hed, ⟨rfl, hsize⟩ | ⟨rfl, hroom, hsame⟩⟩ :=
      h.settled.changeSize hr.files hr.not_isDir hfit hno
    · have h' := h.edits hr hed
      rw [hsize] at h'
      refine ⟨.ret (.ok ()), m', _, ?_, .resize hfile, h'⟩
      rw [FileCall.run, hoi, Option.bind_some, ospfsNotifySize, if_neg hkind, hrun]
      rfl
    · refine ⟨.ret (.error .eNoSpc), m', t, ?_, .resizeFull hfile ?_, h.edits_same hr hed hsame⟩
      · rw [FileCall.run, hoi, Option.bind_some, ospfsNotifySize, if_neg hkind, hrun]
        rfl
      · rw [h.settled.fileBlocks hr.files] at hroom
        unfold ospfsSize2nblocks at hroom
        show Content.room (oiSize m (inodeAddr i)) < _
        unfold Content.room
        omega

end Filed

/-! ## Runs -/

/-- The calls and their results, from an image in which no name is entered twice. -/
def fileCalls (o : Options) : System Mem (FileCall × FileRet) where
  Init m := (∃ st, formatted o = some (st, m)) ∧ DistinctNames m
  Step m c m' := c.1.Issued m ∧ c.1.run m = some (c.2, m')

/-- What the disk says is what the tree says, and no data block is used at two places. -/
structure FileTree.Describes (t : FileTree) (m : Mem) : Prop where
  names : t.names.Describes m
  regular : ∀ i, (t.file i).isSome ↔ Opened m i
  bytes : ∀ i oi c, ospfsInode m i = some oi → t.file i = some c →
    oiSize m oi = c.size ∧ ∀ pos < c.size, m (ospfsInodeData m oi pos) = c.byte pos
  used : ∀ i oi pos, ospfsInode m i = some oi → oiFtype m oi ≠ ftypeSymlink → pos < oiSize m oi →
    isFree m (ospfsInodeBlockno m oi pos) = false
  exclusive : ∀ i j oi oj pos pos', ospfsInode m i = some oi → ospfsInode m j = some oj →
    oiFtype m oi ≠ ftypeSymlink → oiFtype m oj ≠ ftypeSymlink →
    pos < oiSize m oi → pos' < oiSize m oj →
    ospfsInodeBlockno m oi pos = ospfsInodeBlockno m oj pos' → i = j ∧ pos / 1024 = pos' / 1024
  returns : ∀ c : FileCall, c.Issued m → c.Contained m → ∃ r m', c.run m = some (r, m')

theorem Filed.describes (h : Filed g m t) : t.Describes m := by
  have hplace {i oi pos : Nat} (hoi : ospfsInode m i = some oi)
      (hty : oiFtype m oi ≠ ftypeSymlink) (hpos : pos < oiSize m oi) :
      ospfsInodeBlockno m oi pos = own m (Files g m) (i, .leaf (pos / 1024)) ∧
        own m (Files g m) (i, .leaf (pos / 1024)) ≠ 0 := by
    obtain ⟨hi, rfl⟩ := h.settled.tidy.of_ospfsInode hoi
    have hf : Files g m i := ⟨hi, hty⟩
    refine ⟨?_, h.settled.tidy.mapped_own hf (h.settled.block_lt hf hpos)⟩
    rw [own_of_mem hf]
    exact (h.settled.placed hf).inodeBlockno hpos
  refine ⟨h.orderly.describes, fun i => ⟨fun hs => ?_, fun ho => ?_⟩, fun i oi c hoi hc => ?_,
    fun i oi pos hoi hty hpos => ?_, fun i j oi oj pos pos' hoi hoj hty hty' hpos hpos' he => ?_,
    fun c hi hc => ?_⟩
  · rw [h.file] at hs
    unfold fileMap at hs
    split at hs
    · rename_i hr
      exact ⟨_, h.settled.tidy.ospfsInode hr.1, hr.2⟩
    · cases hs
  · rw [h.file_of_regular (h.settled.opened ho).2]
    rfl
  · obtain ⟨hi, rfl⟩ := h.settled.tidy.of_ospfsInode hoi
    rw [h.file] at hc
    unfold fileMap at hc
    split at hc
    · rename_i hr
      cases hc
      exact ⟨rfl, fun pos hpos => h.settled.data_byte hr.files hpos⟩
    · cases hc
  · obtain ⟨heq, h0⟩ := hplace hoi hty hpos
    rw [heq]
    exact (h.settled.tidy.laid.owns.ok _ h0).2
  · obtain ⟨heq, h0⟩ := hplace hoi hty hpos
    obtain ⟨heq', -⟩ := hplace hoj hty' hpos'
    have hij := h.settled.tidy.laid.owns.inj _ _ h0 (heq.symm.trans (he.trans heq'))
    exact ⟨congrArg Prod.fst hij, Place.leaf.inj (congrArg Prod.snd hij)⟩
  · obtain ⟨r, m', -, hrun, -⟩ := h.step hi hc
    exact ⟨r, m', hrun⟩

/-- **Files are byte sequences.** Every run of contained calls is a run of the trees, with the same
calls and results, and ends on a disk that the tree at its end describes. -/
theorem contents_refine {calls : List (FileCall × FileRet)}
    (h : (fileCalls o).RunIf (fun m c => c.1.Contained m) calls m) :
    ∃ t, (FileTree.system o.ninodes).Run calls t ∧ t.Describes m := by
  have hsim : ∃ t, (FileTree.system o.ninodes).Run calls t ∧
      ∃ g : Geometry, g.ninodes = o.ninodes ∧ Filed g m t := by
    refine h.simulates (R := fun m t => ∃ g : Geometry, g.ninodes = o.ninodes ∧ Filed g m t) ?_ ?_
    · rintro m ⟨⟨st, hf⟩, hn⟩
      obtain ⟨g, mc, hg, himg⟩ := formatted_fits hf
      exact ⟨⟨⟨_, _, ∅⟩, fileMap g m⟩, rfl, g, hg.ninodes, himg.orderly hn, himg.settled, rfl⟩
    · rintro m t ⟨c, r⟩ m' ⟨g, hg, hfiled⟩ hc ⟨hi, hrun⟩
      obtain ⟨r', m'', t', hrun', hstep, hfiled'⟩ := hfiled.step hi hc
      rw [hrun] at hrun'
      cases hrun'
      exact ⟨t', hg ▸ hstep, g, hg, hfiled'⟩
  obtain ⟨t, hrun, g, -, hfiled⟩ := hsim
  exact ⟨t, hrun, hfiled.describes⟩

/-! ## A run -/

instance (m : Mem) (i : Nat) : Decidable (Opened m i) :=
  decidable_of_iff ((ospfsInode m i).any fun oi => oiFtype m oi = ftypeReg) (by
    unfold Opened
    rw [Option.any_eq_true]
    simp only [decide_eq_true_eq])

instance (m : Mem) (oi size : Nat) : Decidable (Growable m oi size) :=
  inferInstanceAs (Decidable (_ ∧ _))

instance (m : Mem) : DecidablePred (DirCall.Unmarked m)
  | .enter _ (.create _ _ _) => inferInstanceAs (Decidable (∀ i ∈ findFreeInode m,
      ∀ oi ∈ ospfsInode m i, oiFtype m oi = ftypeSymlink → ∀ c < 12, _))
  | .enter _ (.symlink _ _ _) => inferInstanceAs (Decidable True)
  | .enter _ (.link _ _) => inferInstanceAs (Decidable True)
  | .unlink _ _ _ => inferInstanceAs (Decidable True)

instance (m : Mem) : DecidablePred (FileCall.Contained m)
  | .name _ => inferInstanceAs (Decidable (_ ∧ _))
  | .write i append _ count pos => inferInstanceAs (Decidable (Opened m i ∧ ∀ oi ∈ ospfsInode m i,
      Growable m oi (writeStart m oi append pos + count)))
  | .read i _ count pos => inferInstanceAs (Decidable (Opened m i ∧ ∀ oi ∈ ospfsInode m i,
      count < 2 ^ 32 ∧ pos ≤ oiSize m oi))
  | .resize i size => inferInstanceAs (Decidable (Opened m i ∧ ∀ oi ∈ ospfsInode m i,
      Growable m oi size))

/-- `Issued` for the calls on files and those that make a file or remove a name. -/
def issuedCheck (m : Mem) : FileCall → Bool
  | .name c => decide (c.Issued m) && currentCheck m c
  | .write _ _ _ _ _ | .read _ _ _ _ | .resize _ _ => true

theorem issued_of_check {c : FileCall} (h : issuedCheck m c = true) : c.Issued m := by
  cases c with
  | name c =>
    obtain ⟨hi, hcur⟩ := Bool.and_eq_true_iff.1 h
    exact ⟨of_decide_eq_true hi, current_of_check hcur⟩
  | write ino append buffer count pos => trivial
  | read ino copyToUser count pos => trivial
  | resize ino size => trivial

/-- Removing `l`, making a file `a`, writing `hi` and `!` to it and reading it. -/
def greeting : List (FileCall × FileRet) :=
  [(.name (.unlink 1 [108] 2), .ret (.ok ())),
    (.name (.enter 1 (.create [97] 420 true)), .ret (.ok ())),
    (.write 2 false (fun i => [104, 105][i]?) 2 0, .transfer ⟨.ok 2, 2, []⟩),
    (.write 2 true (fun i => [33][i]?) 1 0, .transfer ⟨.ok 1, 3, []⟩),
    (.read 2 (fun _ => true) 10 1, .transfer ⟨.ok 2, 3, [105, 33]⟩)]

def greeted : Option Mem := do
  let r ← formatted (oneLink ⟨[120], by decide⟩)
  if DistinctNames r.2 then
    System.execIf (fun m c => issuedCheck m c.1 && decide (c.1.Contained m))
      (fun m c => (c.1.run m).bind fun r => if r.1 = c.2 then some r.2 else none) r.2 greeting
  else none

theorem greeted_run (h : greeted = some m) : (fileCalls (oneLink ⟨[120], by decide⟩)).RunIf
    (fun m c => c.1.Contained m) greeting.reverse m := by
  unfold greeted at h
  obtain ⟨⟨st, m₀⟩, hf, h⟩ := Option.bind_eq_some_iff.1 h
  split at h
  case isFalse => cases h
  rename_i hn
  refine System.runIf_of_execIf ?_ ⟨⟨st, hf⟩, hn⟩ h
  intro m c m' hc hr
  obtain ⟨hi, hcont⟩ := Bool.and_eq_true_iff.1 hc
  obtain ⟨⟨r, m''⟩, hrun, hr⟩ := Option.bind_eq_some_iff.1 hr
  split at hr
  case isFalse => cases hr
  rename_i hres
  cases hr
  obtain rfl : r = c.2 := hres
  exact ⟨of_decide_eq_true hcont, issued_of_check hi, hrun⟩

theorem contents_refine_greeted : ∃ m t c,
    (fileCalls (oneLink ⟨[120], by decide⟩)).RunIf (fun m c => c.1.Contained m)
      greeting.reverse m ∧
    (FileTree.system 16).Run greeting.reverse t ∧
    t.file 2 = some c ∧ c.load 0 c.size = [104, 105, 33] := by
  have hsome : greeted.any (fun m => decide ((ospfsInode m 2).any fun oi =>
      decide (oiFtype m oi = ftypeReg ∧ oiSize m oi = 3 ∧
        m (ospfsInodeData m oi 0) = 104 ∧ m (ospfsInodeData m oi 1) = 105 ∧
        m (ospfsInodeData m oi 2) = 33))) = true := by decide +kernel
  obtain ⟨m, hm, hchecks⟩ := (Option.any_eq_true _ _).1 hsome
  obtain ⟨oi, hoi, hchecks⟩ := (Option.any_eq_true _ _).1 (of_decide_eq_true hchecks)
  obtain ⟨htype, hsize, h0, h1, h2⟩ := of_decide_eq_true hchecks
  obtain ⟨t, hrun, hdesc⟩ := contents_refine (greeted_run hm)
  obtain ⟨c, hc⟩ := Option.isSome_iff_exists.1 ((hdesc.regular 2).2 ⟨oi, hoi, htype⟩)
  obtain ⟨hsz, hbytes⟩ := hdesc.bytes 2 oi c hoi hc
  have h3 : c.size = 3 := hsz.symm.trans hsize
  refine ⟨m, t, c, greeted_run hm, hrun, hc, ?_⟩
  rw [h3]
  show [c.byte 0, c.byte 1, c.byte 2] = _
  rw [← hbytes 0 (by omega), ← hbytes 1 (by omega), ← hbytes 2 (by omega), h0, h1, h2]

end OsLabs.Ospfs
