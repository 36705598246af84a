import OsLabs.Ospfs.Atomic
import OsLabs.Ospfs.Growdir
import OsLabs.Ospfs.Finish

/-!
# OSPFS: the file system between calls

`Standing g m` is what holds of a disk between the calls of `ospfs_create`, `ospfs_link`,
`ospfs_symlink` and `ospfs_unlink`: the directories and the files that are not empty have blocks
of their own. The pointers of the other inodes may be anything, since `ospfs_create` takes an
inode over with the pointers it finds. A directory that grows by a new indirect block under the
doubly indirect block (`NoNewTable`) loses a block; no run here goes there.
-/

namespace OsLabs.Ospfs

variable {g : Geometry} {S : Nat → Prop} {st : Globals} {m m' w : Mem} {d ino k : Nat}
  {name : Bytes}

/-! ## The block map at a new table -/

theorem Tidy.nextUnder_ne_zero (h : Tidy g S m) (hs : S ino) (hle : 266 ≤ fileBlocks m ino)
    (hne : (fileBlocks m ino - 266) % 256 ≠ 0) : nextUnder m (inodeAddr ino) ≠ 0 := by
  have hsmall := h.fileBlocks_small hs
  have h0 := h.mapped ino hs (fileBlocks m ino - 1) (by omega)
  have hdiv : (fileBlocks m ino - 1 - 266) / 256 = (fileBlocks m ino - 266) / 256 := by omega
  unfold ptr at h0
  simp only at h0
  rw [if_neg (by omega), if_neg (by omega), if_pos (by unfold maxfileblks; omega), hdiv] at h0
  intro hz
  change ptr m (inodeAddr ino) (.indir2 ((fileBlocks m ino - 266) / 256)) = 0 at hz
  unfold ptr at hz
  simp only at hz
  rw [if_pos (by omega)] at hz
  rw [hz] at h0
  exact h0 (if_pos rfl)

theorem Tidy.linked (h : Tidy g S m) (hs : S ino)
    (hno : fileBlocks m ino < 266 ∨ (fileBlocks m ino - 266) % 256 ≠ 0) :
    Linked m (inodeAddr ino) := by
  by_cases hlt : fileBlocks m ino < 266
  · exact .inl hlt
  · exact .inr (.inl (h.nextUnder_ne_zero hs (by omega) (hno.resolve_left hlt)))

theorem Tidy.eachAdd_linked {newSize fuel : Nat} (h : Tidy g S m) (hs : S ino)
    (hno : Volume.NoNewTable (fileBlocks m ino) (ospfsSize2nblocks newSize)) :
    eachAdd Linked (inodeAddr ino) newSize fuel m := by
  induction fuel generalizing m with
  | zero => trivial
  | succ fuel ih =>
    intro hlt
    have hl := h.linked hs (hno _ (Nat.le_refl _) hlt)
    refine ⟨hl, fun hok => ?_⟩
    rcases h.addBlock hs hl with ⟨-, -, hadd, -⟩ | ⟨herr, -, -⟩
    · refine ih hadd.tidy fun i hi hi' => hno i ?_ hi'
      have := hadd.blocks
      omega
    · rw [herr] at hok
      cases hok

theorem Tidy.growLinked {newSize : Nat} (h : Tidy g S m) (hs : S ino)
    (hno : Volume.NoNewTable (fileBlocks m ino) (ospfsSize2nblocks newSize)) :
    GrowLinked m (inodeAddr ino) newSize :=
  h.eachAdd_linked hs hno

/-! ## The invariant -/

/-- The inodes whose blocks count: directories, and files that are not empty. -/
def Occupied (g : Geometry) (m : Mem) (j : Nat) : Prop :=
  Files g m j ∧ (IsDir m j ∨ oiSize m (inodeAddr j) ≠ 0)

structure Standing (g : Geometry) (m : Mem) : Prop where
  tidy : Tidy g (Occupied g m) m
  dirs : ∀ d, d < g.ninodes → IsDir m d →
    oiSize m (inodeAddr d) % 1024 = 0 ∧ oiNlink m (inodeAddr d) ≠ 0

theorem Image.standing (h : Image g st w m) : Standing g m :=
  ⟨h.tidy.congr (fun _ hj => hj.1) (fun _ _ => rfl) (fun _ _ _ => rfl) fun _ _ => Nat.le_refl _,
    h.tree.dirs⟩

namespace Standing

theorem occupied (hd : d < g.ninodes) (hdir : IsDir m d) : Occupied g m d :=
  ⟨files_of_isDir hdir hd, .inl hdir⟩

theorem dirOk (h : Standing g m) (hd : d < g.ninodes) (hdir : IsDir m d) :
    DirOk (Occupied g m) m d :=
  ⟨occupied hd hdir, hdir, (h.dirs d hd hdir).1⟩

theorem of_tidy (ht : Tidy g S m) (hS : ∀ j, Occupied g m j → S j)
    (hdirs : ∀ d, d < g.ninodes → IsDir m d →
      oiSize m (inodeAddr d) % 1024 = 0 ∧ oiNlink m (inodeAddr d) ≠ 0) : Standing g m :=
  ⟨ht.congr hS (fun _ _ => rfl) (fun _ _ _ => rfl) fun _ _ => Nat.le_refl _, hdirs⟩

end Standing

/-! ## What a call does to the inodes -/

def SameInode (m m' : Mem) (j : Nat) : Prop :=
  ∀ x, inodeAddr j ≤ x → x < inodeAddr j + 64 → m' x = m x

theorem SameInode.word {j c : Nat} (h : SameInode m m' j) (hc : c + 4 ≤ 64) :
    m'.get32 (inodeAddr j + c) = m.get32 (inodeAddr j + c) :=
  Mem.get32_congr fun x _ _ => h x (by omega) (by omega)

theorem isDir_congr {j : Nat} (h : oiFtype m' (inodeAddr j) = oiFtype m (inodeAddr j)) :
    IsDir m' j ↔ IsDir m j := by
  unfold IsDir
  rw [h]

theorem SameInode.of_others {j : Nat}
    (hw : ∀ x, x < inodeAddr ino ∨ inodeAddr ino + 64 ≤ x → m' x = m x) (hne : j ≠ ino) :
    SameInode m m' j := by
  intro x hx hx'
  unfold inodeAddr at hw hx hx'
  exact hw x (by omega)

theorem SameInode.isDir {j : Nat} (h : SameInode m m' j) : IsDir m' j ↔ IsDir m j :=
  isDir_congr (h.word (by omega))

theorem SameInode.size {j : Nat} (h : SameInode m m' j) :
    oiSize m' (inodeAddr j) = oiSize m (inodeAddr j) := h.word (c := 0) (by omega)

theorem SameInode.ftype {j : Nat} (h : SameInode m m' j) :
    oiFtype m' (inodeAddr j) = oiFtype m (inodeAddr j) := h.word (by omega)

theorem SameInode.nlink {j : Nat} (h : SameInode m m' j) :
    oiNlink m' (inodeAddr j) = oiNlink m (inodeAddr j) := h.word (by omega)

theorem SameInode.occupied {j : Nat} (h : SameInode m m' j) :
    Occupied g m' j ↔ Occupied g m j := by
  unfold Occupied Files
  rw [h.isDir, h.size, h.ftype]

/-- What an operation on the entries of directory `d` does. -/
structure Touched (g : Geometry) (d : Nat) (m m' : Mem) : Prop where
  standing : Standing g m'
  others : ∀ j, j < g.ninodes → j ≠ d → SameInode m m' j
  isDir : IsDir m' d

theorem Touched.trans {m'' : Mem} (h : Touched g d m m') (h' : Touched g d m' m'') :
    Touched g d m m'' :=
  ⟨h'.standing, fun j hj hne x hx hx' =>
    (h'.others j hj hne x hx hx').trans (h.others j hj hne x hx hx'), h'.isDir⟩

/-- The blocks of directory `d` change. -/
theorem Standing.touched (h : Standing g m) (hd : d < g.ninodes) (hdir : IsDir m d)
    (ht : Tidy g (Occupied g m) m') (hothers : ∀ j, j < g.ninodes → j ≠ d → SameInode m m' j)
    (hattrs : ∀ x, inodeAddr d + 4 ≤ x → x < inodeAddr d + 16 → m' x = m x)
    (hsize : oiSize m' (inodeAddr d) % 1024 = 0) : Touched g d m m' := by
  have htype : oiFtype m' (inodeAddr d) = oiFtype m (inodeAddr d) :=
    Mem.get32_congr fun x hx hx' => hattrs x hx (by omega)
  have hnlink : oiNlink m' (inodeAddr d) = oiNlink m (inodeAddr d) :=
    Mem.get32_congr fun x hx hx' => hattrs x (by omega) (by omega)
  have hdir' : IsDir m' d := htype.trans hdir
  refine ⟨.of_tidy ht (fun j hj => ?_) fun e he hedir => ?_, hothers, hdir'⟩
  · by_cases hjd : j = d
    · subst hjd
      exact Standing.occupied hd hdir
    · exact (hothers j hj.1.1 hjd).occupied.1 hj
  · by_cases hed : e = d
    · subst hed
      rw [hnlink]
      exact ⟨hsize, (h.dirs e he hdir).2⟩
    · have hsame := hothers e he hed
      have hold := h.dirs e he (hsame.isDir.1 hedir)
      have hsz : oiSize m' (inodeAddr e) = oiSize m (inodeAddr e) := hsame.word (c := 0) (by omega)
      have hnl : oiNlink m' (inodeAddr e) = oiNlink m (inodeAddr e) := hsame.word (by omega)
      rw [hsz, hnl]
      exact hold

theorem Standing.entryWrite (h : Standing g m) (hd : d < g.ninodes) (hdir : IsDir m d)
    (hk : k < entries m d)
    (hw : ∀ x, x < entryAddr m d k ∨ entryAddr m d k + 128 ≤ x → m' x = m x) :
    Touched g d m m' := by
  obtain ⟨ht, -, hlow, -, -⟩ := h.tidy.entry_write (h.dirOk hd hdir) hk hw
  have hd64 := inodeAddr_lt hd
  refine h.touched hd hdir ht (fun j hj _ x _ hx => ?_) (fun x _ hx => hlow x (by omega)) ?_
  · have := inodeAddr_lt hj
    exact hlow x (by omega)
  · have hsize : oiSize m' (inodeAddr d) = oiSize m (inodeAddr d) :=
      Mem.get32_congr fun x _ hx => hlow x (by omega)
    rw [hsize]
    exact (h.dirs d hd hdir).1

def Crowded (m : Mem) (d : Nat) : Prop := ∀ k < entries m d, odIno m (entryAddr m d k) ≠ 0

/-- Making a blank entry starts no indirect block under the doubly indirect block. -/
def StaysInTables (m : Mem) (d : Nat) : Prop :=
  Crowded m d → Volume.NoNewTable (fileBlocks m d) (fileBlocks m d + 8)

/-- `create_blank_direntry` on a directory that does not grow into a new table. -/
theorem Standing.createBlankDirentry (h : Standing g m) (hd : d < g.ninodes) (hdir : IsDir m d)
    (hno : StaysInTables m d)
    {r : Except Errno Nat} (hr : Ospfs.createBlankDirentry m (inodeAddr d) = some (r, m')) :
    Touched g d m m' ∧ ∀ od, r = .ok od → ∃ k < entries m' d, od = entryAddr m' d k := by
  have hok := h.dirOk hd hdir
  have hwhole := hok.whole
  have hblocks := hok.blocks
  have hsmall := h.tidy.fileBlocks_small hok.mem
  unfold Ospfs.createBlankDirentry at hr
  rcases h.tidy.scan hok (fun od => odIno m od == 0) with ⟨hscan, hall⟩ | ⟨j, hj, -, -, hscan⟩
  · have hcrowded : Crowded m d := fun k hk => by simpa using hall k hk
    have hmod : (oiSize m (inodeAddr d) + 8192) % 2 ^ 32 = oiSize m (inodeAddr d) + 8192 := by omega
    have hnew : ospfsSize2nblocks (oiSize m (inodeAddr d) + 8192) = fileBlocks m d + 8 := by
      rw [hblocks]
      unfold ospfsSize2nblocks
      omega
    have hgrow : GrowLinked m (inodeAddr d) (oiSize m (inodeAddr d) + 8192) :=
      h.tidy.growLinked hok.mem (by rw [hnew]; exact hno hcrowded)
    obtain ⟨r', m₁, hrun, hout⟩ := h.tidy.changeSize hok.mem (by omega) hgrow
    rw [hscan, hmod, hrun] at hr
    rcases hout with ⟨rfl, -, hsized⟩ | ⟨rfl, -, hmv⟩
    · cases hr
      have hf := hsized.frame
      have htouched : Touched g d m m' := by
        refine h.touched hd hdir hsized.tidy hf.inodes hf.attrs ?_
        rw [hsized.size]
        omega
      refine ⟨htouched, fun od hod => ?_⟩
      cases hod
      have hlt : 1 + oiSize m (inodeAddr d) / 128 < entries m' d := by
        unfold entries
        rw [hsized.size]
        omega
      have hpos : (128 + oiSize m (inodeAddr d)) % 2 ^ 32 =
          128 * (1 + oiSize m (inodeAddr d) / 128) := by
        omega
      refine ⟨_, hlt, ?_⟩
      rw [hpos]
      exact htouched.standing.tidy.entry_data (htouched.standing.dirOk hd htouched.isDir) hlt
    · cases hr
      refine ⟨h.touched hd hdir hmv.tidy hmv.frame.inodes hmv.frame.attrs ?_, nofun⟩
      rw [hmv.size]
      exact hwhole
  · rw [hscan] at hr
    cases hr
    refine ⟨⟨h, fun _ _ _ _ _ _ => rfl, hdir⟩, fun od hod => ?_⟩
    cases hod
    exact ⟨j, hj, rfl⟩

/-- The end of `ospfs_create` and `ospfs_symlink`, on the disk `w` with the inode set up. -/
theorem Standing.enterInode (h : Standing g w) (hd : d < g.ninodes) (hdir : IsDir w d)
    (hno : StaysInTables w d)
    (hlen : name.length ≤ 123) {newInode : Bool} {r : Ret}
    (hr : Ospfs.enterInode w (inodeAddr d) name ino newInode = some (r, m')) :
    Touched g d w m' := by
  unfold Ospfs.enterInode at hr
  rcases hc : Ospfs.createBlankDirentry w (inodeAddr d) with _ | ⟨e | od, m₁⟩
  · rw [hc] at hr
    cases hr
  · rw [hc] at hr
    cases hr
    exact (h.createBlankDirentry hd hdir hno hc).1
  · obtain ⟨htouched, hod⟩ := h.createBlankDirentry hd hdir hno hc
    obtain ⟨k, hk, rfl⟩ := hod od rfl
    have hwritten : Touched g d w (writeDirentry m₁ (entryAddr m₁ d k) ino name) :=
      htouched.trans (htouched.standing.entryWrite hd htouched.isDir hk fun x hx =>
        writeDirentry_of_ne hlen hx)
    rw [hc] at hr
    simp only [Option.bind_eq_bind, Option.bind_some] at hr
    rcases hmk : ospfsMkLinuxInode (writeDirentry m₁ (entryAddr m₁ d k) ino name) ino newInode with
      _ | _ | i
    all_goals
      rw [hmk] at hr
      cases hr
    all_goals exact hwritten

/-! ## Setting up an inode -/

/-- An inode that is no directory changes. It may drop out, else it keeps its size and pointers. -/
theorem Standing.of_inode (h : Standing g m) (hin : ino < g.ninodes) (hnd : ¬ IsDir m ino)
    (hnd' : ¬ IsDir m' ino)
    (hw : ∀ x, x < inodeAddr ino ∨ inodeAddr ino + 64 ≤ x → m' x = m x)
    (hocc : Occupied g m' ino → Occupied g m ino ∧
      oiSize m' (inodeAddr ino) = oiSize m (inodeAddr ino) ∧
      ∀ x, inodeAddr ino + 16 ≤ x → x < inodeAddr ino + 64 → m' x = m x) : Standing g m' := by
  have hge := inodeAddr_ge ino
  have hlt := inodeAddr_lt hin
  have hfd := g.firstdata_ge
  have hsame (j : Nat) (hne : j ≠ ino) : SameInode m m' j := .of_others hw hne
  have hsub (j : Nat) (hj : Occupied g m' j) : Occupied g m j := by
    by_cases hji : j = ino
    · subst hji
      exact (hocc hj).1
    · exact (hsame j hji).occupied.1 hj
  have ht : Tidy g (Occupied g m') m :=
    h.tidy.congr hsub (fun _ _ => rfl) (fun _ _ _ => rfl) fun _ _ => Nat.le_refl _
  have hown : own m' (Occupied g m') = own m (Occupied g m') := by
    refine ht.laid.own_of_meta (fun j hj x hx hx' => ?_) fun x hx => hw x (by omega)
    by_cases hji : j = ino
    · subst hji
      exact (hocc hj).2.2 x hx hx'
    · exact hsame j hji x (by omega) hx'
  refine ⟨ht.congr (fun _ hj => hj) (fun x hx => hw x (by omega)) (fun j hj p => ?_) fun j hj => ?_,
    fun d hd hdir => ?_⟩
  · exact ptr_of_own hown hj p
  · unfold fileBlocks
    by_cases hji : j = ino
    · subst hji
      rw [(hocc hj).2.1]
    · have hsize : oiSize m' (inodeAddr j) = oiSize m (inodeAddr j) :=
        (hsame j hji).word (c := 0) (by omega)
      rw [hsize]
  · have hdi : d ≠ ino := by
      rintro rfl
      exact hnd' hdir
    have hsize : oiSize m' (inodeAddr d) = oiSize m (inodeAddr d) :=
      (hsame d hdi).word (c := 0) (by omega)
    have hnlink : oiNlink m' (inodeAddr d) = oiNlink m (inodeAddr d) :=
      (hsame d hdi).word (by omega)
    rw [hsize, hnlink]
    exact h.dirs d hd ((hsame d hdi).isDir.1 hdir)

theorem Standing.setNlink (h : Standing g m) (hin : ino < g.ninodes) (hnd : ¬ IsDir m ino)
    (v : Nat) : Standing g (m.set32 (inodeAddr ino + 8) v) ∧
      ¬ IsDir (m.set32 (inodeAddr ino + 8) v) ino := by
  have hsize : oiSize (m.set32 (inodeAddr ino + 8) v) (inodeAddr ino) = oiSize m (inodeAddr ino) :=
    Mem.get32_set32_ne (by omega)
  have htype : oiFtype (m.set32 (inodeAddr ino + 8) v) (inodeAddr ino) =
      oiFtype m (inodeAddr ino) := Mem.get32_set32_ne (by omega)
  have hnd' : ¬ IsDir (m.set32 (inodeAddr ino + 8) v) ino := by
    unfold IsDir
    rwa [htype]
  refine ⟨h.of_inode hin hnd hnd' (fun x hx => Mem.set32_of_ne (by omega)) fun hocc => ⟨?_, hsize,
    fun x hx _ => Mem.set32_of_ne (by omega)⟩, hnd'⟩
  unfold Occupied Files IsDir at hocc ⊢
  rwa [htype, hsize] at hocc

theorem Standing.crowded_of_inode (h : Standing g m) (hin : ino < g.ninodes) (hd : d < g.ninodes)
    (hdir : IsDir m d) (hne : d ≠ ino)
    (hw : ∀ x, x < inodeAddr ino ∨ inodeAddr ino + 64 ≤ x → m' x = m x) :
    Crowded m' d ↔ Crowded m d := by
  have hfd := g.firstdata_ge
  have hlt := inodeAddr_lt hin
  have hsame : SameInode m m' d := .of_others hw hne
  have hsize : oiSize m' (inodeAddr d) = oiSize m (inodeAddr d) := hsame.word (c := 0) (by omega)
  have hok := h.dirOk hd hdir
  have ht : Tidy g (fun j => j = d) m :=
    h.tidy.congr (fun j hj => hj ▸ hok.mem) (fun _ _ => rfl) (fun _ _ _ => rfl)
      fun _ _ => Nat.le_refl _
  have hown : own m' (fun j => j = d) = own m (fun j => j = d) := by
    refine ht.laid.own_of_meta (fun j hj x hx hx' => ?_) fun x hx => hw x (by omega)
    subst hj
    exact hsame x (by omega) hx'
  have haddr (k : Nat) : entryAddr m' d k = entryAddr m d k := by
    have hself (m : Mem) : own m (fun j => j = d) (d, .leaf (k / 8)) =
        ptr m (inodeAddr d) (.leaf (k / 8)) := own_of_mem (S := fun j => j = d) rfl _
    unfold entryAddr
    rw [← hself m', ← hself m, hown]
  have hentries : entries m' d = entries m d := by
    unfold entries
    rw [hsize]
  have hino (k : Nat) (hk : k < entries m d) :
      odIno m' (entryAddr m' d k) = odIno m (entryAddr m d k) := by
    have hdata := (h.tidy.laid.isData (h.tidy.mapped_own hok.mem (hok.entry_lt hk))).1
    rw [own_of_mem hok.mem] at hdata
    rw [haddr k]
    refine Mem.get32_congr fun x hx _ => hw x (.inr ?_)
    unfold entryAddr at hx
    omega
  unfold Crowded
  rw [hentries]
  refine forall₂_congr fun k hk => ?_
  rw [hino k hk]

theorem Standing.entries_of_inode (h : Standing g m) (hin : ino < g.ninodes) (hd : d < g.ninodes)
    (hdir : IsDir m d) (hne : d ≠ ino)
    (hw : ∀ x, x < inodeAddr ino ∨ inodeAddr ino + 64 ≤ x → m' x = m x) :
    StaysInTables m' d ↔ StaysInTables m d := by
  unfold StaysInTables fileBlocks
  rw [h.crowded_of_inode hin hd hdir hne hw, (SameInode.of_others hw hne).size]

/-! ## The calls -/

inductive DirCall
  | enter (dirIno : Nat) (c : NameCall)
  | unlink (dirIno : Nat) (name : Bytes) (ino : Nat)

def IsDirectory (m : Mem) (ino : Nat) : Prop :=
  ∃ oi, ospfsInode m ino = some oi ∧ oiFtype m oi = ftypeDir

namespace DirCall

def run (m : Mem) : DirCall → Option (Ret × Mem)
  | enter dirIno c => c.run m dirIno
  | unlink dirIno name ino => ospfsUnlink m dirIno name ino

/-- What the kernel sees to: the operations are those of a directory, `ospfs_dir_lookup` has
accepted a name before `ospfs_create` gets it, and directories are neither linked nor unlinked. -/
def Issued (m : Mem) : DirCall → Prop
  | enter dirIno (.create name _ _) => IsDirectory m dirIno ∧ name.length ≤ 123
  | enter dirIno (.symlink _ symname _) => IsDirectory m dirIno ∧ 0 ∉ symname
  | enter dirIno (.link srcIno _) => IsDirectory m dirIno ∧ ¬ IsDirectory m srcIno
  | unlink dirIno _ ino => IsDirectory m dirIno ∧ ¬ IsDirectory m ino

/-- The call starts no indirect block under the doubly indirect block of its directory. -/
def Contained (m : Mem) : DirCall → Prop
  | enter dirIno _ => StaysInTables m dirIno
  | unlink _ _ _ => True

end DirCall

theorem Standing.isDirectory_iff (h : Standing g m) :
    IsDirectory m d ↔ d < g.ninodes ∧ IsDir m d := by
  constructor
  · rintro ⟨oi, hoi, htype⟩
    obtain ⟨hlt, rfl⟩ := h.tidy.of_ospfsInode hoi
    exact ⟨hlt, htype⟩
  · rintro ⟨hlt, hdir⟩
    exact ⟨_, h.tidy.ospfsInode hlt, hdir⟩

theorem Standing.findFreeInode (h : Standing g m) (hf : Ospfs.findFreeInode m = some ino)
    (h0 : ino ≠ 0) : ino < g.ninodes ∧ ¬ IsDir m ino := by
  obtain ⟨oi, hoi, hnlink⟩ := findFreeFrom_free hf h0
  obtain ⟨hlt, rfl⟩ := h.tidy.of_ospfsInode hoi
  exact ⟨hlt, fun hdir => (h.dirs ino hlt hdir).2 hnlink⟩

theorem Standing.create_cases (h : Standing g m) (hd : d < g.ninodes) {mode : Nat}
    {newInode : Bool} {r : Ret} (hr : ospfsCreate m d name mode newInode = some (r, m')) :
    m' = m ∨ ∃ ino, ino < g.ninodes ∧ ¬ IsDir m ino ∧
      Ospfs.enterInode (initFile m (inodeAddr ino) mode) (inodeAddr d) name ino newInode =
        some (r, m') := by
  unfold ospfsCreate at hr
  rw [h.tidy.ospfsInode hd] at hr
  simp only at hr
  split at hr
  · cases hr
    exact .inl rfl
  rcases hf : Ospfs.findFreeInode m with _ | ino
  · rw [hf] at hr
    cases hr
  · rw [hf] at hr
    simp only [Option.bind_eq_bind, Option.bind_some] at hr
    split at hr
    · cases hr
      exact .inl rfl
    · rename_i h0
      obtain ⟨hlt, hnd⟩ := h.findFreeInode hf h0
      rw [h.tidy.ospfsInode hlt] at hr
      exact .inr ⟨ino, hlt, hnd, hr⟩

theorem Standing.symlink_cases (h : Standing g m) (hd : d < g.ninodes) {symname : Bytes}
    {newInode : Bool} {r : Ret} (hr : ospfsSymlink m d name symname newInode = some (r, m')) :
    (m' = m ∧ r ≠ .ok ()) ∨ ∃ ino, Ospfs.findFreeInode m = some ino ∧ ino < g.ninodes ∧
      ¬ IsDir m ino ∧ name.length ≤ 123 ∧ symname.length ≤ 51 ∧
      Ospfs.enterInode (initSymlink m (inodeAddr ino) symname) (inodeAddr d) name ino newInode =
        some (r, m') := by
  unfold ospfsSymlink at hr
  rw [h.tidy.ospfsInode hd] at hr
  simp only at hr
  split at hr
  · cases hr
    exact .inl ⟨rfl, nofun⟩
  rename_i hlen
  split at hr
  · cases hr
    exact .inl ⟨rfl, nofun⟩
  rcases hf : Ospfs.findFreeInode m with _ | ino
  · rw [hf] at hr
    cases hr
  · rw [hf] at hr
    simp only [Option.bind_eq_bind, Option.bind_some] at hr
    split at hr
    · cases hr
      exact .inl ⟨rfl, nofun⟩
    · rename_i h0
      obtain ⟨hlt, hnd⟩ := h.findFreeInode hf h0
      rw [h.tidy.ospfsInode hlt] at hr
      exact .inr ⟨ino, rfl, hlt, hnd, by omega, by omega, hr⟩

/-- The inode that is set up: no directory, and nothing else is written. -/
structure SetUp (g : Geometry) (ino : Nat) (m w : Mem) : Prop where
  lt : ino < g.ninodes
  free : ¬ IsDir m ino
  unoccupied : ¬ Occupied g w ino
  plain : ¬ IsDir w ino
  others : ∀ x, x < inodeAddr ino ∨ inodeAddr ino + 64 ≤ x → w x = m x

theorem SetUp.file (hlt : ino < g.ninodes) (hnd : ¬ IsDir m ino) (mode : Nat) :
    SetUp g ino m (initFile m (inodeAddr ino) mode) := by
  have hsize : oiSize (initFile m (inodeAddr ino) mode) (inodeAddr ino) = 0 := by
    unfold initFile oiSize
    rw [Mem.get32_set32_ne (by omega), Mem.get32_set32_ne (by omega),
      Mem.get32_set32_ne (by omega), Mem.get32_set32_of_lt (by omega)]
  have htype : oiFtype (initFile m (inodeAddr ino) mode) (inodeAddr ino) = ftypeReg := by
    unfold initFile oiFtype
    rw [Mem.get32_set32_ne (by omega), Mem.get32_set32_ne (by omega),
      Mem.get32_set32_of_lt (by decide)]
  have hplain : ¬ IsDir (initFile m (inodeAddr ino) mode) ino := by
    unfold IsDir
    rw [htype]
    decide
  refine ⟨hlt, hnd, fun hocc => hocc.2.elim hplain fun h => h hsize, hplain, fun x hx => ?_⟩
  unfold initFile
  rw [Mem.set32_of_ne (by omega), Mem.set32_of_ne (by omega), Mem.set32_of_ne (by omega),
    Mem.set32_of_ne (by omega)]

theorem SetUp.symlink (hlt : ino < g.ninodes) (hnd : ¬ IsDir m ino) {symname : Bytes}
    (hlen : symname.length ≤ 51) : SetUp g ino m (initSymlink m (inodeAddr ino) symname) := by
  have htype : oiFtype (initSymlink m (inodeAddr ino) symname) (inodeAddr ino) = ftypeSymlink := by
    unfold initSymlink oiFtype
    rw [Mem.get32_store_ne (by omega), Mem.get32_set32_of_lt (by decide)]
  refine ⟨hlt, hnd, fun hocc => hocc.1.2 htype, ?_, fun x hx => ?_⟩
  · unfold IsDir
    rw [htype]
    decide
  · unfold initSymlink
    rw [Mem.store_of_ne (by omega), Mem.set32_of_ne (by omega), Mem.set32_of_ne (by omega),
      Mem.set32_of_ne (by omega)]

theorem Standing.enterNew (h : Standing g m) (hd : d < g.ninodes) (hdir : IsDir m d)
    (hno : StaysInTables m d) (hset : SetUp g ino m w) (hlen : name.length ≤ 123)
    {newInode : Bool} {r : Ret}
    (hr : Ospfs.enterInode w (inodeAddr d) name ino newInode = some (r, m')) :
    Touched g d w m' := by
  have hne : d ≠ ino := by
    rintro rfl
    exact hset.free hdir
  have hsame : SameInode m w d := .of_others hset.others hne
  have hw : Standing g w := h.of_inode hset.lt hset.free hset.plain hset.others fun hocc =>
    absurd hocc hset.unoccupied
  exact hw.enterInode hd (hsame.isDir.2 hdir)
    ((h.entries_of_inode hset.lt hd hdir hne hset.others).2 hno) hlen hr

theorem Standing.create (h : Standing g m) (hd : d < g.ninodes) (hdir : IsDir m d)
    (hno : StaysInTables m d) (hlen : name.length ≤ 123) {mode : Nat} {newInode : Bool} {r : Ret}
    (hr : ospfsCreate m d name mode newInode = some (r, m')) : Standing g m' := by
  rcases h.create_cases hd hr with rfl | ⟨ino, hlt, hnd, hent⟩
  · exact h
  · exact (h.enterNew hd hdir hno (.file hlt hnd mode) hlen hent).standing

theorem Standing.symlink (h : Standing g m) (hd : d < g.ninodes) (hdir : IsDir m d)
    (hno : StaysInTables m d) {symname : Bytes} {newInode : Bool} {r : Ret}
    (hr : ospfsSymlink m d name symname newInode = some (r, m')) : Standing g m' := by
  rcases h.symlink_cases hd hr with ⟨rfl, -⟩ | ⟨ino, -, hlt, hnd, hlen, hlen', hent⟩
  · exact h
  · exact (h.enterNew hd hdir hno (.symlink hlt hnd hlen') hlen hent).standing

theorem Standing.link (h : Standing g m) (hd : d < g.ninodes) (hdir : IsDir m d)
    (hno : StaysInTables m d) {srcIno : Nat} (hsrc : ¬ IsDirectory m srcIno) {r : Ret}
    (hr : ospfsLink m srcIno d name = some (r, m')) : Standing g m' := by
  unfold ospfsLink at hr
  split at hr
  · cases hr
    exact h
  rename_i hlen
  rw [h.tidy.ospfsInode hd] at hr
  simp only [Option.bind_eq_bind, Option.bind_some] at hr
  split at hr
  · cases hr
    exact h
  rcases hc : Ospfs.createBlankDirentry m (inodeAddr d) with _ | ⟨e | od, m₁⟩
  · rw [hc] at hr
    cases hr
  · rw [hc] at hr
    cases hr
    exact (h.createBlankDirentry hd hdir hno hc).1.standing
  · obtain ⟨ht₁, hod⟩ := h.createBlankDirentry hd hdir hno hc
    obtain ⟨k, hk, rfl⟩ := hod od rfl
    have ht₂ : Touched g d m (writeDirentry m₁ (entryAddr m₁ d k) srcIno name) :=
      ht₁.trans (ht₁.standing.entryWrite hd ht₁.isDir hk fun x hx =>
        writeDirentry_of_ne (by omega) hx)
    rw [hc] at hr
    simp only [Option.bind_some] at hr
    rcases hoi : ospfsInode (writeDirentry m₁ (entryAddr m₁ d k) srcIno name) srcIno with _ | oi
    · rw [hoi] at hr
      cases hr
    · rw [hoi] at hr
      cases hr
      obtain ⟨hlt, rfl⟩ := ht₂.standing.tidy.of_ospfsInode hoi
      have hsrcd : srcIno ≠ d := by
        rintro rfl
        exact hsrc (h.isDirectory_iff.2 ⟨hlt, hdir⟩)
      have hnd : ¬ IsDir (writeDirentry m₁ (entryAddr m₁ d k) srcIno name) srcIno := fun h' =>
        hsrc (h.isDirectory_iff.2 ⟨hlt, (ht₂.others srcIno hlt hsrcd).isDir.1 h'⟩)
      exact (ht₂.standing.setNlink hlt hnd _).1

theorem Standing.unlinkScan (h : Standing g m) (hd : d < g.ninodes) (hdir : IsDir m d)
    (name : Bytes) {n : Nat} (hn : k + n = entries m d) (od : Nat) :
    (Ospfs.unlinkScan m (inodeAddr d) name n (128 * k) od).1 = oiSize m (inodeAddr d) ∨
      ∃ j < entries m d,
        (Ospfs.unlinkScan m (inodeAddr d) name n (128 * k) od).2 = entryAddr m d j := by
  have hok := h.dirOk hd hdir
  induction n generalizing k od with
  | zero =>
    have hwhole := hok.whole
    refine .inl ?_
    show 128 * k = _
    unfold entries at hn
    omega
  | succ n ih =>
    rw [Ospfs.unlinkScan, h.tidy.entry_data hok (by omega)]
    split
    · exact .inr ⟨k, by omega, rfl⟩
    · exact ih (k := k + 1) (by omega) _

theorem Standing.truncate (h : Standing g m) (hlt : ino < g.ninodes) (hnd : ¬ IsDir m ino)
    (htype : oiFtype m (inodeAddr ino) ≠ ftypeSymlink) {r : Ret}
    (hr : changeSize m (inodeAddr ino) 0 = some (r, m')) : Standing g m' := by
  by_cases hsize : oiSize m (inodeAddr ino) = 0
  · have hblocks : ospfsSize2nblocks (oiSize m (inodeAddr ino)) = 0 := by
      rw [hsize]
      rfl
    have hsame : m.set32 (inodeAddr ino) 0 = m := by
      have := Mem.set32_get32 (m := m) (a := inodeAddr ino)
      rwa [show m.get32 (inodeAddr ino) = 0 from hsize] at this
    rw [changeSize_same hblocks, hsame] at hr
    cases hr
    exact h
  · have hocc : Occupied g m ino := ⟨⟨hlt, htype⟩, .inr hsize⟩
    have hnone : Volume.NoNewTable (fileBlocks m ino) (ospfsSize2nblocks 0) := fun i _ hi =>
      absurd hi (Nat.not_lt_zero _)
    obtain ⟨r', m₁, hrun, hout⟩ := h.tidy.changeSize hocc (by decide) (h.tidy.growLinked hocc hnone)
    rw [hrun] at hr
    cases hr
    have hmoved : Tidy g (Occupied g m) m' ∧ ∃ k, Frame g (Occupied g m) ino k m m' := by
      rcases hout with ⟨-, -, hs⟩ | ⟨-, -, hm⟩
      · exact ⟨hs.tidy, _, hs.frame⟩
      · exact ⟨hm.tidy, _, hm.frame⟩
    obtain ⟨ht, k, hf⟩ := hmoved
    refine .of_tidy ht (fun j hj => ?_) fun d hd hdir => ?_
    · by_cases hji : j = ino
      · exact hji ▸ hocc
      · exact (SameInode.occupied (hf.inodes j hj.1.1 hji)).1 hj
    · have hdi : d ≠ ino := by
        rintro rfl
        exact hnd ((hf.isDir hd).1 hdir)
      rw [hf.oiSize hd hdi, hf.oiNlink hd]
      exact h.dirs d hd ((hf.isDir hd).1 hdir)

theorem Standing.unlink (h : Standing g m) (hd : d < g.ninodes) (hdir : IsDir m d)
    (hino : ¬ IsDirectory m ino) {r : Ret} (hr : ospfsUnlink m d name ino = some (r, m')) :
    Standing g m' := by
  have hok := h.dirOk hd hdir
  unfold ospfsUnlink at hr
  rw [h.tidy.ospfsInode hd] at hr
  simp only [Option.bind_eq_bind, Option.bind_some, hok.direntries] at hr
  have hscan := h.unlinkScan hd hdir name (k := 0) (Nat.zero_add _) 0
  generalize Ospfs.unlinkScan m (inodeAddr d) name (entries m d) 0 0 = res at hr hscan
  obtain ⟨off, od⟩ := res
  simp only at hr
  split at hr
  · cases hr
    exact h
  rename_i hoff
  obtain ⟨k, hk, rfl⟩ := hscan.resolve_left hoff
  have ht₁ : Touched g d m (m.set32 (entryAddr m d k) 0) :=
    h.entryWrite hd hdir hk fun x hx => Mem.set32_of_ne (by omega)
  generalize m.set32 (entryAddr m d k) 0 = m₁ at hr ht₁
  rcases hoi : ospfsInode m₁ ino with _ | oi
  · rw [hoi] at hr
    cases hr
  rw [hoi] at hr
  simp only [Option.bind_some] at hr
  obtain ⟨hlt, rfl⟩ := ht₁.standing.tidy.of_ospfsInode hoi
  have hne : ino ≠ d := by
    rintro rfl
    exact hino (h.isDirectory_iff.2 ⟨hlt, hdir⟩)
  have hnd₁ : ¬ IsDir m₁ ino := fun h' =>
    hino (h.isDirectory_iff.2 ⟨hlt, (ht₁.others ino hlt hne).isDir.1 h'⟩)
  obtain ⟨h₂, hnd₂⟩ := ht₁.standing.setNlink hlt hnd₁ (oiNlink m₁ (inodeAddr ino) + (2 ^ 32 - 1))
  split at hr
  · rename_i hlast
    rcases hc : changeSize _ (inodeAddr ino) 0 with _ | ⟨r', m₃⟩
    · rw [hc] at hr
      cases hr
    · rw [hc] at hr
      cases hr
      exact h₂.truncate hlt hnd₂ hlast.1 hc
  · cases hr
    exact h₂

/-- Every call keeps the invariant. -/
theorem Standing.step (h : Standing g m) {c : DirCall} (hi : c.Issued m) (hc : c.Contained m)
    {r : Ret} (hr : c.run m = some (r, m')) : Standing g m' := by
  cases c with
  | unlink d name ino =>
    obtain ⟨hd, hdir⟩ := h.isDirectory_iff.1 hi.1
    exact h.unlink hd hdir hi.2 hr
  | enter d c =>
    cases c with
    | create name mode newInode =>
      obtain ⟨hd, hdir⟩ := h.isDirectory_iff.1 hi.1
      exact h.create hd hdir hc hi.2 hr
    | symlink name symname newInode =>
      obtain ⟨hd, hdir⟩ := h.isDirectory_iff.1 hi.1
      exact h.symlink hd hdir hc hr
    | link srcIno name =>
      obtain ⟨hd, hdir⟩ := h.isDirectory_iff.1 hi.1
      exact h.link hd hdir hc hi.2 hr

end OsLabs.Ospfs
