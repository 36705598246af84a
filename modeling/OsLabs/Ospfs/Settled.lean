import OsLabs.Ospfs.Naming

/-!
# OSPFS: what the files hold

`content m j` is what file `j` of the disk `m` holds. `Settled g m` adds to `Standing` that the
pointers of all files are in order, those behind a file's last block too (`change_size` gives back
what stands there) and those of inodes without links. The lemmas say what the pieces of the calls
do to the files: the writes to directories, to one inode, to the size and to the bytes of a file.
-/

namespace OsLabs.Ospfs

/-! ## Contents -/

/-- The bytes of a file up to the end of its last block; behind it they are 0. -/
@[ext]
structure Content where
  size : Nat
  byte : Nat → UInt8

namespace Content

def room (size : Nat) : Nat := 1024 * ((size + 1023) / 1024)

def empty : Content := ⟨0, fun _ => 0⟩

/-- Blocks are cut off, or blocks of zeros added; what is left of the last block stays. -/
def resize (c : Content) (size : Nat) : Content :=
  ⟨size, fun x => if x < room size then c.byte x else 0⟩

def load (c : Content) (pos n : Nat) : Bytes := (List.range n).map fun i => c.byte (pos + i)

end Content

def content (m : Mem) (j : Nat) : Content :=
  ⟨oiSize m (inodeAddr j), fun x => if x / 1024 < fileBlocks m j then fileByte m j x else 0⟩

def Regular (g : Geometry) (m : Mem) (j : Nat) : Prop :=
  j < g.ninodes ∧ oiFtype m (inodeAddr j) = ftypeReg

variable {g : Geometry} {S S' : Nat → Prop} {st : Globals} {m m' m'' w : Mem} {d k ino j n : Nat}

theorem Regular.files (h : Regular g m j) : Files g m j := ⟨h.1, by rw [h.2]; decide⟩

theorem Regular.not_isDir (h : Regular g m j) : ¬ IsDir m j := by
  unfold IsDir
  rw [h.2]
  decide

theorem content_congr (hsize : oiSize m' (inodeAddr j) = oiSize m (inodeAddr j))
    (hbyte : ∀ x, x / 1024 < fileBlocks m j → fileByte m' j x = fileByte m j x) :
    content m' j = content m j := by
  have hblocks : fileBlocks m' j = fileBlocks m j := by
    unfold fileBlocks
    rw [hsize]
  refine Content.ext hsize (funext fun x => ?_)
  show (if x / 1024 < fileBlocks m' j then _ else _) = if x / 1024 < fileBlocks m j then _ else _
  rw [hblocks]
  split
  · exact hbyte x ‹_›
  · rfl

theorem Tidy.content_congr (h : Tidy g S m) (hj : S j) (hown : own m' S = own m S)
    (hsize : oiSize m' (inodeAddr j) = oiSize m (inodeAddr j))
    (hx : ∀ b x, own m S (j, .leaf b) ≠ 0 → 1024 * own m S (j, .leaf b) ≤ x →
      x < 1024 * own m S (j, .leaf b) + 1024 → m' x = m x) : content m' j = content m j := by
  refine Ospfs.content_congr hsize fun x hb => ?_
  have h0 := h.mapped_own hj hb
  unfold fileByte
  rw [ptr_of_own hown hj, ← own_of_mem hj]
  exact hx _ _ h0 (by omega) (by omega)

theorem Frame.content (hf : Frame g S ino k m m') (h : Tidy g S m) (hj : S j) (hne : j ≠ ino) :
    content m' j = content m j :=
  content_congr (hf.oiSize (h.laid.bound _ hj) hne) fun _ hx =>
    hf.fileByte hj (fun he => absurd he hne) (h.mapped j hj _ hx)

theorem Move.content (hm : Move g S ino (Ospfs.fileBlocks m ino) m m') (h : Tidy g S m)
    (hs : S ino) : content m' ino = content m ino :=
  content_congr hm.size fun _ hx => hm.frame.fileByte hs (fun _ => hx) (h.mapped ino hs _ hx)

/-- `change_size` cuts off blocks, or adds blocks of zeros. -/
theorem Sized.content (hm : Sized g S ino n m m') (h : Tidy g S m) (hs : S ino)
    (hn : n + 1023 < 2 ^ 32) : content m' ino = (content m ino).resize n := by
  have hsize := hm.size
  have hblocks : fileBlocks m' ino = (n + 1023) / 1024 := by
    unfold fileBlocks ospfsSize2nblocks
    rw [hsize]
    omega
  have hcount : ospfsSize2nblocks n = (n + 1023) / 1024 := by
    unfold ospfsSize2nblocks
    omega
  refine Content.ext hsize (funext fun x => ?_)
  show (if x / 1024 < fileBlocks m' ino then _ else _) =
    if x < 1024 * ((n + 1023) / 1024) then (if x / 1024 < fileBlocks m ino then _ else _) else 0
  rw [hblocks]
  by_cases hx : x / 1024 < (n + 1023) / 1024
  case neg => rw [if_neg hx, if_neg (by omega)]
  rw [if_pos hx, if_pos (show x < 1024 * ((n + 1023) / 1024) by omega)]
  split
  · rename_i hlt
    exact hm.frame.fileByte hs (fun _ => by omega) (h.mapped ino hs _ hlt)
  · exact hm.zero x (by omega) (by omega)

/-! ## Tidy disks -/

/-- Inodes without blocks and pointers come in. -/
theorem Tidy.extend (h : Tidy g S m) (hS : ∀ j, S' j → S j ∨
    j < g.ninodes ∧ fileBlocks m j = 0 ∧ ∀ p, ptr m (inodeAddr j) p = 0) : Tidy g S' m := by
  have hown (i : Nat × Place) : own m S' i = own m S i ∨ own m S' i = 0 := by
    obtain ⟨j, p⟩ := i
    by_cases hj' : S' j
    case neg => exact .inr (if_neg hj')
    rcases hS j hj' with hj | ⟨-, -, hp⟩
    · exact .inl (by rw [own_of_mem hj', own_of_mem hj])
    · exact .inr ((own_of_mem hj' p).trans (hp p))
  refine ⟨h.super, h.boot, h.low, ⟨fun j hj => ?_, h.laid.data,
    h.laid.owns.shrink hown fun i hi _ => h.laid.owns.ok i hi⟩, fun j hj b hb => ?_⟩
  · exact (hS j hj).elim (h.laid.bound j) And.left
  · rcases hS j hj with hj | ⟨-, h0, -⟩
    · exact h.mapped j hj b hb
    · omega

theorem Tidy.fill (h : Tidy g S m) (hw : ∀ x, m' x ≠ m x → ∃ b, own m S (ino, .leaf b) ≠ 0 ∧
      1024 * own m S (ino, .leaf b) ≤ x ∧ x < 1024 * own m S (ino, .leaf b) + 1024) :
    Tidy g S m' ∧ own m' S = own m S ∧ (∀ x, x < 1024 * g.firstdata → m' x = m x) ∧
      ∀ i, own m S i ≠ 0 → (∀ b, i ≠ (ino, .leaf b)) →
        ∀ x, 1024 * own m S i ≤ x → x < 1024 * own m S i + 1024 → m' x = m x := by
  have hfd := g.firstdata_ge
  have hlow : ∀ x, x < 1024 * g.firstdata → m' x = m x := by
    intro x hx
    by_contra hne
    obtain ⟨b, h0, hb, -⟩ := hw x hne
    have := (h.laid.isData h0).1
    omega
  have hothers : ∀ i, own m S i ≠ 0 → (∀ b, i ≠ (ino, .leaf b)) →
      ∀ x, 1024 * own m S i ≤ x → x < 1024 * own m S i + 1024 → m' x = m x := by
    intro i h0 hi x hx hx'
    by_contra hne
    obtain ⟨b, h0', hb, hb'⟩ := hw x hne
    exact hi b (h.laid.owns.inj _ _ h0 (by omega))
  have hown : own m' S = own m S := by
    refine h.laid.own_congr (fun j hj x hx hx' => hlow x ?_) fun i hi h0 => hothers i h0 ?_
    · have := inodeAddr_lt (h.laid.bound j hj)
      omega
    · rintro b rfl
      exact hi
  refine ⟨h.congr (fun _ hj => hj) (fun x hx => hlow x (by omega))
    (fun j hj => ptr_of_own hown hj) fun j hj => Nat.le_of_eq ?_, hown, hlow, hothers⟩
  have hsize : oiSize m' (inodeAddr j) = oiSize m (inodeAddr j) := by
    refine Mem.get32_congr fun x _ hx => hlow x ?_
    have := inodeAddr_lt (h.laid.bound j hj)
    omega
  unfold fileBlocks
  rw [hsize]

/-! ## The invariant -/

structure Settled (g : Geometry) (m : Mem) : Prop where
  tidy : Tidy g (Files g m) m
  whole : ∀ j, Files g m j → oiSize m (inodeAddr j) + 1023 < 2 ^ 32
  dirs : ∀ d, d < g.ninodes → IsDir m d →
    oiSize m (inodeAddr d) % 1024 = 0 ∧ oiNlink m (inodeAddr d) ≠ 0

theorem Image.settled (h : Image g st w m) : Settled g m := ⟨h.tidy, h.tree.whole, h.tree.dirs⟩

/-- The types and link counts are what they were, and so is what the files hold. -/
structure Steady (g : Geometry) (m m' : Mem) : Prop where
  ftypes : ∀ j, j < g.ninodes → oiFtype m' (inodeAddr j) = oiFtype m (inodeAddr j)
  nlinks : ∀ j, j < g.ninodes → oiNlink m' (inodeAddr j) = oiNlink m (inodeAddr j)
  contents : ∀ j, Regular g m j → content m' j = content m j

theorem Steady.regular (h : Steady g m m') : Regular g m' j ↔ Regular g m j := by
  unfold Regular
  exact and_congr_right fun hj => by rw [h.ftypes j hj]

theorem Steady.trans (h : Steady g m m') (h' : Steady g m' m'') : Steady g m m'' :=
  ⟨fun j hj => (h'.ftypes j hj).trans (h.ftypes j hj),
    fun j hj => (h'.nlinks j hj).trans (h.nlinks j hj),
    fun j hj => (h'.contents j (h.regular.2 hj)).trans (h.contents j hj)⟩

/-- File `ino` is edited: names, types and link counts stay, and so do the other files. -/
structure Edits (g : Geometry) (ino : Nat) (m m' : Mem) : Prop where
  settled : Settled g m'
  names : SameNames g m m'
  others : ∀ j, Regular g m j → j ≠ ino → content m' j = content m j

theorem Edits.regular (h : Edits g ino m m') : Regular g m' j ↔ Regular g m j := by
  unfold Regular
  exact and_congr_right fun hj => by rw [h.names.ftypes j hj]

theorem Edits.trans (h : Edits g ino m m') (h' : Edits g ino m' m'') : Edits g ino m m'' :=
  ⟨h'.settled,
    ⟨fun d k hd => (h'.names.dirents d k hd).trans (h.names.dirents d k hd),
      fun j hj => (h'.names.ftypes j hj).trans (h.names.ftypes j hj),
      fun j hj => (h'.names.nlinks j hj).trans (h.names.nlinks j hj)⟩,
    fun j hj hne => (h'.others j (h.regular.2 hj) hne).trans (h.others j hj hne)⟩

namespace Settled

variable (h : Settled g m)

include h

theorem standing : Standing g m := .of_tidy h.tidy (fun _ hj => hj.1) h.dirs

theorem refl : Edits g ino m m := ⟨h, .refl, fun _ _ _ => rfl⟩

theorem dirOk (hd : d < g.ninodes) (hdir : IsDir m d) : DirOk (Files g m) m d :=
  ⟨files_of_isDir hdir hd, hdir, (h.dirs d hd hdir).1⟩

theorem fileBlocks (hj : Files g m j) :
    Ospfs.fileBlocks m j = (oiSize m (inodeAddr j) + 1023) / 1024 := by
  have := h.whole j hj
  unfold Ospfs.fileBlocks ospfsSize2nblocks
  omega

/-! ## Directories -/

/-- A directory grows by blank entries. -/
theorem blanks (hd : d < g.ninodes) (hdir : IsDir m d) (hb : Blanks g (Files g m) d m m') :
    Settled g m' ∧ Steady g m m' := by
  have hf := hb.frame
  have hfiles := hf.files
  refine ⟨⟨by rw [hfiles]; exact hb.tidy, fun j hj => ?_, fun e he hedir => ?_⟩,
    fun j hj => hf.oiFtype hj, fun j hj => hf.oiNlink hj, fun j hj => ?_⟩
  · rw [hfiles] at hj
    by_cases hjd : j = d
    · subst hjd
      have := hb.whole
      have := oiSize_lt m' (inodeAddr j)
      omega
    · rw [hf.oiSize hj.1 hjd]
      exact h.whole j hj
  · rw [hf.oiNlink he]
    have hold := h.dirs e he ((hf.isDir he).1 hedir)
    by_cases hed : e = d
    · subst hed
      exact ⟨hb.whole, hold.2⟩
    · rw [hf.oiSize he hed]
      exact hold
  · refine hf.content h.tidy hj.files ?_
    rintro rfl
    exact hj.not_isDir hdir

theorem of_data (ht : Tidy g (Files g m) m') (hlow : ∀ x, x < 1024 * g.firstdata → m' x = m x) :
    Settled g m' ∧ (∀ j, j < g.ninodes → SameInode m m' j) := by
  have hsame (j : Nat) (hj : j < g.ninodes) : SameInode m m' j := by
    intro x _ hx
    have := inodeAddr_lt hj
    exact hlow x (by omega)
  have hfiles : Files g m' = Files g m := by
    funext j
    unfold Files
    exact propext (and_congr_right fun hj => by rw [(hsame j hj).ftype])
  refine ⟨⟨by rw [hfiles]; exact ht, fun j hj => ?_, fun e he hedir => ?_⟩, hsame⟩
  · rw [hfiles] at hj
    rw [(hsame j hj.1).size]
    exact h.whole j hj
  · rw [(hsame e he).size, (hsame e he).nlink]
    exact h.dirs e he ((hsame e he).isDir.1 hedir)

theorem entryWrite (hd : d < g.ninodes) (hdir : IsDir m d) (hk : k < entries m d)
    (hw : ∀ x, x < entryAddr m d k ∨ entryAddr m d k + 128 ≤ x → m' x = m x) :
    Settled g m' ∧ Steady g m m' := by
  have hok := h.dirOk hd hdir
  obtain ⟨ht, hown, hlow, -, -⟩ := h.tidy.entry_write hok hk hw
  obtain ⟨hset, hsame⟩ := h.of_data ht hlow
  refine ⟨hset, fun j hj => (hsame j hj).ftype, fun j hj => (hsame j hj).nlink, fun j hj =>
    h.tidy.content_congr hj.files hown (hsame j hj.1).size fun b x h0 hx hx' => hw x ?_⟩
  -- the blocks of the file are not those of the directory
  have hne : own m (Files g m) (j, .leaf b) ≠ own m (Files g m) (d, .leaf (k / 8)) := by
    intro heq
    have hij := h.tidy.laid.owns.inj _ _ h0 heq
    obtain rfl : j = d := congrArg Prod.fst hij
    exact hj.not_isDir hdir
  rw [own_of_mem hok.mem] at hne
  unfold entryAddr
  omega

/-! ## Inodes -/

/-- An inode that is no directory changes. A file that it is afterwards keeps its size and its
pointers, or is empty with the pointers it had or with none. -/
theorem of_inode (hin : ino < g.ninodes) (hnd : ¬ IsDir m ino) (hnd' : ¬ IsDir m' ino)
    (hw : ∀ x, x < inodeAddr ino ∨ inodeAddr ino + 64 ≤ x → m' x = m x)
    (hsize : Files g m' ino → oiSize m' (inodeAddr ino) = 0 ∨
      (Files g m ino ∧ oiSize m' (inodeAddr ino) = oiSize m (inodeAddr ino)))
    (hptr : Files g m' ino → (Files g m ino ∧
        ∀ x, inodeAddr ino + 16 ≤ x → x < inodeAddr ino + 64 → m' x = m x) ∨
      (oiSize m' (inodeAddr ino) = 0 ∧ ∀ p, ptr m' (inodeAddr ino) p = 0)) :
    Settled g m' ∧ ∀ j, Files g m j → (j = ino → Files g m' ino ∧
        oiSize m' (inodeAddr ino) = oiSize m (inodeAddr ino) ∧
        ∀ x, inodeAddr ino + 16 ≤ x → x < inodeAddr ino + 64 → m' x = m x) →
      content m' j = content m j := by
  have hge := inodeAddr_ge ino
  have hlt := inodeAddr_lt hin
  have hfd := g.firstdata_ge
  have hsame (j : Nat) (hne : j ≠ ino) : SameInode m m' j := .of_others hw hne
  have hfiles (j : Nat) (hne : j ≠ ino) : Files g m' j ↔ Files g m j := by
    unfold Files
    rw [(hsame j hne).ftype]
  -- the inodes that keep their pointers
  obtain ⟨S, hS⟩ : ∃ S : Nat → Prop, S = fun j => Files g m' j ∧ (j = ino → Files g m ino ∧
      ∀ x, inodeAddr ino + 16 ≤ x → x < inodeAddr ino + 64 → m' x = m x) := ⟨_, rfl⟩
  have hsub (j : Nat) (hj : S j) : Files g m j := by
    subst hS
    by_cases hji : j = ino
    · subst hji
      exact (hj.2 rfl).1
    · exact (hfiles j hji).1 hj.1
  have ht : Tidy g S m :=
    h.tidy.congr hsub (fun _ _ => rfl) (fun _ _ _ => rfl) fun _ _ => Nat.le_refl _
  have hown : own m' S = own m S := by
    refine ht.laid.own_of_meta (fun j hj x hx hx' => ?_) fun x hx => hw x (by omega)
    by_cases hji : j = ino
    · subst hS
      subst hji
      exact (hj.2 rfl).2 x hx hx'
    · exact hsame j hji x (by omega) hx'
  have ht' : Tidy g S m' := by
    refine ht.congr (fun _ hj => hj) (fun x hx => hw x (by omega)) (fun j hj => ptr_of_own hown hj)
      fun j hj => ?_
    unfold Ospfs.fileBlocks
    by_cases hji : j = ino
    · subst hji
      have hj' : Files g m' j := by
        subst hS
        exact hj.1
      rcases hsize hj' with h0 | ⟨-, heq⟩
      · rw [h0]
        exact Nat.zero_le _
      · rw [heq]
    · rw [(hsame j hji).size]
  refine ⟨⟨ht'.extend fun j hj => ?_, fun j hj => ?_, fun d hd hdir => ?_⟩, fun j hj hkeep => ?_⟩
  · by_cases hji : j = ino
    · subst hji
      rcases hptr hj with hkeep | ⟨h0, hp⟩
      · exact .inl (by rw [hS]; exact ⟨hj, fun _ => hkeep⟩)
      · refine .inr ⟨hin, ?_, hp⟩
        unfold Ospfs.fileBlocks
        rw [h0]
        rfl
    · exact .inl (by rw [hS]; exact ⟨hj, fun he => absurd he hji⟩)
  · by_cases hji : j = ino
    · subst hji
      rcases hsize hj with h0 | ⟨hold, heq⟩
      · rw [h0]
        decide
      · rw [heq]
        exact h.whole j hold
    · rw [(hsame j hji).size]
      exact h.whole j ((hfiles j hji).1 hj)
  · have hdi : d ≠ ino := by
      rintro rfl
      exact hnd' hdir
    rw [(hsame d hdi).size, (hsame d hdi).nlink]
    exact h.dirs d hd ((hsame d hdi).isDir.1 hdir)
  · have hj' : S j := by
      rw [hS]
      by_cases hji : j = ino
      · subst hji
        obtain ⟨hf, -, hp⟩ := hkeep rfl
        exact ⟨hf, fun _ => ⟨hj, hp⟩⟩
      · exact ⟨(hfiles j hji).2 hj, fun he => absurd he hji⟩
    refine ht.content_congr hj' hown ?_ fun b x h0 hx _ => hw x (.inr ?_)
    · by_cases hji : j = ino
      · subst hji
        exact (hkeep rfl).2.1
      · exact (hsame j hji).size
    · have := (ht.laid.isData h0).1
      omega

theorem setNlink (hin : ino < g.ninodes) (hnd : ¬ IsDir m ino) (v : Nat) :
    Settled g (m.set32 (inodeAddr ino + 8) v) ∧
      ∀ j, Files g m j → content (m.set32 (inodeAddr ino + 8) v) j = content m j := by
  have hsize : oiSize (m.set32 (inodeAddr ino + 8) v) (inodeAddr ino) = oiSize m (inodeAddr ino) :=
    Mem.get32_set32_ne (by omega)
  have htype : oiFtype (m.set32 (inodeAddr ino + 8) v) (inodeAddr ino) =
      oiFtype m (inodeAddr ino) := Mem.get32_set32_ne (by omega)
  have hnd' : ¬ IsDir (m.set32 (inodeAddr ino + 8) v) ino := (isDir_congr htype).not.2 hnd
  have hfiles : Files g (m.set32 (inodeAddr ino + 8) v) ino ↔ Files g m ino := by
    unfold Files
    rw [htype]
  have hptrs : ∀ x, inodeAddr ino + 16 ≤ x → x < inodeAddr ino + 64 →
      m.set32 (inodeAddr ino + 8) v x = m x := fun x hx _ => Mem.set32_of_ne (by omega)
  obtain ⟨hset, hcont⟩ := h.of_inode hin hnd hnd' (fun x hx => Mem.set32_of_ne (by omega))
    (fun hf => .inr ⟨hfiles.1 hf, hsize⟩) fun hf => .inl ⟨hfiles.1 hf, hptrs⟩
  refine ⟨hset, fun j hj => hcont j hj ?_⟩
  rintro rfl
  exact ⟨hfiles.2 hj, hsize, hptrs⟩

/-! ## Files -/

theorem edits_of_frame (hnd : ¬ IsDir m ino) (hfr : Frame g (Files g m) ino k m m')
    (ht : Tidy g (Files g m) m') (hsize : oiSize m' (inodeAddr ino) + 1023 < 2 ^ 32) :
    Edits g ino m m' := by
  refine ⟨⟨by rw [hfr.files]; exact ht, fun j hj => ?_, fun d hd hdir => ?_⟩,
    ⟨fun d k hd => ?_, fun j hj => hfr.oiFtype hj, fun j hj => hfr.oiNlink hj⟩,
    fun j hj hne => hfr.content h.tidy hj.files hne⟩
  · by_cases hji : j = ino
    · rwa [hji]
    · rw [hfr.files] at hj
      rw [hfr.oiSize hj.1 hji]
      exact h.whole j hj
  · have hdi : d ≠ ino := by
      rintro rfl
      exact hnd ((hfr.isDir hd).1 hdir)
    rw [hfr.oiSize hd hdi, hfr.oiNlink hd]
    exact h.dirs d hd ((hfr.isDir hd).1 hdir)
  · by_cases hdi : d = ino
    · subst hdi
      unfold dirent
      rw [if_neg fun h' => hnd ((hfr.isDir hd).1 h'.1), if_neg fun h' => hnd h'.1]
    · exact hfr.dirent h.tidy (h.dirOk hd) hd hdi

theorem changeSize (hf : Files g m ino) (hnd : ¬ IsDir m ino) (hn : n + 1023 < 2 ^ 32)
    (hno : Volume.NoNewTable (Ospfs.fileBlocks m ino) (ospfsSize2nblocks n)) :
    ∃ r m', Ospfs.changeSize m (inodeAddr ino) n = some (r, m') ∧ Edits g ino m m' ∧
      ((r = .ok () ∧ content m' ino = (content m ino).resize n) ∨
        (r = .error .eNoSpc ∧ Ospfs.fileBlocks m ino < ospfsSize2nblocks n ∧
          content m' ino = content m ino)) := by
  obtain ⟨r, m', hrun, hout⟩ := h.tidy.changeSize hf (by omega) (h.tidy.growLinked hf hno)
  refine ⟨r, m', hrun, ?_⟩
  rcases hout with ⟨rfl, -, hs⟩ | ⟨rfl, hroom, hm⟩
  · exact ⟨h.edits_of_frame hnd hs.frame hs.tidy (by rw [hs.size]; exact hn),
      .inl ⟨rfl, hs.content h.tidy hf hn⟩⟩
  · refine ⟨h.edits_of_frame hnd hm.frame hm.tidy (by rw [hm.size]; exact h.whole ino hf),
      .inr ⟨rfl, ?_, hm.content h.tidy hf⟩⟩
    -- there is room where nothing is added
    by_contra hle
    refine hroom ?_
    unfold GrowRoom
    cases ospfsSize2nblocks n with
    | zero => trivial
    | succ c => exact fun hlt => absurd hlt hle

theorem fill (hf : Files g m ino) (hnd : ¬ IsDir m ino)
    (hw : ∀ x, m' x ≠ m x → ∃ b, own m (Files g m) (ino, .leaf b) ≠ 0 ∧
      1024 * own m (Files g m) (ino, .leaf b) ≤ x ∧
      x < 1024 * own m (Files g m) (ino, .leaf b) + 1024) :
    Edits g ino m m' ∧ oiSize m' (inodeAddr ino) = oiSize m (inodeAddr ino) ∧
      ∀ p, ptr m' (inodeAddr ino) p = ptr m (inodeAddr ino) p := by
  obtain ⟨ht, hown, hlow, hothers⟩ := h.tidy.fill hw
  obtain ⟨hset, hsame⟩ := h.of_data ht hlow
  refine ⟨⟨hset, ⟨fun d k hd => ?_, fun j hj => (hsame j hj).ftype, fun j hj => (hsame j hj).nlink⟩,
    fun j hj hne => ?_⟩, (hsame ino hf.1).size, ptr_of_own hown hf⟩
  · refine dirent_congr (hsame d hd).ftype (hsame d hd).size fun hk hdir x hx => ?_
    have hok := h.dirOk hd hdir
    have hne : d ≠ ino := by
      rintro rfl
      exact hnd hdir
    have hbyte := hothers (d, .leaf (k / 8)) (h.tidy.mapped_own hok.mem (hok.entry_lt hk))
      (fun b he => hne (congrArg Prod.fst he))
    rw [own_of_mem hok.mem] at hbyte
    have haddr : entryAddr m' d k = entryAddr m d k := by
      unfold entryAddr
      rw [ptr_of_own hown hok.mem]
    rw [haddr]
    unfold entryAddr
    exact hbyte _ (by omega) (by omega)
  · exact h.tidy.content_congr hj.files hown (hsame j hj.1).size
      fun b x h0 hx hx' => hothers _ h0 (fun c he => hne (congrArg Prod.fst he)) x hx hx'

end Settled

end OsLabs.Ospfs
