import OsLabs.Ospfs.Allocdir

/-!
# OSPFS: entering an inode in a directory

A reserved entry is given the number of an inode, and the inode's header is set
up (a new inode) or its link count raised (a hard link). `Image.enter` covers
both.
-/

namespace OsLabs.Ospfs

variable {g : Geometry} {st st' : Globals} {m m' mf mf' : Mem} {d k i : Nat}

/-- What entering inode `i` at entry `k` of `d` writes. -/
structure Enters (g : Geometry) (mf mf' : Mem) (d k i : Nat) : Prop where
  low : ∀ x, x < 3072 → mf' x = mf x
  data : ∀ x, 1024 * g.firstdata ≤ x → x < entryAddr mf d k ∨ entryAddr mf d k + 4 ≤ x →
    mf' x = mf x
  entry : mf'.get32 (entryAddr mf d k) = i
  inodes : ∀ j, j < g.ninodes → j ≠ i → ∀ c, c < 64 → c < 8 ∨ 12 ≤ c ∨ j ≠ d →
    mf' (inodeAddr j + c) = mf (inodeAddr j + c)

/-- What it makes of the header of inode `i`. -/
structure Header (g : Geometry) (mf mf' : Mem) (i : Nat) : Prop where
  kind : oiFtype mf' (inodeAddr i) ≤ ftypeSymlink
  pointers : Files g mf' i → Files g mf i ∧ oiSize mf' (inodeAddr i) = oiSize mf (inodeAddr i) ∧
    ∀ c, 16 ≤ c → c < 64 → mf' (inodeAddr i + c) = mf (inodeAddr i + c)
  dropped : Files g mf i → ¬ Files g mf' i → ∀ p, own mf (Files g mf) (i, p) = 0
  dir : ¬ IsDir mf i ∧ (IsDir mf' i → oiSize mf' (inodeAddr i) = 0 ∧ oiNlink mf' (inodeAddr i) = 1)
  nlink : ¬ IsDir mf' i → oiNlink mf' (inodeAddr i) = linkCount g mf i + 1

/-- What is known of the disk after entering an inode. -/
structure Entered (g : Geometry) (mf mf' : Mem) (d k i : Nat) (name : Bytes) : Prop where
  entry : dirent mf' d k = some (name, i)
  others : ∀ d' k', d' < g.ninodes → (d', k') ≠ (d, k) → dirent mf' d' k' = dirent mf d' k'
  kept : Kept g (fun j => j = d ∨
    (j = i ∧ oiFtype mf' (inodeAddr j) ≠ oiFtype mf (inodeAddr j))) mf mf'
  isDir : IsDir mf' d

variable {name : Bytes}

/-! ## The other inodes -/

namespace Enters

variable {j c : Nat}

theorem word (hw : Enters g mf mf' d k i) (hj : j < g.ninodes) (hji : j ≠ i) (hc : c + 4 ≤ 64)
    (hc' : c + 4 ≤ 8 ∨ 12 ≤ c ∨ j ≠ d) :
    mf'.get32 (inodeAddr j + c) = mf.get32 (inodeAddr j + c) :=
  Mem.get32_congr fun x hx hx' => by
    have := hw.inodes j hj hji (x - inodeAddr j) (by omega) (by omega)
    rwa [Nat.add_sub_cancel' (by omega)] at this

theorem oiSize (hw : Enters g mf mf' d k i) (hj : j < g.ninodes) (hji : j ≠ i) :
    oiSize mf' (inodeAddr j) = oiSize mf (inodeAddr j) :=
  hw.word (c := 0) hj hji (by omega) (.inl (by omega))

theorem oiFtype (hw : Enters g mf mf' d k i) (hj : j < g.ninodes) (hji : j ≠ i) :
    oiFtype mf' (inodeAddr j) = oiFtype mf (inodeAddr j) :=
  hw.word (c := 4) hj hji (by omega) (.inl (by omega))

theorem oiNlink (hw : Enters g mf mf' d k i) (hj : j < g.ninodes) (hji : j ≠ i) (hjd : j ≠ d) :
    oiNlink mf' (inodeAddr j) = oiNlink mf (inodeAddr j) :=
  hw.word (c := 8) hj hji (by omega) (.inr (.inr hjd))

theorem isDir_iff (hw : Enters g mf mf' d k i) (hj : j < g.ninodes) (hji : j ≠ i) :
    IsDir mf' j ↔ IsDir mf j := by
  unfold IsDir
  rw [hw.oiFtype hj hji]

theorem files_of_ne (hw : Enters g mf mf' d k i) (hji : j ≠ i) (hj : Files g mf j) :
    Files g mf' j :=
  ⟨hj.1, by rw [hw.oiFtype hj.1 hji]; exact hj.2⟩

theorem files (hw : Enters g mf mf' d k i) (hh : Header g mf mf' i) (hj : Files g mf' j) :
    Files g mf j := by
  by_cases hji : j = i
  · subst hji
    exact (hh.pointers hj).1
  · exact ⟨hj.1, by rw [← hw.oiFtype hj.1 hji]; exact hj.2⟩

theorem files_oiSize (hw : Enters g mf mf' d k i) (hh : Header g mf mf' i) (hj : Files g mf' j) :
    Ospfs.oiSize mf' (inodeAddr j) = Ospfs.oiSize mf (inodeAddr j) := by
  by_cases hji : j = i
  · subst hji
    exact (hh.pointers hj).2.1
  · exact hw.oiSize hj.1 hji

theorem files_pointers (hw : Enters g mf mf' d k i) (hh : Header g mf mf' i) (hj : Files g mf' j)
    (hc : 16 ≤ c) (hc' : c < 64) : mf' (inodeAddr j + c) = mf (inodeAddr j + c) := by
  by_cases hji : j = i
  · subst hji
    exact (hh.pointers hj).2.2 c hc hc'
  · exact hw.inodes j hj.1 hji c hc' (.inr (.inl (by omega)))

theorem fileBlocks (hw : Enters g mf mf' d k i) (hh : Header g mf mf' i) (hj : Files g mf' j) :
    fileBlocks mf' j = fileBlocks mf j := by
  unfold Ospfs.fileBlocks
  rw [hw.files_oiSize hh hj]

end Enters

/-! ## The entry -/

/-- Entry `k` of directory `d`, reserved for `name`, is given inode `i`. -/
structure Entering (g : Geometry) (mf mf' : Mem) (d k i : Nat) (name : Bytes) : Prop where
  tidy : Tidy g (Files g mf) mf
  tree : Tree g mf
  lt : d < g.ninodes
  dir : IsDir mf d
  reserved : Reserved g mf d k name
  writes : Enters g mf mf' d k i
  header : Header g mf mf' i
  two_le : 2 ≤ i
  ino_lt : i < g.ninodes
  ne : i ≠ d

def numbered (mf : Mem) (d k i : Nat) : Mem := mf.set32 (entryAddr mf d k) i

namespace Entering

variable {j d' k' : Nat} {p : Place}

theorem dirOk (h : Entering g mf mf' d k i name) : DirOk (Files g mf) mf d :=
  h.tree.dirOk h.lt h.dir

theorem dir' (h : Entering g mf mf' d k i name) : IsDir mf' d :=
  (h.writes.isDir_iff h.lt (Ne.symm h.ne)).2 h.dir

theorem files_dir (h : Entering g mf mf' d k i name) : Files g mf' d :=
  files_of_isDir h.dir' h.lt

theorem entry_lt (h : Entering g mf mf' d k i name) : k < 8 * g.nblocks := by
  have hlt := h.reserved.lt
  rw [h.dirOk.entries] at hlt
  have := h.tidy.fileBlocks_le h.dirOk.mem
  omega

theorem numbered_of_ne (h : Entering g mf mf' d k i name) :
    Tidy g (Files g mf) (numbered mf d k i) ∧
      own (numbered mf d k i) (Files g mf) = own mf (Files g mf) ∧
      (∀ x, x < 1024 * g.firstdata → numbered mf d k i x = mf x) ∧
      ∀ d' k', d' < g.ninodes → (d', k') ≠ (d, k) →
        dirent (numbered mf d k i) d' k' = dirent mf d' k' := by
  have hw : ∀ x, x < entryAddr mf d k ∨ entryAddr mf d k + 128 ≤ x →
      numbered mf d k i x = mf x := fun x hx => Mem.set32_of_ne (by omega)
  obtain ⟨ht, hown, hlow, -, hents⟩ := h.tidy.entry_write h.dirOk h.reserved.lt hw
  exact ⟨ht, hown, hlow, fun d' k' hd' hne =>
    hents d' k' hd' (fun hdd => h.tree.dirOk hd' hdd) hne⟩

/-- Behind the inodes only the entry changes. -/
theorem data (h : Entering g mf mf' d k i name) {x : Nat} (hx : 1024 * g.firstdata ≤ x) :
    mf' x = numbered mf d k i x := by
  unfold numbered
  by_cases hin : entryAddr mf d k ≤ x ∧ x < entryAddr mf d k + 4
  · have hi32 : i < 2 ^ 32 := by
      have := h.ino_lt
      have := g.inodes
      have := g.small
      omega
    have hword : mf'.get32 (entryAddr mf d k) =
        (mf.set32 (entryAddr mf d k) i).get32 (entryAddr mf d k) := by
      rw [h.writes.entry, Mem.get32_set32_of_lt hi32]
    have hb := Mem.byte_of_get32 hword (i := x - entryAddr mf d k) (by omega)
    rwa [Nat.add_sub_cancel' hin.1] at hb
  · rw [Mem.set32_of_ne (by omega)]
    exact h.writes.data x hx (by omega)

theorem tidy_numbered (h : Entering g mf mf' d k i name) :
    Tidy g (Files g mf') (numbered mf d k i) :=
  h.numbered_of_ne.1.congr (fun _ hj => h.writes.files h.header hj) (fun _ _ => rfl)
    (fun _ _ _ => rfl) fun _ _ => Nat.le_refl _

theorem own_numbered (h : Entering g mf mf' d k i name) :
    own mf' (Files g mf') = own (numbered mf d k i) (Files g mf') := by
  refine h.tidy_numbered.laid.own_of_meta (fun j hj x hx hx' => ?_) fun x hx => h.data hx
  have hlt := inodeAddr_lt hj.1
  rw [h.numbered_of_ne.2.2.1 x (by omega)]
  have := h.writes.files_pointers h.header hj (c := x - inodeAddr j) (by omega) (by omega)
  rwa [Nat.add_sub_cancel' (by omega)] at this

theorem own_eq (h : Entering g mf mf' d k i name) (hj : Files g mf' j) :
    own mf' (Files g mf') (j, p) = own mf (Files g mf) (j, p) := by
  have hj' := h.writes.files h.header hj
  rw [h.own_numbered, ← h.numbered_of_ne.2.1, own_of_mem hj, own_of_mem hj']

theorem ptr_eq (h : Entering g mf mf' d k i name) (hj : Files g mf' j) :
    ptr mf' (inodeAddr j) p = ptr mf (inodeAddr j) p := by
  have hown := h.own_eq (p := p) hj
  rwa [own_of_mem hj, own_of_mem (h.writes.files h.header hj)] at hown

theorem entryAddr_eq (h : Entering g mf mf' d k i name) (hj : Files g mf' j) :
    entryAddr mf' j k' = entryAddr mf j k' := by
  unfold entryAddr
  rw [h.ptr_eq hj]

theorem tidy' (h : Entering g mf mf' d k i name) : Tidy g (Files g mf') mf' := by
  have hlow := h.numbered_of_ne.2.2.1
  have hfd := g.firstdata_ge
  refine h.tidy_numbered.congr (fun _ hj => hj) (fun x hx => ?_) (fun j hj p => ?_) fun j hj => ?_
  · rw [hlow x (by omega)]
    exact h.writes.low x hx
  · have hown := congrFun h.own_numbered (j, p)
    rwa [own_of_mem hj, own_of_mem hj] at hown
  · rw [h.writes.fileBlocks h.header hj]
    unfold fileBlocks oiSize
    have := inodeAddr_lt hj.1
    rw [Mem.get32_congr fun x _ hx => hlow x (by omega)]

theorem others (h : Entering g mf mf' d k i name) (hd' : d' < g.ninodes)
    (hne : (d', k') ≠ (d, k)) : dirent mf' d' k' = dirent mf d' k' := by
  by_cases hdi : d' = i
  · -- inode `i` had no entries, and has none yet
    subst hdi
    have hno : dirent mf d' k' = none := by
      unfold dirent
      rw [if_neg fun hc => h.header.dir.1 hc.1]
    rw [hno]
    unfold dirent
    rw [if_neg]
    rintro ⟨hdd, hlt, -⟩
    have := (h.header.dir.2 hdd).1
    unfold entries at hlt
    omega
  · obtain ⟨-, hown, hlow, hents⟩ := h.numbered_of_ne
    rw [← hents d' k' hd' hne]
    have hlt := inodeAddr_lt hd'
    have hs : oiSize (numbered mf d k i) (inodeAddr d') = oiSize mf (inodeAddr d') :=
      Mem.get32_congr fun x _ hx => hlow x (by omega)
    have hf : oiFtype (numbered mf d k i) (inodeAddr d') = oiFtype mf (inodeAddr d') :=
      Mem.get32_congr fun x _ hx => hlow x (by omega)
    refine dirent_congr ((h.writes.oiFtype hd' hdi).trans hf.symm)
      ((h.writes.oiSize hd' hdi).trans hs.symm) fun hlt' hdd x hx => ?_
    have hdd' : IsDir mf d' := by
      unfold IsDir at hdd ⊢
      rwa [hf] at hdd
    have hmem := files_of_isDir hdd' hd'
    have hmem' := h.writes.files_of_ne hdi hmem
    have hlt'' : k' < entries mf d' := by
      unfold entries at hlt' ⊢
      rwa [hs] at hlt'
    have hge := entry_ge h.tidy (h.tree.dirOk hd' hdd') hlt''
    have he : entryAddr (numbered mf d k i) d' k' = entryAddr mf d' k' := by
      unfold entryAddr
      rw [ptr_of_own hown hmem]
    rw [h.entryAddr_eq hmem', he]
    exact h.data (by omega)

theorem entry (h : Entering g mf mf' d k i name) : dirent mf' d k = some (name, i) := by
  have hge := entry_ge h.tidy h.dirOk h.reserved.lt
  have hlt : k < entries mf' d := by
    unfold entries
    rw [h.writes.oiSize h.lt (Ne.symm h.ne)]
    exact h.reserved.lt
  rw [dirent_of_isDir h.dir' hlt, h.entryAddr_eq h.files_dir]
  have hino : odIno mf' (entryAddr mf d k) = i := h.writes.entry
  have hi := h.two_le
  rw [hino, if_pos (by omega)]
  congr 2
  rw [← h.reserved.name]
  unfold odName
  congr 1
  exact Mem.load_congr fun x hx _ => h.writes.data x (by omega) (by omega)

theorem kept (h : Entering g mf mf' d k i name) :
    Kept g (fun j => j = d ∨ (j = i ∧ oiFtype mf' (inodeAddr j) ≠ oiFtype mf (inodeAddr j)))
      mf mf' := by
  have hsame (j : Nat) (hn : ¬ (j = d ∨
      (j = i ∧ oiFtype mf' (inodeAddr j) ≠ oiFtype mf (inodeAddr j)))) (hj : j < g.ninodes) :
      oiFtype mf' (inodeAddr j) = oiFtype mf (inodeAddr j) := by
    by_cases hji : j = i
    · by_contra hne
      exact hn (.inr ⟨hji, hne⟩)
    · exact h.writes.oiFtype hj hji
  refine ⟨fun j hj hn => hsame j hn hj, fun j hj _ hn => ?_,
    fun d' k' hd' hn => h.others hd' fun he => hn (.inl (congrArg Prod.fst he))⟩
  have hj' : Files g mf' j := ⟨hj.1, by rw [hsame j hn hj.1]; exact hj.2⟩
  refine ⟨h.writes.files_oiSize h.header hj', fun x hx => ?_⟩
  unfold fileByte
  rw [h.ptr_eq hj']
  have h0 := h.tidy.mapped_own hj hx
  have hne : own mf (Files g mf) (j, .leaf (x / 1024)) ≠
      own mf (Files g mf) (d, .leaf (k / 8)) := by
    intro heq
    have hij := h.tidy.laid.owns.inj _ _ h0 heq
    simp only [Prod.mk.injEq] at hij
    exact hn (.inl hij.1)
  have hdat := (h.tidy.laid.isData h0).1
  have hk8 := h.dirOk.entry_lt h.reserved.lt
  rw [own_of_mem hj] at hdat
  rw [own_of_mem hj, own_of_mem h.dirOk.mem] at hne
  refine h.writes.data _ (by omega) ?_
  unfold entryAddr
  omega

theorem entered (h : Entering g mf mf' d k i name) : Entered g mf mf' d k i name :=
  ⟨h.entry, fun _ _ hd' hne => h.others hd' hne, h.kept, h.dir'⟩

theorem linkCount (h : Entering g mf mf' d k i name) (j : Nat) :
    linkCount g mf' j = linkCount g mf j + if j = i then 1 else 0 := by
  have hch := linkCount_change h.lt h.entry_lt (fun _ _ hd' hne => h.others hd' hne) j
  have hold : ¬ NamesIno mf j d k := by
    unfold NamesIno dirent
    rw [if_neg fun hc => hc.2.2 h.reserved.blank]
    nofun
  have hnew : NamesIno mf' j d k ↔ j = i := by
    unfold NamesIno
    rw [h.entry]
    simp [eq_comm]
  simp only [hold, hnew, if_false, Nat.add_zero] at hch
  exact hch

theorem links (h : Entering g mf mf' d k i name) (hj : j < g.ninodes) (hnd : ¬ IsDir mf' j)
    (hlinks : ¬ IsDir mf j → oiNlink mf (inodeAddr j) = Ospfs.linkCount g mf j) :
    oiNlink mf' (inodeAddr j) = Ospfs.linkCount g mf' j := by
  rw [h.linkCount j]
  by_cases hji : j = i
  · subst hji
    rw [h.header.nlink hnd, if_pos rfl]
  · have hnd' : ¬ IsDir mf j := fun h' => hnd ((h.writes.isDir_iff hj hji).2 h')
    have hjd : j ≠ d := by
      rintro rfl
      exact hnd' h.dir
    rw [h.writes.oiNlink hj hji hjd, if_neg hji]
    exact hlinks hnd'

theorem dirent_cases (h : Entering g mf mf' d k i name) {nm : Bytes} {i' : Nat}
    (hd' : d' < g.ninodes) (he : dirent mf' d' k' = some (nm, i')) :
    (nm = name ∧ i' = i) ∨ dirent mf d' k' = some (nm, i') := by
  by_cases hne : (d', k') = (d, k)
  · cases hne
    rw [h.entry] at he
    cases he
    exact .inl ⟨rfl, rfl⟩
  · rw [h.others hd' hne] at he
    exact .inr he

theorem tree' (h : Entering g mf mf' d k i name) (hz : 0 ∉ name)
    (hparent : oiNlink mf' (inodeAddr d) ≠ 0) : Tree g mf' := by
  refine ⟨fun j hj => ?_, fun j hj => ?_, fun d' hd' hdd => ?_, fun d' k' nm i' hd' he => ?_⟩
  · by_cases hji : j = i
    · subst hji
      exact h.header.kind
    · rw [h.writes.oiFtype hj hji]
      exact h.tree.kinds j hj
  · rw [h.writes.files_oiSize h.header hj]
    exact h.tree.whole j (h.writes.files h.header hj)
  · by_cases hji : d' = i
    · subst hji
      obtain ⟨h1, h2⟩ := h.header.dir.2 hdd
      rw [h1, h2]
      exact ⟨rfl, by decide⟩
    · obtain ⟨h1, h2⟩ := h.tree.dirs d' hd' ((h.writes.isDir_iff hd' hji).1 hdd)
      rw [h.writes.oiSize hd' hji]
      refine ⟨h1, ?_⟩
      by_cases hjd : d' = d
      · subst hjd
        exact hparent
      · rw [h.writes.oiNlink hd' hji hjd]
        exact h2
  · rcases h.dirent_cases hd' he with ⟨rfl, rfl⟩ | hold
    · exact ⟨h.reserved.short, hz, h.two_le, h.ino_lt⟩
    · exact h.tree.names d' k' nm i' hd' hold

theorem onto (h : Entering g mf mf' d k i name) (h0 : own mf (Files g mf) (j, p) ≠ 0) :
    own mf' (Files g mf') (j, p) = own mf (Files g mf) (j, p) := by
  have hj := mem_of_own h0
  refine h.own_eq ?_
  by_cases hji : j = i
  · subst hji
    by_contra hno
    exact h0 (h.header.dropped hj hno p)
  · exact h.writes.files_of_ne hji hj

end Entering

/-! ## The image -/

theorem Image.enter (h : Image g st m mf) (hd : d < g.ninodes) (hdir : IsDir mf d)
    (hres : Reserved g mf d k name) (hz : 0 ∉ name) (hw : Enters g mf mf' d k i)
    (hh : Header g mf mf' i) (hi : 2 ≤ i) (hin : i < g.ninodes) (hid : i ≠ d)
    (hsh : Shadow g st'.nextb m' mf') (hnb : st'.nextb = st.nextb)
    (hnext : st.nextinode ≤ st'.nextinode ∧ st'.nextinode ≤ g.ninodes)
    (hnew : ∀ j, st'.nextinode ≤ j → st.nextinode ≤ j ∧ j ≠ i)
    (hparent : oiNlink mf' (inodeAddr d) ≠ 0 ∧ oiNlink mf' (inodeAddr d) ≤ st'.nextinode)
    (hlate : IsDir mf' i → st.nextinode ≤ i)
    (hhard : ∀ l ∈ st'.hardlinks, l ∈ st.hardlinks ∨ (l.ospIno = i ∧ ¬ IsDir mf' i)) :
    Image g st' m' mf' ∧ Entered g mf mf' d k i name := by
  have he : Entering g mf mf' d k i name := ⟨h.tidy, h.tree, hd, hdir, hres, hw, hh, hi, hin, hid⟩
  have hfd := g.firstdata_ge
  have hle : ∀ j, j < st.nextinode → j < st'.nextinode := fun j hj => by omega
  have hilt : i < st'.nextinode := by
    by_contra hge
    exact (hnew i (by omega)).2 rfl
  refine ⟨⟨hsh, he.tidy', fun j p hj => ?_, fun b hb hlt => ?_, he.tree' hz hparent.1,
    fun j h2 hj hnd => he.links hj hnd fun hnd' => h.links j h2 hj hnd',
    ⟨Nat.le_trans h.inodes.1 hnext.1, hnext.2⟩, fun j hj hj' x hx => ?_,
    fun d' k' nm i' hd' hent => ?_, fun d' hd' hdd => ?_, fun l hl => ?_⟩, he.entered⟩
  · rw [he.own_eq hj, hw.fileBlocks hh hj]
    exact h.exact j p (hw.files hh hj)
  · rw [hnb] at hlt
    obtain ⟨⟨j, p⟩, hown⟩ := h.onto b hb hlt
    have h0 : own mf (Files g mf) (j, p) ≠ 0 := by
      have := hb.1
      omega
    exact ⟨(j, p), (he.onto h0).trans hown⟩
  · obtain ⟨h1, h2⟩ := hnew j hj
    have hjd : j ≠ d := by
      rintro rfl
      have := h.isDir_lt hd hdir
      omega
    rw [hw.inodes j hj' h2 x hx (.inr (.inr hjd))]
    exact h.fresh j h1 hj' x hx
  · rcases he.dirent_cases hd' hent with ⟨-, rfl⟩ | hold
    · exact hilt
    · exact hle _ (h.named d' k' nm i' hd' hold)
  · by_cases hji : d' = i
    · subst hji
      rw [(hh.dir.2 hdd).2]
      omega
    · by_cases hjd : d' = d
      · subst hjd
        exact hparent.2
      · rw [hw.oiNlink hd' hji hjd]
        have := h.dirs d' hd' ((hw.isDir_iff hd' hji).1 hdd)
        omega
  · rcases hhard l hl with hold | ⟨rfl, hnd⟩
    · obtain ⟨h1, h2, h3⟩ := h.hard l hold
      refine ⟨h1, hle _ h2, fun hdd => ?_⟩
      by_cases hji : l.ospIno = i
      · have := hlate (hji ▸ hdd)
        omega
      · exact h3 ((hw.isDir_iff (Nat.lt_of_lt_of_le h2 h.inodes.2) hji).1 hdd)
    · exact ⟨hi, hilt, hnd⟩

end OsLabs.Ospfs
