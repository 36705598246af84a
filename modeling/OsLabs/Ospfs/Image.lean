import OsLabs.Ospfs.Storeblk
import OsLabs.Ospfs.Tree

/-!
# OSPFS: the image under construction

`Image g st m mf` is what holds of the disk `m`, finished as `mf`, between the
formatter's steps: the blocks handed out so far are those below `nextb`, each
has one place, a file's places are those its size calls for, and link counts
are exact. `Kept g E m m'`: all inodes outside `E` have the type, the content
and the entries they had.
-/

namespace OsLabs.Ospfs

open BlockProg

structure Image (g : Geometry) (st : Globals) (m mf : Mem) : Prop where
  shadow : Shadow g st.nextb m mf
  tidy : Tidy g (Files g mf) mf
  exact : ∀ j p, Files g mf j →
    (own mf (Files g mf) (j, p) ≠ 0 ↔ p.InUse (fileBlocks mf j))
  onto : ∀ b, g.IsData b → b < st.nextb → ∃ i, own mf (Files g mf) i = b
  tree : Tree g mf
  links : ∀ j, 2 ≤ j → j < g.ninodes → ¬ IsDir mf j →
    oiNlink mf (inodeAddr j) = linkCount g mf j
  inodes : 2 ≤ st.nextinode ∧ st.nextinode ≤ g.ninodes
  fresh : ∀ j, st.nextinode ≤ j → j < g.ninodes → ∀ x, x < 64 → mf (inodeAddr j + x) = 0
  named : ∀ d k name i, d < g.ninodes → dirent mf d k = some (name, i) → i < st.nextinode
  dirs : ∀ d, d < g.ninodes → IsDir mf d → oiNlink mf (inodeAddr d) ≤ st.nextinode
  hard : ∀ h ∈ st.hardlinks, 2 ≤ h.ospIno ∧ h.ospIno < st.nextinode ∧ ¬ IsDir mf h.ospIno

structure Kept (g : Geometry) (E : Nat → Prop) (m m' : Mem) : Prop where
  ftype : ∀ j, j < g.ninodes → ¬ E j → oiFtype m' (inodeAddr j) = oiFtype m (inodeAddr j)
  content : ∀ j, Files g m j → ¬ IsDir m j → ¬ E j →
    oiSize m' (inodeAddr j) = oiSize m (inodeAddr j) ∧
    ∀ x, x / 1024 < fileBlocks m j → fileByte m' j x = fileByte m j x
  entry : ∀ d k, d < g.ninodes → ¬ E d → dirent m' d k = dirent m d k

namespace Kept

variable {g : Geometry} {E E' : Nat → Prop} {m m' m'' : Mem}

theorem refl : Kept g E m m :=
  ⟨fun _ _ _ => rfl, fun _ _ _ _ => ⟨rfl, fun _ _ => rfl⟩, fun _ _ _ _ => rfl⟩

theorem mono (h : Kept g E m m') (hE : ∀ j, E j → E' j) : Kept g E' m m' :=
  ⟨fun j hj hn => h.ftype j hj fun he => hn (hE j he),
    fun j hj hd hn => h.content j hj hd fun he => hn (hE j he),
    fun d k hd hn => h.entry d k hd fun he => hn (hE d he)⟩

theorem trans (h : Kept g E m m') (h' : Kept g E m' m'') : Kept g E m m'' := by
  refine ⟨fun j hj hn => (h'.ftype j hj hn).trans (h.ftype j hj hn), fun j hj hd hn => ?_,
    fun d k hd hn => (h'.entry d k hd hn).trans (h.entry d k hd hn)⟩
  obtain ⟨hs, hb⟩ := h.content j hj hd hn
  have hj' : Files g m' j := ⟨hj.1, by rw [h.ftype j hj.1 hn]; exact hj.2⟩
  have hd' : ¬ IsDir m' j := by
    unfold IsDir
    rwa [h.ftype j hj.1 hn]
  obtain ⟨hs', hb'⟩ := h'.content j hj' hd' hn
  refine ⟨hs'.trans hs, fun x hx => ?_⟩
  rw [hb' x (by unfold fileBlocks at *; rwa [hs]), hb x hx]

theorem isDir (h : Kept g E m m') {j : Nat} (hj : j < g.ninodes) (hn : ¬ E j) :
    IsDir m' j ↔ IsDir m j := by
  unfold IsDir
  rw [h.ftype j hj hn]

end Kept

variable {g : Geometry} {S : Nat → Prop} {st st' : Globals} {m m' mf mf' : Mem}
  {ino n k d b : Nat}

theorem Frame.files (hf : Frame g S ino k m m') : Files g m' = Files g m := by
  funext j
  unfold Files
  refine propext (and_congr_right fun hj => ?_)
  rw [hf.oiFtype hj]

/-- An operation on the blocks of one inode keeps the others. -/
theorem Frame.kept (hf : Frame g (Files g m) ino k m m') (ht : Tidy g (Files g m) m)
    (htree : Tree g m) : Kept g (fun j => j = ino) m m' := by
  refine ⟨fun j hj _ => hf.oiFtype hj, fun j hj _ hn => ⟨hf.oiSize hj.1 hn, fun x hx => ?_⟩,
    fun d k hd hn => ?_⟩
  · exact hf.fileByte hj (fun he => absurd he hn) (ht.mapped j hj _ hx)
  · exact hf.dirent ht (fun hdir => htree.dirOk hd hdir) hd hn

/-- Blocks are handed to `ino` and its size is set. -/
theorem Image.regrow (h : Image g st m mf) (hin : Files g mf ino) (hlt : ino < st.nextinode)
    (hst : st' = { st with nextb := st'.nextb }) (hsh : Shadow g st'.nextb m' mf')
    (ht : Tidy g (Files g mf) mf') (hfr : Frame g (Files g mf) ino k mf mf')
    (hexact : ∀ p, own mf' (Files g mf) (ino, p) ≠ 0 ↔ p.InUse (fileBlocks mf' ino))
    (honto : ∀ b, g.IsData b → b < st'.nextb → ∃ i, own mf' (Files g mf) i = b)
    (hwhole : oiSize mf' (inodeAddr ino) + 1023 < 2 ^ 32)
    (hdir : IsDir mf ino → oiSize mf' (inodeAddr ino) % 1024 = 0 ∧
      ∀ k, dirent mf' ino k = dirent mf ino k) : Image g st' m' mf' := by
  have hfiles := hfr.files
  have hnext : st'.nextinode = st.nextinode := by rw [hst]
  have hhard : st'.hardlinks = st.hardlinks := by rw [hst]
  have hent (d k : Nat) (hd : d < g.ninodes) : dirent mf' d k = dirent mf d k := by
    by_cases hd' : d = ino
    · subst hd'
      by_cases hdd : IsDir mf d
      · exact (hdir hdd).2 k
      · have hdd' : ¬ IsDir mf' d := fun h' => hdd ((hfr.isDir hd).1 h')
        unfold dirent
        simp only [hdd, hdd', false_and, if_false]
    · exact hfr.dirent h.tidy (fun hdd => h.tree.dirOk hd hdd) hd hd'
  refine ⟨hsh, by rw [hfiles]; exact ht, fun j p hj => ?_, ?_, ⟨?_, ?_, ?_, ?_⟩, ?_, ?_, ?_, ?_, ?_, ?_⟩
  · rw [hfiles] at hj ⊢
    by_cases hj' : j = ino
    · subst hj'
      exact hexact p
    · rw [hfr.others j p hj', hfr.fileBlocks hj.1 hj']
      exact h.exact j p hj
  · rw [hfiles]
    exact honto
  · intro j hj
    rw [hfr.oiFtype hj]
    exact h.tree.kinds j hj
  · intro j hj
    rw [hfiles] at hj
    by_cases hj' : j = ino
    · subst hj'
      exact hwhole
    · rw [hfr.oiSize hj.1 hj']
      exact h.tree.whole j hj
  · intro d hd hdd
    have hdd' := (hfr.isDir hd).1 hdd
    rw [hfr.oiNlink hd]
    refine ⟨?_, (h.tree.dirs d hd hdd').2⟩
    by_cases hd' : d = ino
    · subst hd'
      exact (hdir hdd').1
    · rw [hfr.oiSize hd hd']
      exact (h.tree.dirs d hd hdd').1
  · intro d k name i hd he
    rw [hent d k hd] at he
    exact h.tree.names d k name i hd he
  · intro j h2 hj hnd
    rw [hfr.oiNlink hj, linkCount_congr hent]
    exact h.links j h2 hj fun h' => hnd ((hfr.isDir hj).2 h')
  · rw [hnext]
    exact h.inodes
  · intro j hj hj' x hx
    rw [hnext] at hj
    rw [hfr.inodes j hj' (by omega) _ (by omega) (by omega)]
    exact h.fresh j hj hj' x hx
  · intro d k name i hd he
    rw [hent d k hd] at he
    rw [hnext]
    exact h.named d k name i hd he
  · intro d hd hdd
    rw [hfr.oiNlink hd, hnext]
    exact h.dirs d hd ((hfr.isDir hd).1 hdd)
  · intro l hl
    rw [hhard] at hl
    obtain ⟨h1, h2, h3⟩ := h.hard l hl
    have hlt' := Nat.lt_of_lt_of_le h2 h.inodes.2
    rw [hnext]
    exact ⟨h1, h2, fun h' => h3 ((hfr.isDir hlt').1 h')⟩

theorem Image.fresh_word (h : Image g st m mf) {j c : Nat} (hj : st.nextinode ≤ j)
    (hlt : j < g.ninodes) (hc : c + 4 ≤ 64) : mf.get32 (inodeAddr j + c) = 0 := by
  refine Mem.get32_of_zero fun x hx => ?_
  rw [Nat.add_assoc]
  exact h.fresh j hj hlt _ (by omega)

theorem Image.isDir_lt (h : Image g st m mf) (hlt : d < g.ninodes) (hd : IsDir mf d) :
    d < st.nextinode := by
  by_contra hge
  have hz : oiFtype mf (inodeAddr d) = 0 := h.fresh_word (c := 4) (by omega) hlt (by omega)
  rw [show oiFtype mf (inodeAddr d) = ftypeDir from hd] at hz
  cases hz

theorem Tidy.write_unowned (ht : Tidy g S m) (hin : ino < g.ninodes) (hb : g.IsData b)
    (hno : ∀ i, own m S i ≠ b)
    (hw : ∀ x, x < 1024 * b ∨ 1024 * b + 1024 ≤ x → m' x = m x) :
    Move g S ino k m m' ∧ own m' S = own m S ∧ ∀ x, x < 3072 → m' x = m x := by
  have hb1 := hb.1
  have hfd := g.firstdata_ge
  have hlow : ∀ x, x < 3072 → m' x = m x := fun x hx => hw x (by omega)
  have hown := ht.laid.own_of_data hb1 (fun i _ => hno i) hw
  have hfr : Frame g S ino k m m' := by
    refine ht.laid.frame_data hin hown fun x hx => .inr (.inr ⟨b, hb1, ?_, ?_, hno⟩)
    · by_contra hlt
      exact hx (hw x (by omega))
    · by_contra hlt
      exact hx (hw x (by omega))
  have hptr (j : Nat) (hj : S j) (p : Place) : ptr m' (inodeAddr j) p = ptr m (inodeAddr j) p :=
    ptr_of_own hown hj p
  have hsize (j : Nat) (hj : j < g.ninodes) :
      oiSize m' (inodeAddr j) = oiSize m (inodeAddr j) := by
    have := inodeAddr_lt hj
    exact Mem.get32_congr fun x _ hx => hw x (by omega)
  refine ⟨⟨ht.congr (fun _ h => h) hlow hptr fun j hj => ?_, hfr, hsize ino hin⟩, hown, hlow⟩
  unfold fileBlocks
  rw [hsize j (ht.laid.bound j hj)]

theorem Spare.write {c : Nat → UInt8} (hs : Spare g S m b c)
    (hown : own m' S = own m S) (hlow : ∀ x, x < 3072 → m' x = m x) :
    Spare g S m' b fun x => m' (1024 * b + x) := by
  have := g.small
  have := hs.allocated.1.2
  refine ⟨⟨hs.allocated.1, ?_⟩, fun i => by rw [hown]; exact hs.unowned i, fun _ _ => rfl⟩
  rw [isFree_congr (fun x _ => hlow x) (by omega)]
  exact hs.allocated.2

end OsLabs.Ospfs
