import OsLabs.Ospfs.Symlink

/-!
# OSPFS: formatted images

What `ospfsformat` leaves on the disk, said without the formatter's own bookkeeping
(`formatted_wellFormed`), and that a memory which holds the image file's bytes in its first
`nblocks` blocks is as good as the disk, whatever lies behind them (`Image.loaded`).
-/

namespace OsLabs.Ospfs

variable {o : Options} {g : Geometry} {st : Globals} {m mf mf' : Mem} {d j k b : Nat}

/-! ## Ownership of blocks -/

/-- Place `p` of inode `j`, no symbolic link, holds block number `b`. -/
structure Refers (g : Geometry) (m : Mem) (i : Nat × Place) (b : Nat) : Prop where
  files : Files g m i.1
  ptr : ptr m (inodeAddr i.1) i.2 = b

theorem Refers.own {i : Nat × Place} (h : Refers g m i b) : own m (Files g m) i = b :=
  (own_of_mem h.files _).trans h.ptr

theorem refers_of_own {i : Nat × Place} (h : own m (Files g m) i = b) (hb : b ≠ 0) :
    Refers g m i b := by
  have hf : Files g m i.1 := mem_of_own (h ▸ hb)
  exact ⟨hf, (own_of_mem hf _).symm.trans h⟩

theorem Image.refers_unique (h : Image g st m mf) (hb : g.firstdata ≤ b) (hn : b < st.nextb) :
    ∃! i, Refers g mf i b := by
  have hfd := g.firstdata_ge
  have hle := h.shadow.le
  obtain ⟨i, hi⟩ := h.onto b ⟨hb, by omega⟩ hn
  refine ⟨i, refers_of_own hi (by omega), fun i' hi' => ?_⟩
  have h0 : own mf (Files g mf) i' ≠ 0 := by
    rw [hi'.own]
    omega
  exact h.tidy.laid.owns.inj i' i h0 (hi'.own.trans hi.symm)

theorem Image.refers_data (h : Image g st m mf) {i : Nat × Place} (hi : Refers g mf i b)
    (hb : b ≠ 0) : g.firstdata ≤ b ∧ b < st.nextb := by
  obtain ⟨hdata, hfree⟩ := h.tidy.laid.owns.ok i (by rw [hi.own]; exact hb)
  rw [hi.own] at hdata hfree
  have hsmall := g.small
  rw [h.shadow.bits b (by have := hdata.2; omega), decide_eq_false_iff_not] at hfree
  exact ⟨hdata.1, by have := hdata.2; omega⟩

/-- **Formatted images are well formed.** In the bitmap the free blocks are those from `nextb`
to the end of the disk. Every data block in front of them is held by one place of one inode, and
nothing else is: a place holds a block exactly if the inode's size calls for it. Link counts
are the numbers of names, names are in order and name inodes that are in use. -/
theorem formatted_wellFormed (o : Options) : ∀ st m, formatted o = some (st, m) → ∃ g, Fits o g ∧
    (∀ b < 8192, isFree m b = true ↔ st.nextb ≤ b ∧ b < g.nblocks) ∧
    (∀ b, g.firstdata ≤ b → b < st.nextb → ∃! i, Refers g m i b) ∧
    (∀ i b, Refers g m i b → b ≠ 0 → g.firstdata ≤ b ∧ b < st.nextb) ∧
    (∀ j p, Files g m j → (ptr m (inodeAddr j) p ≠ 0 ↔ p.InUse (fileBlocks m j))) ∧
    (∀ j, 2 ≤ j → j < g.ninodes → ¬ IsDir m j → oiNlink m (inodeAddr j) = linkCount g m j) ∧
    ∀ d k name i, d < g.ninodes → dirent m d k = some (name, i) →
      name.length ≤ 123 ∧ 0 ∉ name ∧ 2 ≤ i ∧ i < st.nextinode := by
  intro st m h
  obtain ⟨g, mc, hg, himg⟩ := formatted_fits h
  refine ⟨g, hg, fun b hb => ?_, fun b hb hn => himg.refers_unique hb hn,
    fun i b hi hb => himg.refers_data hi hb, fun j p hj => ?_, himg.links,
    fun d k name i hd he => ?_⟩
  · rw [himg.shadow.bits b hb, decide_eq_true_iff]
  · rw [← own_of_mem hj]
    exact himg.exact j p hj
  · obtain ⟨hlen, hz, h2, -⟩ := himg.tree.names d k name i hd he
    exact ⟨hlen, hz, h2, himg.named d k name i hd he⟩

/-- A file `f` with two bytes in a directory `d`. -/
def hello : HostDir :=
  .directory ⟨[100], by decide⟩ 493
    (.file ⟨⟨[102], by decide⟩, 1, 7, 420, none, [some ⟨[104, 105], by decide⟩]⟩ .nil) .nil

def helloOptions : Options := ⟨8192, 16, false, [], .recursive hello⟩

theorem formatted_hello : ∃ st m, formatted helloOptions = some (st, m) ∧ st.nextb = 7 := by
  have hn : (formatted helloOptions).map (fun r => r.1.nextb) = some 7 := by decide +kernel
  obtain ⟨⟨st, m⟩, h, hst⟩ := Option.map_eq_some_iff.1 hn
  exact ⟨st, m, h, hst⟩

/-- Blocks 4, 5 and 6 are the root directory's, `d`'s and the file's. -/
theorem formatted_wellFormed_hello : ∃ st m g, formatted helloOptions = some (st, m) ∧
    Fits helloOptions g ∧ isFree m 6 = false ∧ (∃! i, Refers g m i 6) ∧ isFree m 7 = true := by
  obtain ⟨st, m, h, hst⟩ := formatted_hello
  obtain ⟨g, hg, hfree, huniq, -⟩ := formatted_wellFormed helloOptions st m h
  have hb : g.nblocks = 8192 := hg.nblocks
  have hi : g.ninodes = 16 := hg.ninodes
  refine ⟨st, m, g, h, hg, ?_, huniq 6 ?_ (by omega), (hfree 7 (by omega)).2 (by omega)⟩
  · rw [← Bool.not_eq_true, hfree 6 (by omega)]
    omega
  · unfold Geometry.firstdata
    omega

/-! ## The image in memory -/

section Loaded

variable (hx : ∀ x, x < 1024 * g.nblocks → mf' x = mf x)
include hx

theorem loaded_inode (hj : j < g.ninodes) {c : Nat} (hc : c + 4 ≤ 64) :
    mf'.get32 (inodeAddr j + c) = mf.get32 (inodeAddr j + c) := by
  have hlt := inodeAddr_lt hj
  have hle := g.firstdata_le
  exact Mem.get32_congr fun x _ _ => hx x (by omega)

theorem loaded_files (j : Nat) : Files g mf' j ↔ Files g mf j := by
  unfold Files
  refine and_congr_right fun hj => ?_
  unfold oiFtype
  rw [loaded_inode hx hj (by omega)]

theorem loaded_fileBlocks (hj : j < g.ninodes) : fileBlocks mf' j = fileBlocks mf j := by
  have hsize : oiSize mf' (inodeAddr j) = oiSize mf (inodeAddr j) :=
    loaded_inode hx hj (c := 0) (by omega)
  unfold fileBlocks
  rw [hsize]

variable (h : Image g st m mf)
include h

theorem loaded_own : own mf' (Files g mf) = own mf (Files g mf) := by
  have hle := g.firstdata_le
  refine h.tidy.laid.own_congr (fun j hj x _ hx' => hx x ?_) fun i _ h0 x _ hx' => hx x ?_
  · have := inodeAddr_lt hj.1
    omega
  · have := (h.tidy.laid.isData h0).2
    omega

theorem loaded_kept : Kept g (fun _ => False) mf mf' := by
  have hbyte (j b c : Nat) (hj : Files g mf j) (hb : b < fileBlocks mf j) (hc : c < 1024) :
      mf' (1024 * ptr mf' (inodeAddr j) (.leaf b) + c) =
        mf (1024 * ptr mf (inodeAddr j) (.leaf b) + c) := by
    have hdata := (h.tidy.laid.isData (h.tidy.mapped_own hj hb)).2
    rw [own_of_mem hj] at hdata
    rw [ptr_of_own (loaded_own hx h) hj]
    exact hx _ (by omega)
  refine ⟨fun j hj _ => loaded_inode hx hj (c := 4) (by omega), fun j hj _ _ =>
    ⟨loaded_inode hx hj.1 (c := 0) (by omega), fun x hb => hbyte j _ _ hj hb (by omega)⟩,
    fun d k hd _ => ?_⟩
  refine dirent_congr (loaded_inode hx hd (c := 4) (by omega))
    (loaded_inode hx hd (c := 0) (by omega)) fun hk hdir x hx' => ?_
  have hok := h.tree.dirOk hd hdir
  unfold entryAddr
  rw [Nat.add_assoc, Nat.add_assoc]
  exact hbyte d _ _ hok.mem (hok.entry_lt hk) (by omega)

theorem loaded_shadow : ∃ m', Shadow g st.nextb m' mf' := by
  have hfd := g.firstdata_ge
  have hle := g.firstdata_le
  refine ⟨fun x => if 2048 ≤ x ∧ x < 3072 then 0xFF else mf' x, fun x hx' => ?_, fun b hb => ?_,
    fun x h1 h2 => if_pos ⟨h1, h2⟩, h.shadow.le, h.shadow.nextb⟩
  · exact (if_neg (by omega)).symm
  · rw [← h.shadow.bits b hb]
    exact isFree_congr (fun x _ hx' => hx x (by omega)) hb

theorem loaded_tidy : Tidy g (Files g mf') mf' := by
  have hfd := g.firstdata_ge
  have hle := g.firstdata_le
  have hiff := loaded_files hx
  refine h.tidy.congr (fun j hj => (hiff j).1 hj) (fun x hx' => hx x (by omega))
    (fun j hj p => ptr_of_own (loaded_own hx h) ((hiff j).1 hj) p) fun j hj => ?_
  exact Nat.le_of_eq (loaded_fileBlocks hx hj.1)

end Loaded

/-- **The image in memory**: what holds of the disk holds of a memory with the bytes of the image
file, whatever is behind them. -/
theorem Image.loaded (h : Image g st m mf) (hx : ∀ x, x < 1024 * g.nblocks → mf' x = mf x) :
    (∃ m', Image g st m' mf') ∧ Kept g (fun _ => False) mf mf' := by
  obtain ⟨m', hsh⟩ := loaded_shadow hx h
  have hkept := loaded_kept hx h
  have hfiles : Files g mf' = Files g mf := funext fun j => propext (loaded_files hx j)
  have hown := loaded_own hx h
  have hword (j : Nat) (hj : j < g.ninodes) {c : Nat} (hc : c + 4 ≤ 64) :=
    loaded_inode hx hj hc
  have hdir (d : Nat) (hd : d < g.ninodes) : IsDir mf' d ↔ IsDir mf d := hkept.isDir hd id
  have hsize (j : Nat) (hj : j < g.ninodes) : oiSize mf' (inodeAddr j) = oiSize mf (inodeAddr j) :=
    hword j hj (c := 0) (by omega)
  have hnlink (j : Nat) (hj : j < g.ninodes) :
      oiNlink mf' (inodeAddr j) = oiNlink mf (inodeAddr j) := hword j hj (c := 8) (by omega)
  have hent (d k : Nat) (hd : d < g.ninodes) := hkept.entry d k hd id
  refine ⟨⟨m', hsh, loaded_tidy hx h, fun j p hj => ?_, fun b hb hn => ?_, ⟨fun j hj => ?_,
    fun j hj => ?_, fun d hd hdd => ?_, fun d k name i hd he => ?_⟩, fun j h2 hj hnd => ?_,
    h.inodes, fun j hj hj' x hx' => ?_, fun d k name i hd he => ?_, fun d hd hdd => ?_,
    fun l hl => ?_⟩, hkept⟩
  · rw [hfiles] at hj ⊢
    rw [hown, loaded_fileBlocks hx hj.1]
    exact h.exact j p hj
  · rw [hfiles, hown]
    exact h.onto b hb hn
  · rw [hkept.ftype j hj id]
    exact h.tree.kinds j hj
  · rw [hsize j hj.1]
    exact h.tree.whole j (hfiles ▸ hj)
  · rw [hsize d hd, hnlink d hd]
    exact h.tree.dirs d hd ((hdir d hd).1 hdd)
  · exact h.tree.names d k name i hd ((hent d k hd).symm.trans he)
  · rw [hnlink j hj, linkCount_congr hent]
    exact h.links j h2 hj fun h' => hnd ((hdir j hj).2 h')
  · have hlt := inodeAddr_lt hj'
    have hle := g.firstdata_le
    rw [hx _ (by omega)]
    exact h.fresh j hj hj' x hx'
  · exact h.named d k name i hd ((hent d k hd).symm.trans he)
  · rw [hnlink d hd]
    exact h.dirs d hd ((hdir d hd).1 hdd)
  · obtain ⟨h1, h2, h3⟩ := h.hard l hl
    have hlt : l.ospIno < g.ninodes := Nat.lt_of_lt_of_le h2 h.inodes.2
    exact ⟨h1, h2, fun h' => h3 ((hdir _ hlt).1 h')⟩

end OsLabs.Ospfs
