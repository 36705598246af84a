import OsLabs.Ospfs.Formatted
import OsLabs.Ospfs.Naming

/-!
# OSPFS: link counts

`Tallied g m lost`: on the disk `m` the link count of every file and symbolic link is the number
of entries that name it, and one more for the inodes `lost` that a call has claimed and not
entered. The calls on names keep it, whatever names a directory holds twice.
-/

namespace OsLabs.Ospfs

variable {o : Options} {g : Geometry} {m m' w : Mem} {lost lost' : Finset Nat} {d k i ino : Nat}
  {name : Bytes} {r : Ret}

structure Tallied (g : Geometry) (m : Mem) (lost : Finset Nat) : Prop where
  standing : Standing g m
  kinds : ∀ j, j < g.ninodes → oiFtype m (inodeAddr j) ≤ ftypeSymlink
  names : ∀ d k name i, d < g.ninodes → dirent m d k = some (name, i) →
    name.length ≤ 123 ∧ 0 ∉ name ∧ 2 ≤ i ∧ i < g.ninodes
  links : ∀ j, 2 ≤ j → j < g.ninodes → ¬ IsDir m j →
    oiNlink m (inodeAddr j) = linkCount g m j + if j ∈ lost then 1 else 0

theorem Image.tallied {st : Globals} {mc mf : Mem} (h : Image g st mc mf) : Tallied g mf ∅ :=
  ⟨h.standing, h.tree.kinds, h.tree.names, fun j h2 hj hnd => h.links j h2 hj hnd⟩

/-! ## Changes of one entry -/

/-- Entry `k` of directory `d` is written, and the link count of inode `i` may change. -/
structure Links (g : Geometry) (d k i : Nat) (m m' : Mem) : Prop where
  standing : Standing g m'
  others : ∀ d' k', d' < g.ninodes → (d', k') ≠ (d, k) → dirent m' d' k' = dirent m d' k'
  ftypes : ∀ j, j < g.ninodes → oiFtype m' (inodeAddr j) = oiFtype m (inodeAddr j)
  nlinks : ∀ j, j < g.ninodes → j ≠ i → oiNlink m' (inodeAddr j) = oiNlink m (inodeAddr j)

theorem Links.isDir (hl : Links g d k i m m') {j : Nat} (hj : j < g.ninodes) :
    IsDir m' j ↔ IsDir m j := isDir_congr (hl.ftypes j hj)

/-- Another inode's number in the entry of a name; its link count does not change. -/
theorem Touched.fill (ht : Touched g d w m) (hd : d < g.ninodes) (hk : k < entries m d)
    (hlen : name.length ≤ 123) (hz : 0 ∉ name) (h2 : 2 ≤ i) (hi : i < g.ninodes) :
    let m' := writeDirentry m (entryAddr m d k) i name
    Links g d k i m m' ∧ WritesEntry g d k m m' ∧ Touched g d m m' ∧
      dirent m' d k = some (name, i) := by
  have hsmall := g.small
  have hinodes := g.inodes
  obtain ⟨hwrites, ht', hentry⟩ := ht.standing.fillEntry hd ht.isDir hk hlen hz
    (by omega : 0 < i) (by omega)
  exact ⟨⟨ht'.standing, hwrites.others, hwrites.ftypes, fun j hj _ => hwrites.nlinks j hj⟩,
    hwrites, ht', hentry⟩

theorem links_of_writes (hd : d < g.ninodes) (hw : WritesEntry g d k m w) (ht : Touched g d m w)
    (hi : i < g.ninodes) (hnd : ¬ IsDir m i) (hne : i ≠ d) (v : Nat) :
    Links g d k i m (w.set32 (inodeAddr i + 8) v) ∧
      dirent (w.set32 (inodeAddr i + 8) v) d k = dirent w d k := by
  have hnd' : ¬ IsDir w i := fun h' => hnd ((ht.others i hi hne).isDir.1 h')
  obtain ⟨hdirents, hftypes, hnlinks⟩ := ht.standing.nlink_set hi hnd' v
  exact ⟨⟨(ht.standing.setNlink hi hnd' v).1,
    fun d' k' hd' hne' => (hdirents d' k' hd').trans (hw.others d' k' hd' hne'),
    fun j hj => (hftypes j hj).trans (hw.ftypes j hj),
    fun j hj hji => (hnlinks j hj hji).trans (hw.nlinks j hj)⟩, hdirents d k hd⟩

/-! ## New inodes -/

/-- Inode `ino` is set up for a new file or link with one name. -/
structure Prepared (g : Geometry) (ino : Nat) (m w : Mem) : Prop where
  setUp : SetUp g ino m w
  kind : oiFtype w (inodeAddr ino) ≤ ftypeSymlink
  nlink : oiNlink w (inodeAddr ino) = 1

theorem FreeInode.initFile (h : FreeInode g m ino) (mode : Nat) :
    Prepared g ino m (initFile m (inodeAddr ino) mode) := by
  refine ⟨.file h.lt h.plain mode, ?_, ?_⟩
  · unfold Ospfs.initFile oiFtype
    rw [Mem.get32_set32_ne (by omega), Mem.get32_set32_ne (by omega),
      Mem.get32_set32_of_lt (by decide)]
    exact Nat.zero_le _
  · unfold Ospfs.initFile oiNlink
    rw [Mem.get32_set32_ne (by omega), Mem.get32_set32_of_lt (by decide)]

theorem FreeInode.initSymlink (h : FreeInode g m ino) {symname : Bytes}
    (hlen : symname.length ≤ 51) : Prepared g ino m (initSymlink m (inodeAddr ino) symname) := by
  refine ⟨.symlink h.lt h.plain hlen, ?_, ?_⟩
  · unfold Ospfs.initSymlink oiFtype
    rw [Mem.get32_store_ne (by omega), Mem.get32_set32_of_lt (by decide)]
  · unfold Ospfs.initSymlink oiNlink
    rw [Mem.get32_store_ne (by omega), Mem.get32_set32_ne (by omega),
      Mem.get32_set32_of_lt (by decide)]

namespace Tallied

variable (h : Tallied g m lost)

include h

theorem position (hd : d < g.ninodes) {v : Bytes × Nat} (hk : dirent m d k = some v) :
    (d, k) ∈ positions g := by
  obtain ⟨hdir, hlt, -⟩ := dirent_lt hk
  have := h.standing.entries_le hd hdir
  exact Finset.mem_product.2 ⟨Finset.mem_range.2 hd, Finset.mem_range.2 (by omega)⟩

/-- An inode that has a name. -/
theorem named (hd : d < g.ninodes) (hk : dirent m d k = some (name, i)) :
    2 ≤ i ∧ i < g.ninodes ∧ 0 < linkCount g m i := by
  obtain ⟨-, -, h2, hi⟩ := h.names d k name i hd hk
  refine ⟨h2, hi, Nat.pos_of_ne_zero fun h0 => ?_⟩
  refine linkCount_eq_zero.1 h0 d k (h.position hd hk) ?_
  unfold NamesIno
  rw [hk]
  rfl

theorem live (h2 : 2 ≤ i) (hi : i < g.ninodes) (hpos : 0 < linkCount g m i) :
    oiNlink m (inodeAddr i) ≠ 0 := by
  by_cases hdir : IsDir m i
  · exact (h.standing.dirs i hi hdir).2
  · rw [h.links i h2 hi hdir]
    omega

theorem nlink_lt (h2 : 2 ≤ i) (hi : i < g.ninodes) (hnd : ¬ IsDir m i) :
    oiNlink m (inodeAddr i) + 1 < 2 ^ 32 := by
  have hsmall := g.small
  have hinodes := g.inodes
  have hle : linkCount g m i ≤ 8192 * (8 * 8192) :=
    (linkCount_le i).trans (Nat.mul_le_mul (by omega) (by omega))
  have hif : (if i ∈ lost then 1 else 0) ≤ 1 := by
    split
    · exact Nat.le_refl 1
    · exact Nat.zero_le 1
  rw [h.links i h2 hi hnd]
  omega

theorem congr (hst : Standing g m') (hs : SameNames g m m') : Tallied g m' lost := by
  refine ⟨hst, fun j hj => ?_, fun d k name i hd he => ?_, fun j h2 hj hnd => ?_⟩
  · rw [hs.ftypes j hj]
    exact h.kinds j hj
  · exact h.names d k name i hd ((hs.dirents d k hd).symm.trans he)
  · rw [hs.nlinks j hj, linkCount_congr hs.dirents]
    exact h.links j h2 hj fun h' => hnd ((isDir_congr (hs.ftypes j hj)).2 h')

/-- An inode without links is not lost, and has no name. -/
theorem free (h2 : 2 ≤ ino) (hlt : ino < g.ninodes) (h0 : oiNlink m (inodeAddr ino) = 0) :
    ino ∉ lost ∧ linkCount g m ino = 0 := by
  have hnd : ¬ IsDir m ino := fun hdir => (h.standing.dirs ino hlt hdir).2 h0
  have hlinks := h.links ino h2 hlt hnd
  rw [h0] at hlinks
  refine ⟨fun hlost => ?_, by omega⟩
  rw [if_pos hlost] at hlinks
  omega

/-- A free inode is set up, and not entered yet. -/
theorem setUp (h0 : oiNlink m (inodeAddr ino) = 0) (h2 : 2 ≤ ino) (hp : Prepared g ino m w) :
    Tallied g w (insert ino lost) ∧ ∀ d k, d < g.ninodes → dirent w d k = dirent m d k := by
  obtain ⟨hset, hkind, hlink⟩ := hp
  have hdirents (d k : Nat) (hd : d < g.ninodes) : dirent w d k = dirent m d k :=
    h.standing.dirent_of_inode hset.lt hset.free hset.plain hset.others hd
  have hsame (j : Nat) (hne : j ≠ ino) : SameInode m w j := .of_others hset.others hne
  have hst : Standing g w := h.standing.of_inode hset.lt hset.free hset.plain hset.others
    fun hocc => absurd hocc hset.unoccupied
  refine ⟨⟨hst, fun j hj => ?_, fun d k name i hd he => ?_, fun j h2' hj hnd => ?_⟩, hdirents⟩
  · by_cases hji : j = ino
    · rwa [hji]
    · rw [(hsame j hji).ftype]
      exact h.kinds j hj
  · exact h.names d k name i hd ((hdirents d k hd).symm.trans he)
  · rw [linkCount_congr hdirents]
    by_cases hji : j = ino
    · subst hji
      obtain ⟨-, hcount⟩ := h.free h2' hj h0
      rw [if_pos (Finset.mem_insert_self _ _), hlink, hcount]
    · rw [(hsame j hji).nlink, h.links j h2' hj fun h' => hnd ((hsame j hji).isDir.2 h')]
      simp only [Finset.mem_insert, hji, false_or]

/-- A blank entry is filled in; the inode named may have been lost before. -/
theorem bind (hl : Links g d k i m m') (hd : d < g.ninodes) (hblank : dirent m d k = none)
    (hentry : dirent m' d k = some (name, i)) (hlen : name.length ≤ 123) (hz : 0 ∉ name)
    (h2 : 2 ≤ i) (hi : i < g.ninodes) (hlost : ∀ j, j ≠ i → (j ∈ lost' ↔ j ∈ lost))
    (hlink : ¬ IsDir m' i → oiNlink m' (inodeAddr i) + (if i ∈ lost then 1 else 0) =
      oiNlink m (inodeAddr i) + 1 + if i ∈ lost' then 1 else 0) : Tallied g m' lost' := by
  refine ⟨hl.standing, fun j hj => ?_, fun d' k' name' i' hd' he => ?_, fun j h2' hj hnd => ?_⟩
  · rw [hl.ftypes j hj]
    exact h.kinds j hj
  · by_cases hne : (d', k') = (d, k)
    · cases hne
      rw [hentry] at he
      cases he
      exact ⟨hlen, hz, h2, hi⟩
    · exact h.names d' k' name' i' hd' ((hl.others d' k' hd' hne).symm.trans he)
  · have hk : k < 8 * g.nblocks := by
      obtain ⟨hdir, hlt, -⟩ := dirent_lt hentry
      have := hl.standing.entries_le hd hdir
      omega
    have hcount := linkCount_change hd hk hl.others j
    have hold : ¬ NamesIno m j d k := by
      unfold NamesIno
      rw [hblank]
      nofun
    have hnow : NamesIno m' j d k ↔ i = j := by
      unfold NamesIno
      rw [hentry]
      simp
    have hlinks := h.links j h2' hj fun h' => hnd ((hl.isDir hj).2 h')
    rw [if_neg hold] at hcount
    simp only [hnow] at hcount
    by_cases hji : j = i
    · subst hji
      have := hlink hnd
      rw [if_pos rfl] at hcount
      omega
    · rw [hl.nlinks j hj hji]
      rw [if_neg (Ne.symm hji)] at hcount
      simp only [hlost j hji]
      omega

theorem unbind (hl : Links g d k i m m') (hd : d < g.ninodes)
    (hentry : dirent m d k = some (name, i)) (hclear : dirent m' d k = none)
    (hlink : oiNlink m' (inodeAddr i) + 1 = oiNlink m (inodeAddr i)) : Tallied g m' lost := by
  refine ⟨hl.standing, fun j hj => ?_, fun d' k' name' i' hd' he => ?_, fun j h2' hj hnd => ?_⟩
  · rw [hl.ftypes j hj]
    exact h.kinds j hj
  · by_cases hne : (d', k') = (d, k)
    · cases hne
      rw [hclear] at he
      cases he
    · exact h.names d' k' name' i' hd' ((hl.others d' k' hd' hne).symm.trans he)
  · have hk := Finset.mem_range.1 (Finset.mem_product.1 (h.position hd hentry)).2
    have hcount := linkCount_change hd hk hl.others j
    have hnow : ¬ NamesIno m' j d k := by
      unfold NamesIno
      rw [hclear]
      nofun
    have hold : NamesIno m j d k ↔ i = j := by
      unfold NamesIno
      rw [hentry]
      simp
    have hlinks := h.links j h2' hj fun h' => hnd ((hl.isDir hj).2 h')
    rw [if_neg hnow] at hcount
    simp only [hold] at hcount
    by_cases hji : j = i
    · subst hji
      rw [if_pos rfl] at hcount
      omega
    · rw [hl.nlinks j hj hji]
      rw [if_neg (Ne.symm hji)] at hcount
      omega

/-! ## The scan loops -/

theorem matches_iff (hd : d < g.ninodes) (hdir : IsDir m d) (hk : k < entries m d)
    (hz : 0 ∉ name) : findMatches m name (entryAddr m d k) = true ↔
      dirent m d k = some (name, odIno m (entryAddr m d k)) := by
  rw [dirent_of_isDir hdir hk]
  by_cases h0 : odIno m (entryAddr m d k) = 0
  · refine iff_of_false (fun hm => ?_) ?_
    · unfold findMatches at hm
      rw [h0] at hm
      cases hm
    · rw [if_neg (not_not.2 h0)]
      nofun
  have hent := (dirent_of_isDir hdir hk).trans (if_pos h0)
  rw [findMatches_iff (h.names d k _ _ hd hent).1 hz, if_pos h0, Option.some.injEq,
    Prod.mk.injEq, and_iff_right h0, and_iff_left rfl]

/-- The first entry with the name, if there is one. -/
theorem scan_first (hd : d < g.ninodes) (hdir : IsDir m d) (hz : 0 ∉ name) :
    (scan m (inodeAddr d) (findMatches m name) (direntries m (inodeAddr d)) 0 = none ∧
      ∀ k i, dirent m d k ≠ some (name, i)) ∨
    ∃ k i, scan m (inodeAddr d) (findMatches m name) (direntries m (inodeAddr d)) 0 =
        some (entryAddr m d k) ∧ k < entries m d ∧ odIno m (entryAddr m d k) = i ∧
      dirent m d k = some (name, i) := by
  rcases h.standing.tidy.scan (h.standing.dirOk hd hdir) (findMatches m name) with
    ⟨hscan, hall⟩ | ⟨k, hk, ht, -, hscan⟩
  · refine .inl ⟨hscan, fun k i hent => ?_⟩
    obtain ⟨-, hk, -, hv⟩ := dirent_lt hent
    have hmatch := (h.matches_iff hd hdir hk hz).2 (hent.trans (by rw [(Prod.mk.inj hv).2]))
    rw [hall k hk] at hmatch
    cases hmatch
  · exact .inr ⟨k, _, hscan, hk, rfl, (h.matches_iff hd hdir hk hz).1 ht⟩

/-- **Lookup** finds the first entry with the name. -/
theorem dirLookup_first (hd : d < g.ninodes) (hdir : IsDir m d) (hz : 0 ∉ name) :
    ospfsDirLookup m d name true = some (if name.length > 123 then .error .eNameTooLong else
      .ok ((scan m (inodeAddr d) (findMatches m name) (direntries m (inodeAddr d)) 0).map
        (odIno m))) := by
  unfold ospfsDirLookup
  rw [h.standing.tidy.ospfsInode hd, Option.bind_eq_bind, Option.bind_some]
  split
  · rfl
  have htest : lookupMatches m name = findMatches m name := funext (lookupMatches_eq m name)
  rw [htest]
  rcases h.scan_first hd hdir hz with ⟨hscan, -⟩ | ⟨k, i, hscan, -, hino, hent⟩
  · rw [hscan]
    rfl
  · rw [hscan]
    have hi := (h.names d k name i hd hent).2.2.2
    simp only [hino, mkLinuxInode (h.standing.tidy.ospfsInode hi) (h.kinds i hi)]
    exact congrArg (fun j => some (Except.ok (some j))) hino.symm

theorem looked_up (hd : d < g.ninodes) (hdir : IsDir m d) (hz : 0 ∉ name)
    (hl : ospfsDirLookup m d name true = some (.ok (some i))) : ∃ k, k < entries m d ∧
      scan m (inodeAddr d) (lookupMatches m name) (direntries m (inodeAddr d)) 0 =
        some (entryAddr m d k) ∧ dirent m d k = some (name, i) := by
  rw [h.dirLookup_first hd hdir hz, Option.some.injEq] at hl
  rw [funext (lookupMatches_eq m name)]
  split at hl
  · cases hl
  rcases h.scan_first hd hdir hz with ⟨hscan, -⟩ | ⟨k, j, hscan, hk, hj, hent⟩
  · rw [hscan] at hl
    cases hl
  · rw [hscan] at hl
    obtain rfl : j = i := hj.symm.trans (Option.some.inj (Except.ok.inj hl))
    exact ⟨k, hk, hscan, hent⟩

/-! ## The calls -/

/-- `ospfs_link` enters a name and counts it. -/
theorem linked (hd : d < g.ninodes) (h2 : 2 ≤ i) (hi : i < g.ninodes) (hnd : ¬ IsDir m i)
    (hne : i ≠ d) (hlen : name.length ≤ 123) (hz : 0 ∉ name)
    (he : NameEnters g d name i m true w) : ∃ m₁ k, Standing g m₁ ∧ SameNames g m m₁ ∧
      dirent m d k = none ∧
      Links g d k i m₁ (w.set32 (inodeAddr i + 8) (oiNlink w (inodeAddr i) + 1)) ∧
      dirent (w.set32 (inodeAddr i + 8) (oiNlink w (inodeAddr i) + 1)) d k = some (name, i) ∧
      oiNlink (w.set32 (inodeAddr i + 8) (oiNlink w (inodeAddr i) + 1)) (inodeAddr i) =
        oiNlink m₁ (inodeAddr i) + 1 := by
  cases he with
  | @entered m₁ k _ ht hs hk hblank =>
    have h₁ := h.congr ht.standing hs
    have hnd₁ : ¬ IsDir m₁ i := fun h' => hnd ((ht.others i hi hne).isDir.1 h')
    obtain ⟨-, hwrites, ht₂, hentry⟩ := ht.fill hd hk hlen hz h2 hi
    generalize writeDirentry m₁ (entryAddr m₁ d k) i name = m₂ at hwrites ht₂ hentry ⊢
    have hlt := h₁.nlink_lt h2 hi hnd₁
    have hnlink : oiNlink m₂ (inodeAddr i) = oiNlink m₁ (inodeAddr i) := hwrites.nlinks i hi
    obtain ⟨hl, hkept⟩ := links_of_writes hd hwrites ht₂ hi hnd₁ hne
      (oiNlink m₂ (inodeAddr i) + 1)
    have hset : oiNlink (m₂.set32 (inodeAddr i + 8) (oiNlink m₂ (inodeAddr i) + 1))
        (inodeAddr i) = oiNlink m₂ (inodeAddr i) + 1 := Mem.get32_set32_of_lt (by omega)
    exact ⟨m₁, k, ht.standing, hs, hblank, hl, hkept.trans hentry, hset.trans (by rw [hnlink])⟩

/-- `ospfs_unlink` clears the entry, counts it off, and may then cut the file. -/
theorem unlinked (hd : d < g.ninodes) (hdir : IsDir m d) (hk : k < entries m d)
    (hnd : ¬ IsDir m i) (hent : dirent m d k = some (name, i)) (hu : Unlinks g d k i m m') :
    ∃ m₂, Links g d k i m m₂ ∧ dirent m₂ d k = none ∧
      oiNlink m₂ (inodeAddr i) + 1 = oiNlink m (inodeAddr i) ∧ Standing g m' ∧
      SameNames g m₂ m' := by
  obtain ⟨h2, hi, hpos⟩ := h.named hd hent
  have hne : i ≠ d := by
    rintro rfl
    exact hnd hdir
  obtain ⟨hwrites, ht₁, hclear⟩ := h.standing.clearEntry hd hdir hk
  have hlinks := h.links i h2 hi hnd
  have hlt : oiNlink m (inodeAddr i) < 2 ^ 32 := Mem.get32_lt
  obtain ⟨w, hw⟩ : ∃ w, w = m.set32 (entryAddr m d k) 0 := ⟨_, rfl⟩
  rw [← hw] at hwrites ht₁ hclear
  have hnlink : oiNlink w (inodeAddr i) = oiNlink m (inodeAddr i) := hwrites.nlinks i hi
  obtain ⟨hl, hkept⟩ := links_of_writes hd hwrites ht₁ hi hnd hne
    (oiNlink w (inodeAddr i) + (2 ^ 32 - 1))
  have hset : oiNlink (w.set32 (inodeAddr i + 8) (oiNlink w (inodeAddr i) + (2 ^ 32 - 1)))
      (inodeAddr i) = (oiNlink w (inodeAddr i) + (2 ^ 32 - 1)) % 2 ^ 32 := Mem.get32_set32
  have hoff : oiNlink (w.set32 (inodeAddr i + 8) (oiNlink w (inodeAddr i) + (2 ^ 32 - 1)))
      (inodeAddr i) + 1 = oiNlink m (inodeAddr i) := by
    rw [hset, hnlink]
    omega
  cases hu with
  | kept hw' =>
    rw [← hw] at hw'
    subst hw'
    exact ⟨_, hl, hkept.trans hclear, hoff, hl.standing, .refl⟩
  | last hw' _ hfile hcut =>
    rw [← hw] at hw'
    subst hw'
    have hnd₂ := fun h' => hnd ((hl.isDir hi).1 h')
    obtain ⟨r', m₃, hcut', hst, hs⟩ :=
      hl.standing.truncates hi hnd₂ ((hl.ftypes i hi).trans_ne hfile)
    rw [hcut] at hcut'
    cases hcut'
    exact ⟨_, hl, hkept.trans hclear, hoff, hst, hs⟩

theorem link (hd : d < g.ninodes) (hdir : IsDir m d) (hz : 0 ∉ name) (h2 : 2 ≤ i)
    (hi : i < g.ninodes) (hnd : ¬ IsDir m i) (hl : LinksTo g d name i m r m') :
    Tallied g m' lost := by
  have hne : i ≠ d := by
    rintro rfl
    exact hnd hdir
  cases hl with
  | tooLong _ => exact h
  | taken _ => exact h
  | full _ he =>
    cases he with
    | full _ ht hs => exact h.congr ht.standing hs
  | entered hlen _ he =>
    obtain ⟨m₁, k, hst, hs, hblank, hl, hent, hcount⟩ := h.linked hd h2 hi hnd hne hlen hz he
    refine (h.congr hst hs).bind hl hd ((hs.dirents d k hd).trans hblank) hent hlen hz h2 hi
      (fun _ _ => Iff.rfl) fun _ => ?_
    rw [hcount]

theorem unlink (hd : d < g.ninodes) (hdir : IsDir m d) (hk : k < entries m d)
    (hnd : ¬ IsDir m i) (hent : dirent m d k = some (name, i)) (hu : Unlinks g d k i m m') :
    Tallied g m' lost := by
  obtain ⟨m₂, hl, hclear, hcount, hst, hs⟩ := h.unlinked hd hdir hk hnd hent hu
  exact (h.unbind hl hd hent hclear hcount).congr hst hs

omit h in
/-- The inode that was set up is entered, or stays lost. -/
theorem enters {b : Bool} (hw : Tallied g w (insert ino lost)) (hno : ino ∉ lost) (h2 : 2 ≤ ino)
    (hlt : ino < g.ninodes) (hd : d < g.ninodes) (hlen : name.length ≤ 123) (hz : 0 ∉ name)
    (he : NameEnters g d name ino w b m') :
    Tallied g m' (if b then lost else insert ino lost) := by
  cases he with
  | full _ ht hs => exact hw.congr ht.standing hs
  | @entered m₁ k _ ht hs hk hblank =>
    obtain ⟨hl, hwrites, -, hentry⟩ := ht.fill hd hk hlen hz h2 hlt
    refine (hw.congr ht.standing hs).bind hl hd ((hs.dirents d k hd).trans hblank) hentry hlen hz
      h2 hlt (fun j hj => (Finset.mem_insert.trans (or_iff_right hj)).symm) fun _ => ?_
    rw [hwrites.nlinks ino hlt, if_pos (Finset.mem_insert_self _ _)]
    exact (if_neg hno).symm ▸ rfl

/-- An inode is lost only where `create_blank_direntry` fails. -/
theorem creates (hd : d < g.ninodes) (hlen : name.length ≤ 123) (hz : 0 ∉ name) {init : Nat → Mem}
    (hinit : ∀ ino, FreeInode g m ino → Prepared g ino m (init ino))
    (hr : Creates g d name init m r m') : Tallied g m' lost ∨ ∃ ino m₁, FreeInode g m ino ∧
      Tallied g m' (insert ino lost) ∧
      createBlankDirentry (init ino) (inodeAddr d) = some (.error .eNoSpc, m₁) := by
  have henter {ino : Nat} {b : Bool} (hfree : FreeInode g m ino)
      (he : NameEnters g d name ino (init ino) b m') :
      Tallied g m' (if b then lost else insert ino lost) := by
    obtain ⟨hw, -⟩ := h.setUp hfree.nlink hfree.two_le (hinit ino hfree)
    exact enters hw (h.free hfree.two_le hfree.lt hfree.nlink).1 hfree.two_le hfree.lt hd hlen hz he
  cases hr with
  | taken _ => exact .inl h
  | exhausted _ _ => exact .inl h
  | @full ino _ _ _ hfree he =>
    have hc := henter hfree he
    cases he with
    | full hrun _ _ => exact .inr ⟨ino, _, hfree, hc, hrun⟩
  | entered _ _ hfree he _ => exact .inl (henter hfree he)

end Tallied

end OsLabs.Ospfs
