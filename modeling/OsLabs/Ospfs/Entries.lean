import OsLabs.Ospfs.Dir
import OsLabs.Ospfs.Resize
import Mathlib.Data.List.TakeWhile

/-!
# OSPFS: directory entries

`dirent m d k` is entry `k` of directory `d` as name and inode number. The scan
loops visit the entries in order (`Tidy.scan`), a name matches an entry iff it is
the entry's name, and a write to one entry changes no other.
-/

namespace OsLabs.Ospfs

def IsDir (m : Mem) (d : Nat) : Prop := oiFtype m (inodeAddr d) = ftypeDir

instance (m : Mem) (d : Nat) : Decidable (IsDir m d) := inferInstanceAs (Decidable (_ = _))

def entryAddr (m : Mem) (d k : Nat) : Nat :=
  1024 * ptr m (inodeAddr d) (.leaf (k / 8)) + 128 * (k % 8)

def odName (m : Mem) (od : Nat) : Bytes := (m.load (od + 4) 124).takeWhile (· != 0)

/-- The number of entries of a directory, blank ones included. -/
def entries (m : Mem) (d : Nat) : Nat := oiSize m (inodeAddr d) / 128

/-- Entry `k` of directory `d`; `none` when it is blank. -/
def dirent (m : Mem) (d k : Nat) : Option (Bytes × Nat) :=
  if IsDir m d ∧ k < entries m d ∧ odIno m (entryAddr m d k) ≠ 0 then
    some (odName m (entryAddr m d k), odIno m (entryAddr m d k))
  else none

/-- A directory among the inodes of `S`. -/
structure DirOk (S : Nat → Prop) (m : Mem) (d : Nat) : Prop where
  mem : S d
  dir : IsDir m d
  whole : oiSize m (inodeAddr d) % 1024 = 0

variable {g : Geometry} {S : Nat → Prop} {m m' : Mem} {d k : Nat}

theorem DirOk.blocks (h : DirOk S m d) : fileBlocks m d = oiSize m (inodeAddr d) / 1024 := by
  have := oiSize_lt m (inodeAddr d)
  have := h.whole
  unfold fileBlocks ospfsSize2nblocks
  omega

theorem DirOk.entries (h : DirOk S m d) : entries m d = 8 * fileBlocks m d := by
  have := h.whole
  rw [h.blocks]
  unfold Ospfs.entries
  omega

theorem DirOk.entry_lt (h : DirOk S m d) (hk : k < Ospfs.entries m d) : k / 8 < fileBlocks m d := by
  rw [h.entries] at hk
  omega

/-! ## Frames -/

theorem odIno_congr {od od' : Nat} (h : ∀ x, x < 128 → m' (od' + x) = m (od + x)) :
    odIno m' od' = odIno m od := by
  unfold odIno Mem.get32
  have h0 := h 0 (by omega)
  rw [Nat.add_zero, Nat.add_zero] at h0
  rw [h0, h 1 (by omega), h 2 (by omega), h 3 (by omega)]

theorem odName_congr {od od' : Nat} (h : ∀ x, x < 128 → m' (od' + x) = m (od + x)) :
    odName m' od' = odName m od := by
  unfold odName Mem.load
  congr 1
  apply List.map_congr_left
  intro i hi
  have := List.mem_range.1 hi
  rw [Nat.add_assoc, Nat.add_assoc]
  exact h _ (by omega)

theorem dirent_congr (hty : oiFtype m' (inodeAddr d) = oiFtype m (inodeAddr d))
    (hsz : oiSize m' (inodeAddr d) = oiSize m (inodeAddr d))
    (h : k < entries m d → IsDir m d → ∀ x, x < 128 →
      m' (entryAddr m' d k + x) = m (entryAddr m d k + x)) :
    dirent m' d k = dirent m d k := by
  have hdir : IsDir m' d ↔ IsDir m d := by
    unfold IsDir
    rw [hty]
  have hent : entries m' d = entries m d := by
    unfold entries
    rw [hsz]
  unfold dirent
  rw [hent]
  by_cases hk : k < entries m d
  · by_cases hd : IsDir m d
    · rw [odIno_congr (h hk hd), odName_congr (h hk hd)]
      simp only [hdir]
    · simp only [hdir, hd, false_and, if_false]
  · simp only [hk, false_and, and_false, if_false]

theorem entry_byte (m : Mem) (d k : Nat) {x : Nat} (hx : x < 128) :
    m (entryAddr m d k + x) = fileByte m d (128 * k + x) := by
  unfold entryAddr fileByte
  rw [show (128 * k + x) / 1024 = k / 8 by omega,
    show (128 * k + x) % 1024 = 128 * (k % 8) + x by omega, Nat.add_assoc]

theorem Frame.entry {ino n : Nat} (hf : Frame g S ino n m m') (h : Tidy g S m) (hd : S d)
    (hk : k / 8 < Ospfs.fileBlocks m d) (hn : d = ino → k / 8 < n) {x : Nat} (hx : x < 128) :
    m' (entryAddr m' d k + x) = m (entryAddr m d k + x) := by
  have hb : (128 * k + x) / 1024 = k / 8 := by omega
  rw [entry_byte m' d k hx, entry_byte m d k hx]
  refine hf.fileByte hd (fun hdi => ?_) (h.mapped d hd _ ?_)
  · rw [hb]
    exact hn hdi
  · rw [hb]
    exact hk

theorem Frame.dirent {ino n : Nat} (hf : Frame g S ino n m m') (h : Tidy g S m)
    (hd : IsDir m d → DirOk S m d) (hlt : d < g.ninodes) (hne : d ≠ ino) :
    dirent m' d k = dirent m d k :=
  dirent_congr (hf.oiFtype hlt) (hf.oiSize hlt hne) fun hk hdir _ hx =>
    hf.entry h (hd hdir).mem ((hd hdir).entry_lt hk) (fun he => absurd he hne) hx

theorem Frame.isDir {ino n : Nat} (hf : Frame g S ino n m m') (hlt : d < g.ninodes) :
    IsDir m' d ↔ IsDir m d := by
  unfold IsDir
  rw [hf.oiFtype hlt]

theorem Move.dirent {ino : Nat} (hm : Move g S ino (Ospfs.fileBlocks m ino) m m') (h : Tidy g S m)
    (hd : IsDir m d → DirOk S m d) (hlt : d < g.ninodes) : dirent m' d k = dirent m d k := by
  by_cases hne : d = ino
  · subst hne
    exact dirent_congr (hm.frame.oiFtype hlt) hm.size fun hk hdir _ hx =>
      hm.frame.entry h (hd hdir).mem ((hd hdir).entry_lt hk) (fun _ => (hd hdir).entry_lt hk) hx
  · exact hm.frame.dirent h hd hlt hne

/-- A directory grown by blocks of zeros has the entries it had. -/
theorem dirent_grow {ino n : Nat} (hf : Frame g S ino n m m') (h : Tidy g S m) (hd : DirOk S m ino)
    (hn : fileBlocks m ino ≤ n) (hsz : oiSize m (inodeAddr ino) ≤ oiSize m' (inodeAddr ino))
    (hzero : ∀ x, fileBlocks m ino ≤ x / 1024 → x / 1024 < oiSize m' (inodeAddr ino) / 1024 →
      fileByte m' ino x = 0) (hwh : oiSize m' (inodeAddr ino) % 1024 = 0) :
    dirent m' ino k = dirent m ino k := by
  have hdir := hf.isDir (h.laid.bound _ hd.mem)
  have hblocks := hd.blocks
  have hwhole := hd.whole
  unfold Ospfs.dirent
  by_cases hk : k < entries m ino
  · have hk8 := hd.entry_lt hk
    have hk' : k < entries m' ino := by
      unfold entries at *
      omega
    have hent : ∀ x, x < 128 → m' (entryAddr m' ino k + x) = m (entryAddr m ino k + x) :=
      fun x hx => hf.entry h hd.mem hk8 (fun _ => by omega) hx
    rw [odIno_congr hent, odName_congr hent]
    simp only [hk, hk', hdir, true_and]
  · have hno : ¬ (IsDir m ino ∧ k < entries m ino ∧ odIno m (entryAddr m ino k) ≠ 0) :=
      fun h => hk h.2.1
    rw [if_neg hno, if_neg]
    rintro ⟨-, hk', hne⟩
    refine hne ?_
    refine Mem.get32_of_zero fun x hx => ?_
    rw [entry_byte m' ino k (by omega)]
    unfold entries at hk hk'
    exact hzero _ (by omega) (by omega)

/-! ## Writing file blocks -/

theorem Tidy.data_write (h : Tidy g S m) {j b : Nat} (hj : own m S (j, .leaf b) ≠ 0)
    (hw : ∀ x, x < 1024 * own m S (j, .leaf b) ∨ 1024 * own m S (j, .leaf b) + 1024 ≤ x →
      m' x = m x) :
    Tidy g S m' ∧ own m' S = own m S ∧ ∀ x, x < 1024 * g.firstdata → m' x = m x := by
  have hd := (h.laid.isData hj).1
  have hown := h.laid.own_of_data hd (fun i hi => h.laid.leaf_not_table hj hi) hw
  have hlow : ∀ x, x < 1024 * g.firstdata → m' x = m x := fun x hx => hw x (by omega)
  have hfd := g.firstdata_ge
  have hfr : Frame g S j b m m' := by
    have hlt : inodeAddr j + 64 ≤ _ := inodeAddr_lt (h.laid.bound _ (mem_of_own hj))
    refine ⟨fun x hx => hlow x (by omega), fun x _ hx => hlow x (by omega),
      fun i hi _ x _ hx => hlow x ?_, fun _ _ _ => by rw [hown], fun _ _ => by rw [hown],
      fun i c hic h0 x hx hx' => hw x ?_⟩
    · have := inodeAddr_lt hi
      omega
    · have hne : own m S (i, .leaf c) ≠ own m S (j, .leaf b) := by
        intro heq
        have hij := h.laid.owns.inj _ _ h0 heq
        simp only [Prod.mk.injEq, Place.leaf.injEq] at hij
        have := hic hij.1
        omega
      omega
  have hfree (c : Nat) (hc : c < 8192) : isFree m' c = isFree m c :=
    isFree_congr (fun x _ hx => hlow x (by omega)) hc
  refine ⟨h.of_frame hfr (fun c hc => ?_) ?_ (fun c hc hs => ?_), hown, hlow⟩
  · have := g.firstdata_le
    have := g.small
    rw [hfree c (by omega)]
    exact h.low c hc
  · rw [hown]
    refine h.laid.owns.mono fun c hc => ⟨hc.1, ?_⟩
    rw [hfree c (h.nblocks_lt hc.1)]
    exact hc.2
  · have hlt := inodeAddr_lt (h.laid.bound _ hs)
    unfold fileBlocks oiSize at hc
    rw [Mem.get32_congr fun x _ hx => hlow x (by omega)] at hc
    rw [hown]
    exact h.mapped_own hs hc

theorem Tidy.entry_sep (h : Tidy g S m) {d' k' : Nat} (hd : S d) (hd' : S d')
    (hk : k / 8 < fileBlocks m d) (hne : (d, k) ≠ (d', k')) :
    entryAddr m d k + 128 ≤ entryAddr m d' k' ∨ entryAddr m d' k' + 128 ≤ entryAddr m d k := by
  unfold entryAddr
  by_cases heq : ptr m (inodeAddr d) (.leaf (k / 8)) = ptr m (inodeAddr d') (.leaf (k' / 8))
  · have h0 := h.mapped_own hd hk
    have hij := h.laid.owns.inj (d, .leaf (k / 8)) (d', .leaf (k' / 8)) h0
      (by rw [own_of_mem hd, own_of_mem hd', heq])
    simp only [Prod.mk.injEq, Place.leaf.injEq] at hij
    have : k % 8 ≠ k' % 8 := by
      intro hmod
      exact hne (by rw [hij.1, show k = k' by omega])
    omega
  · omega

theorem Tidy.entry_write (h : Tidy g S m) (hd : DirOk S m d) (hk : k < entries m d)
    (hw : ∀ x, x < entryAddr m d k ∨ entryAddr m d k + 128 ≤ x → m' x = m x) :
    Tidy g S m' ∧ own m' S = own m S ∧ (∀ x, x < 1024 * g.firstdata → m' x = m x) ∧
      entryAddr m' d k = entryAddr m d k ∧
      ∀ d' k', d' < g.ninodes → (IsDir m d' → DirOk S m d') → (d', k') ≠ (d, k) →
        dirent m' d' k' = dirent m d' k' := by
  have hk8 := hd.entry_lt hk
  have h0 := h.mapped_own hd.mem hk8
  have hptr := own_of_mem (m := m) hd.mem (.leaf (k / 8))
  obtain ⟨ht, hown, hlow⟩ := h.data_write h0 fun x hx => hw x (by
    unfold entryAddr
    omega)
  have haddr (d' k' : Nat) (hd' : S d') : entryAddr m' d' k' = entryAddr m d' k' := by
    unfold entryAddr
    rw [ptr_of_own hown hd']
  refine ⟨ht, hown, hlow, haddr d k hd.mem, fun d' k' hlt hd' hne => ?_⟩
  have hin := inodeAddr_lt hlt
  refine dirent_congr (Mem.get32_congr fun x _ hx => hlow x (by omega))
    (Mem.get32_congr fun x _ hx => hlow x (by omega)) fun hk' hdir x hx => ?_
  have hok := hd' hdir
  have hsep := h.entry_sep hok.mem hd.mem (hok.entry_lt hk') hne
  rw [haddr d' k' hok.mem]
  exact hw _ (by omega)

/-! ## Names -/

/-- The name in an entry ends within it. -/
def Terminated (m : Mem) (od : Nat) : Prop := (odName m od).length ≤ 123

theorem Terminated.spec {od : Nat} (h : Terminated m od) :
    m (od + 4 + (odName m od).length) = 0 ∧
      ∀ i (hi : i < (odName m od).length), m (od + 4 + i) = (odName m od)[i] ∧ m (od + 4 + i) ≠ 0 := by
  have happ : odName m od ++ (m.load (od + 4) 124).dropWhile (· != 0) = m.load (od + 4) 124 :=
    List.takeWhile_append_dropWhile
  have hlen := congrArg List.length happ
  rw [List.length_append, Mem.length_load] at hlen
  have hget (i : Nat)
      (hi : i < (odName m od ++ (m.load (od + 4) 124).dropWhile (· != 0)).length) :
      (odName m od ++ (m.load (od + 4) 124).dropWhile (· != 0))[i] = m (od + 4 + i) := by
    simp only [happ]
    exact Mem.getElem_load _
  constructor
  · have hne : (m.load (od + 4) 124).dropWhile (· != 0) ≠ [] := by
      intro hnil
      rw [hnil] at hlen
      unfold Terminated at h
      simp only [List.length_nil] at hlen
      omega
    have hhead := List.head_dropWhile_not (· != 0) (l := m.load (od + 4) 124) hne
    have hpos := List.length_pos_of_ne_nil hne
    rw [← hget _ (by rw [List.length_append]; omega), List.getElem_append_right (Nat.le_refl _)]
    simpa [← List.head_eq_getElem_zero hne] using hhead
  · intro i hi
    have hg := hget i (by rw [List.length_append]; omega)
    rw [List.getElem_append_left hi] at hg
    have hmem : (odName m od)[i] ∈ odName m od := List.getElem_mem hi
    have hp := List.mem_takeWhile_imp hmem
    rw [← hg]
    simpa using hp

theorem odName_eq {od : Nat} {name : Bytes} (hz : 0 ∉ name) (hlen : name.length ≤ 123)
    (hb : ∀ i (hi : i < name.length), m (od + 4 + i) = name[i])
    (h0 : m (od + 4 + name.length) = 0) : odName m od = name := by
  have hload : m.load (od + 4) 124 =
      name ++ 0 :: m.load (od + 4 + name.length + 1) (123 - name.length) := by
    apply List.ext_getElem
    · simp only [Mem.length_load, List.length_append, List.length_cons]
      omega
    · intro i h1 h2
      rw [Mem.getElem_load]
      rcases Nat.lt_trichotomy i name.length with hi | rfl | hi
      · rw [List.getElem_append_left hi]
        exact hb i hi
      · rw [List.getElem_append_right (Nat.le_refl _)]
        simpa using h0
      · rw [List.getElem_append_right (Nat.le_of_lt hi)]
        obtain ⟨j, rfl⟩ : ∃ j, i = name.length + 1 + j := ⟨i - (name.length + 1), by omega⟩
        simp only [show name.length + 1 + j - name.length = j + 1 by omega,
          List.getElem_cons_succ, Mem.getElem_load]
        congr 1
        omega
  unfold odName
  rw [hload, List.takeWhile_append_of_pos fun c hc => ?_]
  · simp
  · have hne : c ≠ 0 := fun h => hz (h ▸ hc)
    simpa using hne

/-- A name matches an entry iff it is the entry's name. -/
theorem findMatches_iff {od : Nat} {name : Bytes} (h : Terminated m od) (hz : 0 ∉ name) :
    findMatches m name od = true ↔ odIno m od ≠ 0 ∧ odName m od = name := by
  obtain ⟨h0, hb⟩ := h.spec
  unfold findMatches strlenIs memcmpIs
  simp only [Bool.and_eq_true, bne_iff_ne, ne_eq, beq_iff_eq, List.all_eq_true, List.mem_range]
  constructor
  · rintro ⟨⟨hino, hall, hend⟩, hload⟩
    refine ⟨hino, odName_eq hz ?_ (fun i hi => ?_) hend⟩
    · by_contra hlt
      unfold Terminated at h
      exact hall _ (by omega) h0
    · have hi' : i < (m.load (od + 4) name.length).length := by simpa using hi
      rw [← Mem.getElem_load hi']
      simp only [hload]
  · rintro ⟨hino, rfl⟩
    refine ⟨⟨hino, fun i hi => (hb i hi).2, h0⟩, ?_⟩
    apply List.ext_getElem
    · simp
    · intro i h1 h2
      rw [Mem.getElem_load]
      exact (hb i h2).1

theorem lookupMatches_eq (m : Mem) (name : Bytes) (od : Nat) :
    lookupMatches m name od = findMatches m name od := by
  unfold lookupMatches findMatches
  congr 2
  by_cases h : odIno m od = 0
  · simp [h]
  · simp [h, Nat.pos_of_ne_zero h]

/-! ## Filling in an entry -/

theorem writeDirentry_of_ne {od ino x : Nat} {name : Bytes} (hlen : name.length ≤ 123)
    (hx : x < od ∨ od + 128 ≤ x) : writeDirentry m od ino name x = m x := by
  unfold writeDirentry
  rw [Mem.store_of_ne (by simp only [List.length_singleton]; omega), Mem.store_of_ne (by omega),
    Mem.set32_of_ne (by omega)]

/-! ## The scan loops -/

theorem Tidy.ospfsInodeData (h : Tidy g S m) {ino off : Nat} (hs : S ino)
    (hty : oiFtype m (inodeAddr ino) ≠ ftypeSymlink) (hoff : off < oiSize m (inodeAddr ino))
    (hlt : off / 1024 < fileBlocks m ino) :
    ospfsInodeData m (inodeAddr ino) off =
      1024 * ptr m (inodeAddr ino) (.leaf (off / 1024)) + off % 1024 := by
  have hsmall := h.fileBlocks_small hs
  have h0 := h.mapped_own hs hlt
  unfold Ospfs.ospfsInodeData
  rw [h.boot.ospfsInodeBlockno hoff hty (by unfold maxfileblks; omega), ← own_of_mem hs,
    h.laid.block_own h0]

theorem Tidy.entry_data (h : Tidy g S m) (hd : DirOk S m d) (hk : k < entries m d) :
    Ospfs.ospfsInodeData m (inodeAddr d) (128 * k) = entryAddr m d k := by
  have hk8 := hd.entry_lt hk
  have hty : oiFtype m (inodeAddr d) ≠ ftypeSymlink := by
    rw [show oiFtype m (inodeAddr d) = ftypeDir from hd.dir]
    decide
  unfold entries at hk
  rw [h.ospfsInodeData hd.mem hty (by omega) (by omega)]
  unfold entryAddr
  rw [show 128 * k / 1024 = k / 8 by omega]
  omega

theorem DirOk.direntries (h : DirOk S m d) : direntries m (inodeAddr d) = Ospfs.entries m d := by
  have := h.whole
  unfold Ospfs.direntries Ospfs.entries
  omega

theorem Tidy.scan_from (h : Tidy g S m) (hd : DirOk S m d) (test : Nat → Bool) {n : Nat}
    (hn : k + n = entries m d) :
    (scan m (inodeAddr d) test n (128 * k) = none ∧
      ∀ j, k ≤ j → j < entries m d → test (entryAddr m d j) = false) ∨
    ∃ j, k ≤ j ∧ j < entries m d ∧ test (entryAddr m d j) = true ∧
      (∀ i, k ≤ i → i < j → test (entryAddr m d i) = false) ∧
      scan m (inodeAddr d) test n (128 * k) = some (entryAddr m d j) := by
  induction n generalizing k with
  | zero => exact .inl ⟨rfl, fun j _ _ => by omega⟩
  | succ n ih =>
    rw [scan, h.entry_data hd (by omega)]
    by_cases ht : test (entryAddr m d k) = true
    · exact .inr ⟨k, by omega, by omega, ht, fun i _ _ => by omega, if_pos ht⟩
    · simp only [ht, if_false, Bool.false_eq_true]
      have hf : test (entryAddr m d k) = false := by simpa using ht
      rcases ih (k := k + 1) (by omega) with ⟨hno, hall⟩ | ⟨j, h1, h2, h3, h4, h5⟩
      · refine .inl ⟨hno, fun j h1 h2 => ?_⟩
        rcases Nat.eq_or_lt_of_le h1 with rfl | h1
        · exact hf
        · exact hall j h1 h2
      · refine .inr ⟨j, by omega, h2, h3, fun i h1 h2 => ?_, h5⟩
        rcases Nat.eq_or_lt_of_le h1 with rfl | h1
        · exact hf
        · exact h4 i h1 h2

theorem Tidy.scan (h : Tidy g S m) (hd : DirOk S m d) (test : Nat → Bool) :
    (Ospfs.scan m (inodeAddr d) test (direntries m (inodeAddr d)) 0 = none ∧
      ∀ j, j < entries m d → test (entryAddr m d j) = false) ∨
    ∃ j, j < entries m d ∧ test (entryAddr m d j) = true ∧
      (∀ i, i < j → test (entryAddr m d i) = false) ∧
      Ospfs.scan m (inodeAddr d) test (direntries m (inodeAddr d)) 0 =
        some (entryAddr m d j) := by
  rw [hd.direntries]
  rcases h.scan_from hd test (k := 0) (Nat.zero_add _) with ⟨hno, hall⟩ | ⟨j, -, h2, h3, h4, h5⟩
  · exact .inl ⟨hno, fun j => hall j (Nat.zero_le _)⟩
  · exact .inr ⟨j, h2, h3, fun i => h4 i (Nat.zero_le _), h5⟩

end OsLabs.Ospfs
