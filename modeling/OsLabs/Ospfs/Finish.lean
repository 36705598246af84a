import OsLabs.Ospfs.Newinode

/-!
# OSPFS: the finished disk

`main` of the formatter from the empty disk file to the finished image: `opendisk` makes an
image under construction, with an empty root directory, and `finishfs` puts the bitmap and the
superblock on the disk, which changes nothing else: `formatted_of_writeSource`.
-/

namespace OsLabs.Ospfs

open BlockProg

variable {o : Options} {g : Geometry} {st st' : Globals} {m m' mf mf' : Mem} {d i nextb : Nat}

/-! ## Inodes of the disk -/

theorem Tidy.ospfsInode {S : Nat → Prop} (h : Tidy g S m) (hi : i < g.ninodes) :
    Ospfs.ospfsInode m i = some (inodeAddr i) := by
  unfold Ospfs.ospfsInode
  rw [h.super.ninodes, h.super.firstinob, if_neg (Nat.not_le.2 hi)]
  rfl

theorem Tidy.of_ospfsInode {S : Nat → Prop} (h : Tidy g S m) {oi : Nat}
    (hi : Ospfs.ospfsInode m i = some oi) : i < g.ninodes ∧ oi = inodeAddr i := by
  have hlt : i < g.ninodes := by
    by_contra hge
    unfold Ospfs.ospfsInode at hi
    rw [h.super.ninodes, if_pos (Nat.le_of_not_lt hge)] at hi
    cases hi
  rw [h.ospfsInode hlt] at hi
  exact ⟨hlt, (Option.some.inj hi).symm⟩

/-! ## Clearing bits -/

def clearAll (m : Mem) (l : List Nat) : Mem := l.foldl (fun m i => bitvectorClear m 2048 i) m

theorem clearAll_concat (m : Mem) (l : List Nat) (i : Nat) :
    clearAll m (l ++ [i]) = bitvectorClear (clearAll m l) 2048 i := by
  unfold clearAll
  rw [List.foldl_append]
  rfl

theorem clearAll_of_ne {l : List Nat} (hl : ∀ i ∈ l, i < 8192) {x : Nat}
    (hx : x < 2048 ∨ 3072 ≤ x) (m : Mem) : clearAll m l x = m x := by
  induction l generalizing m with
  | nil => rfl
  | cons i l ih =>
    refine (ih (fun j hj => hl j (List.mem_cons_of_mem _ hj)) _).trans ?_
    exact clear_of_ne (hl i List.mem_cons_self) hx

theorem isFree_clearAll (l : List Nat) (b : Nat) (m : Mem) :
    isFree (clearAll m l) b = (isFree m b && decide (b ∉ l)) := by
  induction l generalizing m with
  | nil => simp [clearAll]
  | cons i l ih =>
    refine (ih _).trans ?_
    rw [isFree_clear, Bool.and_assoc, ← Bool.decide_and]
    congr 1
    apply decide_eq_decide.2
    rw [List.mem_cons, not_or, ne_comm]

/-! ## What `finishfs` writes -/

/-- The blocks whose bits are cleared: those handed out, and those behind the disk. -/
def takenBlocks (g : Geometry) (nextb : Nat) : List Nat :=
  List.range nextb ++ (List.range (8192 - g.nblocks)).map (g.nblocks + ·)

def writeSuper (g : Geometry) (m : Mem) : Mem :=
  ((((m.fill 1024 1024 0).set32 1024 0x013101AE).set32 1028 g.nblocks).set32 1032 g.ninodes).set32
    1036 3

def finishedDisk (g : Geometry) (nextb : Nat) (m : Mem) : Mem :=
  writeSuper g (clearAll m (takenBlocks g nextb))

theorem writeSuper_of_ne {x : Nat} (hx : x < 1024 ∨ 2048 ≤ x) : writeSuper g m x = m x := by
  unfold writeSuper
  rw [Mem.set32_of_ne (by omega), Mem.set32_of_ne (by omega), Mem.set32_of_ne (by omega),
    Mem.set32_of_ne (by omega), Mem.fill_of_ne (by omega)]

theorem super_writeSuper (g : Geometry) (m : Mem) : Super g (writeSuper g m) := by
  have hsmall := g.small
  have hin := g.inodes
  unfold writeSuper
  refine ⟨?_, ?_, ?_⟩
  · unfold osNblocks
    rw [Mem.get32_set32_ne (by omega), Mem.get32_set32_ne (by omega),
      Mem.get32_set32_of_lt (by omega)]
  · unfold osNinodes
    rw [Mem.get32_set32_ne (by omega), Mem.get32_set32_of_lt (by omega)]
  · unfold osFirstinob
    rw [Mem.get32_set32_of_lt (by omega)]

theorem takenBlocks_lt (h : nextb ≤ g.nblocks) : ∀ i ∈ takenBlocks g nextb, i < 8192 := by
  have hsmall := g.small
  intro i hi
  unfold takenBlocks at hi
  rcases List.mem_append.1 hi with hi | hi
  · have := List.mem_range.1 hi
    omega
  · obtain ⟨j, hj, rfl⟩ := List.mem_map.1 hi
    have := List.mem_range.1 hj
    omega

theorem mem_takenBlocks {b : Nat} (hb : b < 8192) :
    b ∈ takenBlocks g nextb ↔ b < nextb ∨ g.nblocks ≤ b := by
  unfold takenBlocks
  rw [List.mem_append, List.mem_range, List.mem_map]
  constructor
  · rintro (h | ⟨j, -, rfl⟩)
    · exact .inl h
    · exact .inr (Nat.le_add_right _ _)
  · rintro (h | h)
    · exact .inl h
    · exact .inr ⟨b - g.nblocks, List.mem_range.2 (by omega), by omega⟩

theorem finishedDisk_of_ne (h : nextb ≤ g.nblocks) {x : Nat} (hx : x < 1024 ∨ 3072 ≤ x) :
    finishedDisk g nextb m x = m x := by
  unfold finishedDisk
  rw [writeSuper_of_ne (by omega), clearAll_of_ne (takenBlocks_lt h) (by omega)]

theorem super_finishedDisk (g : Geometry) (nextb : Nat) (m : Mem) :
    Super g (finishedDisk g nextb m) :=
  super_writeSuper g _

theorem isFree_of_ones (hones : ∀ x, 2048 ≤ x → x < 3072 → m x = 0xFF) {b : Nat}
    (hb : b < 8192) : isFree m b = true := by
  have hword : m.get32 (2048 + 4 * (b / 32)) = 2 ^ 32 - 1 := by
    unfold Mem.get32
    rw [hones _ (by omega) (by omega), hones _ (by omega) (by omega), hones _ (by omega) (by omega),
      hones _ (by omega) (by omega)]
    rfl
  rw [isFree_eq, hword, Nat.testBit_two_pow_sub_one]
  exact decide_eq_true (Nat.mod_lt _ (by decide))

theorem Shadow.of_ones (hones : ∀ x, 2048 ≤ x → x < 3072 → m x = 0xFF) (hle : nextb ≤ g.nblocks)
    (hge : g.firstdata ≤ nextb) : Shadow g nextb m (finishedDisk g nextb m) := by
  refine ⟨fun x hx => finishedDisk_of_ne hle hx, fun b hb => ?_, hones, hle, hge⟩
  unfold finishedDisk
  rw [isFree_congr (fun x hx _ => writeSuper_of_ne (.inr hx)) hb, isFree_clearAll,
    isFree_of_ones hones hb, Bool.true_and]
  apply decide_eq_decide.2
  rw [mem_takenBlocks hb]
  omega

theorem wlp_writeSuper (hg : Fits o g) {m₁ : Mem} (h : m₁ = clearAll m (takenBlocks g nextb)) :
    (do
      getBlock 1 true .super
      storeWord 1024 0x013101AE
      storeWord 1028 g.nblocks
      storeWord 1032 o.ninodes
      storeWord 1036 (firstinob o)
      putBlock 1 : Fmt Unit).wlp g.nblocks (fun _ st' m' => st' = st ∧ m' = finishedDisk g nextb m)
        st m₁ := by
  subst h
  simp only [wlp_bind, wlp_getBlock, wlp_storeWord, wlp_putBlock, if_true, true_and]
  intro _
  unfold finishedDisk writeSuper firstinob
  rw [hg.ninodes, hg.nbitblock]

theorem wlp_finishfs (hg : Fits o g) (hle : st.nextb ≤ g.nblocks) :
    (finishfs o).wlp g.nblocks (fun _ st' m' => st' = st ∧ m' = finishedDisk g st.nextb m)
      st m := by
  have hsmall := g.small
  unfold finishfs
  rw [wlp_bind, wlp_getGlobals, wlp_bind]
  refine wlp_mono (wlp_forRange (I := fun n s' m' => s' = st ∧ m' = clearAll m (List.range n))
    ⟨rfl, rfl⟩ ?_) ?_
  · rintro i hi _ _ ⟨rfl, rfl⟩
    have hb : 2 + i / 8192 = 2 := by omega
    have hmod : i % 8192 = i := Nat.mod_eq_of_lt (by omega)
    simp only [wlp_bind, wlp_getBlock, Bool.false_eq_true, if_false, wlp_loadWord, wlp_storeWord,
      wlp_putBlock, hb, hmod, true_and]
    intro _
    rw [List.range_succ, clearAll_concat]
    rfl
  rintro _ st₁ _ ⟨hs, rfl⟩
  subst st₁
  rw [hg.nbitblock, Nat.one_mul, ← hg.nblocks]
  simp only [Nat.add_sub_cancel]
  split
  · rename_i hne
    have hmod : g.nblocks % 8192 = g.nblocks := Nat.mod_eq_of_lt (by omega)
    rw [hmod, wlp_bind, wlp_getBlock, if_neg Bool.false_ne_true]
    intro _
    rw [wlp_bind]
    refine wlp_mono (wlp_forRange (I := fun n s' m' => s' = st ∧
      m' = clearAll m (List.range st.nextb ++ (List.range n).map (g.nblocks + ·)))
      ⟨rfl, by rw [List.range_zero, List.map_nil, List.append_nil]⟩ ?_) ?_
    · rintro i hi _ _ ⟨rfl, rfl⟩
      simp only [wlp_bind, wlp_loadWord, wlp_storeWord, true_and]
      rw [List.range_succ, List.map_append, ← List.append_assoc]
      exact (clearAll_concat _ _ _).symm
    · rintro _ st₁ _ ⟨hs, hm⟩
      subst st₁
      rw [wlp_bind, wlp_putBlock]
      exact wlp_writeSuper hg hm
  · rename_i heq
    have hnone : takenBlocks g st.nextb = List.range st.nextb := by
      unfold takenBlocks
      rw [not_not.1 heq]
      exact List.append_nil _
    exact wlp_writeSuper hg (by rw [hnone])

/-! ## Disks that agree behind the bitmap -/

section Agree

variable (hx : ∀ x, 3072 ≤ x → mf' x = mf x)
include hx

theorem word_of_agree {a : Nat} (ha : 3072 ≤ a) : mf'.get32 a = mf.get32 a :=
  Mem.get32_congr fun x hx' _ => hx x (by omega)

theorem inode_of_agree (j : Nat) : oiSize mf' (inodeAddr j) = oiSize mf (inodeAddr j) ∧
    oiFtype mf' (inodeAddr j) = oiFtype mf (inodeAddr j) ∧
    oiNlink mf' (inodeAddr j) = oiNlink mf (inodeAddr j) := by
  have := inodeAddr_ge j
  exact ⟨word_of_agree hx (by omega), word_of_agree hx (by omega), word_of_agree hx (by omega)⟩

theorem files_of_agree : Files g mf' = Files g mf := by
  funext j
  unfold Files
  rw [(inode_of_agree hx j).2.1]

theorem isDir_of_agree : IsDir mf' d ↔ IsDir mf d := by
  unfold IsDir
  rw [(inode_of_agree hx d).2.1]

theorem fileBlocks_of_agree (j : Nat) : fileBlocks mf' j = fileBlocks mf j := by
  unfold fileBlocks
  rw [(inode_of_agree hx j).1]

theorem own_of_agree (h : Tidy g (Files g mf) mf) :
    own mf' (Files g mf) = own mf (Files g mf) := by
  have hfd := g.firstdata_ge
  refine h.laid.own_of_meta (fun j _ x hx' _ => hx x ?_) fun x hx' => hx x (by omega)
  have := inodeAddr_ge j
  omega

theorem kept_of_agree (h : Tidy g (Files g mf) mf) (htree : Tree g mf) :
    Kept g (fun _ => False) mf mf' := by
  have hptr (j b : Nat) (hj : Files g mf j) :
      ptr mf' (inodeAddr j) (.leaf b) = ptr mf (inodeAddr j) (.leaf b) := by
    have := congrFun (own_of_agree hx h) (j, .leaf b)
    rwa [own_of_mem hj, own_of_mem hj] at this
  have hbyte (j b c : Nat) (hj : Files g mf j) (hb : b < fileBlocks mf j) :
      mf' (1024 * ptr mf' (inodeAddr j) (.leaf b) + c) =
        mf (1024 * ptr mf (inodeAddr j) (.leaf b) + c) := by
    have hfd := g.firstdata_ge
    have hdata := (h.laid.isData (h.mapped_own hj hb)).1
    rw [own_of_mem hj] at hdata
    rw [hptr j b hj]
    exact hx _ (by omega)
  refine ⟨fun j _ _ => (inode_of_agree hx j).2.1, fun j hj _ _ => ⟨(inode_of_agree hx j).1,
    fun x hb => hbyte j _ _ hj hb⟩, fun d k hd _ => ?_⟩
  refine dirent_congr (inode_of_agree hx d).2.1 (inode_of_agree hx d).1 fun hk hdir x _ => ?_
  have hok := htree.dirOk hd hdir
  unfold entryAddr
  rw [Nat.add_assoc, Nat.add_assoc]
  exact hbyte d _ _ hok.mem (hok.entry_lt hk)

end Agree

/-- Another finished disk of the same image. -/
theorem Image.congr (h : Image g st m mf) (hsh : Shadow g st.nextb m mf') (hsuper : Super g mf') :
    Image g st m mf' := by
  have hsmall := g.small
  have hx (x : Nat) (hx : 3072 ≤ x) : mf' x = mf x := by
    rw [hsh.same x (.inr hx), h.shadow.same x (.inr hx)]
  have hkept := kept_of_agree hx h.tidy h.tree
  have hown := own_of_agree hx h.tidy
  have hent (d k : Nat) (hd : d < g.ninodes) : dirent mf' d k = dirent mf d k :=
    hkept.entry d k hd id
  have hfree (b : Nat) (hb : b < 8192) : isFree mf' b = isFree mf b := by
    rw [hsh.bits b hb, h.shadow.bits b hb]
  have htidy : Tidy g (Files g mf) mf' := by
    refine ⟨hsuper, fun x hx' => ?_, fun b hb => ?_, ⟨h.tidy.laid.bound, fun b hb => hb.1, ?_⟩,
      fun j hj b hb => ?_⟩
    · rw [hsh.same x (.inl hx'), ← h.shadow.same x (.inl hx')]
      exact h.tidy.boot x hx'
    · have := g.firstdata_le
      rw [hfree b (by omega)]
      exact h.tidy.low b hb
    · refine ⟨fun i hi => ?_, ?_⟩
      · rw [hown] at hi ⊢
        have hal := h.tidy.laid.owns.ok i hi
        exact ⟨hal.1, by rw [hfree _ (by have := hal.1.2; omega)]; exact hal.2⟩
      · rw [hown]
        exact h.tidy.laid.owns.inj
    · rw [fileBlocks_of_agree hx] at hb
      rw [ptr_of_own hown hj]
      exact h.tidy.mapped j hj b hb
  have hdir (d : Nat) : IsDir mf' d ↔ IsDir mf d := isDir_of_agree hx
  have hinode := inode_of_agree hx
  refine ⟨hsh, by rw [files_of_agree hx]; exact htidy, ?_, ?_, ⟨fun j hj => ?_, fun j hj => ?_,
    fun d hd hdd => ?_, fun d k name i hd he => ?_⟩, fun j h2 hj hnd => ?_, h.inodes,
    fun j hj hj' x hx' => ?_, fun d k name i hd he => ?_, fun d hd hdd => ?_, fun l hl => ?_⟩
  · intro j p hj
    rw [files_of_agree hx] at hj ⊢
    rw [hown, fileBlocks_of_agree hx]
    exact h.exact j p hj
  · rw [files_of_agree hx, hown]
    exact h.onto
  · rw [(hinode j).2.1]
    exact h.tree.kinds j hj
  · rw [files_of_agree hx] at hj
    rw [(hinode j).1]
    exact h.tree.whole j hj
  · rw [(hinode d).1, (hinode d).2.2]
    exact h.tree.dirs d hd ((hdir d).1 hdd)
  · exact h.tree.names d k name i hd ((hent d k hd).symm.trans he)
  · rw [(hinode j).2.2, linkCount_congr hent]
    exact h.links j h2 hj fun h' => hnd ((hdir j).2 h')
  · have := inodeAddr_ge j
    rw [hx _ (by omega)]
    exact h.fresh j hj hj' x hx'
  · exact h.named d k name i hd ((hent d k hd).symm.trans he)
  · rw [(hinode d).2.2]
    exact h.dirs d hd ((hdir d).1 hdd)
  · obtain ⟨h1, h2, h3⟩ := h.hard l hl
    exact ⟨h1, h2, fun h' => h3 ((hdir _).1 h')⟩

/-- The image after `finishfs`. -/
theorem Image.finished (h : Image g st m mf) : Image g st m (finishedDisk g st.nextb m) ∧
    Kept g (fun _ => False) mf (finishedDisk g st.nextb m) := by
  have hsh := Shadow.of_ones h.shadow.ones h.shadow.le h.shadow.nextb
  refine ⟨h.congr hsh (super_finishedDisk g _ m), kept_of_agree (fun x hx => ?_) h.tidy h.tree⟩
  rw [hsh.same x (.inr hx), h.shadow.same x (.inr hx)]

/-! ## The empty image -/

def openedDisk : Mem := fun x => if 2048 ≤ x ∧ x < 3072 then 0xFF else 0

def rootDisk : Mem :=
  (((openedDisk.set32 (inodeAddr 0 + 8) 1).set32 (inodeAddr 1 + 4) ftypeDir).set32
    (inodeAddr 1 + 8) 1).set32 (inodeAddr 1 + 12) 511

theorem wlp_opendisk (hg : Fits o g) : (opendisk o).wlp g.nblocks (fun _ st' m' =>
    st' = ⟨g.firstdata, 0, []⟩ ∧ m' = openedDisk) st fun _ => 0 := by
  have hnum : ninodeblock o = (g.ninodes + 15) / 16 := by
    unfold ninodeblock
    rw [hg.ninodes]
  unfold opendisk
  rw [hg.nbitblock, hnum, wlp_bind]
  refine wlp_mono (wlp_forRange (I := fun n s' m' =>
    m' = if n = 0 then (fun _ => 0) else openedDisk) rfl ?_) ?_
  · rintro i hi s _ rfl
    obtain rfl : i = 0 := by omega
    simp only [wlp_bind, wlp_getBlock, wlp_storeBytes, wlp_putBlock, Bool.false_eq_true, if_false,
      if_true, Nat.succ_ne_zero]
    intro _
    funext x
    by_cases hx : 2048 ≤ x ∧ x < 3072
    · have hi : x - 2048 < (List.replicate 1024 (0xFF : UInt8)).length := by
        rw [List.length_replicate]
        omega
      have := Mem.store_of_lt (m := fun _ => 0) (a := 2048) hi
      rw [Nat.add_sub_cancel' hx.1, List.getElem_replicate] at this
      exact this.trans (if_pos hx).symm
    · refine (Mem.store_of_ne ?_).trans (if_neg hx).symm
      rw [List.length_replicate]
      omega
  rintro _ s _ rfl
  rw [wlp_bind]
  refine wlp_mono (wlp_forRange (I := fun _ _ m' => m' = openedDisk) rfl ?_) ?_
  · rintro i hi s _ rfl
    simp only [wlp_bind, wlp_getBlock, wlp_putBlock, if_true]
    intro _
    funext x
    by_cases hx : 1024 * (2 + 1 + i) ≤ x ∧ x < 1024 * (2 + 1 + i) + 1024
    · exact (Mem.fill_of_mem hx.1 hx.2).trans (if_neg (by omega)).symm
    · exact Mem.fill_of_ne (by omega)
  · rintro _ s _ rfl
    rw [wlp_setGlobals]
    exact ⟨rfl, rfl⟩

theorem rootDisk_zero {x : Nat} (hx : x < 2048 ∨ 3072 ≤ x) (h0 : x < 3080 ∨ 3084 ≤ x)
    (h1 : x < 3140 ∨ 3152 ≤ x) : rootDisk x = 0 := by
  unfold rootDisk inodeAddr
  rw [Mem.set32_of_ne (by omega), Mem.set32_of_ne (by omega), Mem.set32_of_ne (by omega),
    Mem.set32_of_ne (by omega)]
  exact if_neg (by omega)

theorem rootDisk_ones {x : Nat} (hx : 2048 ≤ x) (hx' : x < 3072) : rootDisk x = 0xFF := by
  unfold rootDisk inodeAddr
  rw [Mem.set32_of_ne (by omega), Mem.set32_of_ne (by omega), Mem.set32_of_ne (by omega),
    Mem.set32_of_ne (by omega)]
  exact if_pos ⟨hx, hx'⟩

theorem ptr_of_words {oi : Nat} (h : ∀ c < 12, m.get32 (oi + 16 + 4 * c) = 0) (p : Place) :
    ptr m oi p = 0 := by
  have h10 : oiIndirect m oi = 0 := h 10 (by omega)
  have h11 : oiIndirect2 m oi = 0 := h 11 (by omega)
  have hentry (j : Nat) : entry m 0 j = 0 := if_pos rfl
  cases p with
  | leaf b =>
    simp only [ptr, h10, h11, hentry, ite_self]
    split
    · exact h b (by omega)
    · rfl
  | indirect => exact h10
  | indirect2 => exact h11
  | indir2 k => simp only [ptr, h11, hentry, ite_self]

theorem rootDisk_word {a : Nat} (ha : 3072 ≤ a) (h0 : a + 4 ≤ 3080 ∨ 3084 ≤ a)
    (h1 : a + 4 ≤ 3140 ∨ 3152 ≤ a) : rootDisk.get32 a = 0 :=
  Mem.get32_of_zero fun i hi => rootDisk_zero (by omega) (by omega) (by omega)

/-- Inode 1 is a directory, and nothing has a name or a block. -/
structure Bare (m : Mem) : Prop where
  size : ∀ j, oiSize m (inodeAddr j) = 0
  ftype : ∀ j, oiFtype m (inodeAddr j) = if j = 1 then ftypeDir else 0
  nlink : ∀ j, oiNlink m (inodeAddr j) = if j < 2 then 1 else 0
  ptr : ∀ j p, ptr m (inodeAddr j) p = 0

theorem Bare.of_rootDisk (hx : ∀ x, 3072 ≤ x → m x = rootDisk x) : Bare m := by
  have hword (j c : Nat) : m.get32 (inodeAddr j + c) = rootDisk.get32 (inodeAddr j + c) :=
    word_of_agree hx (by have := inodeAddr_ge j; omega)
  refine ⟨fun j => ?_, fun j => ?_, fun j => ?_, fun j p => ?_⟩
  · refine (hword j 0).trans (rootDisk_word ?_ ?_ ?_) <;> unfold inodeAddr <;> omega
  · refine (hword j 4).trans ?_
    split
    · rename_i hj
      subst hj
      decide +kernel
    · refine rootDisk_word ?_ ?_ ?_ <;> unfold inodeAddr <;> omega
  · refine (hword j 8).trans ?_
    split
    · obtain rfl | rfl : j = 0 ∨ j = 1 := by omega
      all_goals decide +kernel
    · refine rootDisk_word ?_ ?_ ?_ <;> unfold inodeAddr <;> omega
  · refine ptr_of_words (fun c hc => ?_) p
    rw [Nat.add_assoc]
    refine (hword j _).trans (rootDisk_word ?_ ?_ ?_) <;> unfold inodeAddr <;> omega

namespace Bare

theorem fileBlocks (h : Bare m) (j : Nat) : Ospfs.fileBlocks m j = 0 := by
  unfold Ospfs.fileBlocks
  rw [h.size]
  rfl

theorem own (h : Bare m) (S : Nat → Prop) (i : Nat × Place) : Ospfs.own m S i = 0 := by
  by_cases hi : S i.1
  · exact (own_of_mem hi i.2).trans (h.ptr _ _)
  · exact if_neg hi

theorem dirent (h : Bare m) (d k : Nat) : Ospfs.dirent m d k = none := by
  refine if_neg fun hc => ?_
  have hk := hc.2.1
  unfold entries at hk
  rw [h.size] at hk
  exact Nat.not_lt_zero _ hk

theorem isDir_iff (h : Bare m) (d : Nat) : IsDir m d ↔ d = 1 := by
  unfold IsDir
  rw [h.ftype]
  split
  · exact iff_of_true rfl ‹_›
  · exact iff_of_false (by decide) ‹_›

theorem tidy (h : Bare m) (hsuper : Super g m) (hboot : BootZero m)
    (hlow : ∀ b < g.firstdata, isFree m b = false) : Tidy g (Files g m) m := by
  refine ⟨hsuper, hboot, hlow, ⟨fun _ hj => hj.1, fun _ hb => hb.1, ?_⟩, fun j _ b hb => ?_⟩
  · exact ⟨fun i hi => absurd (h.own _ i) hi, fun i _ hi => absurd (h.own _ i) hi⟩
  · rw [h.fileBlocks] at hb
    exact absurd hb (Nat.not_lt_zero _)

theorem tree (h : Bare m) : Tree g m := by
  refine ⟨fun j _ => ?_, fun j _ => ?_, fun d _ hd => ?_, fun d k name i _ he => ?_⟩
  · rw [h.ftype]
    split <;> decide
  · rw [h.size]
    decide
  · rw [h.size, h.nlink, (h.isDir_iff d).1 hd]
    decide
  · rw [h.dirent] at he
    cases he

theorem linkCount (h : Bare m) (j : Nat) : Ospfs.linkCount g m j = 0 := by
  rw [linkCount_eq_zero]
  intro d k _
  unfold NamesIno
  rw [h.dirent]
  exact nofun

end Bare

/-- The image without names. -/
theorem Image.start (g : Geometry) (h2 : 2 ≤ g.ninodes) : ∃ mf,
    Image g ⟨g.firstdata, 2, []⟩ rootDisk mf ∧ IsDir mf 1 ∧ ∀ d k, dirent mf d k = none := by
  have hsh : Shadow g g.firstdata rootDisk (finishedDisk g g.firstdata rootDisk) :=
    .of_ones (fun x => rootDisk_ones) g.firstdata_le (Nat.le_refl _)
  have hsuper := super_finishedDisk g g.firstdata rootDisk
  generalize finishedDisk g g.firstdata rootDisk = mf at hsh hsuper
  have hx (x : Nat) (hx : 3072 ≤ x) : mf x = rootDisk x := hsh.same x (.inr hx)
  have h : Bare mf := .of_rootDisk hx
  have hboot : BootZero mf := by
    intro x hx
    rw [hsh.same x (.inl hx)]
    exact rootDisk_zero (by omega) (by omega) (by omega)
  have hlow (b : Nat) (hb : b < g.firstdata) : isFree mf b = false := by
    have := g.small
    have := g.firstdata_le
    rw [hsh.bits b (by omega)]
    exact decide_eq_false (by omega)
  refine ⟨mf, ⟨hsh, h.tidy hsuper hboot hlow, fun j p _ => ?_, fun b hb hlt => ?_, h.tree,
    fun j hj _ _ => ?_, ⟨Nat.le_refl _, h2⟩, fun j hj _ x hx' => ?_, fun d k name i _ he => ?_,
    fun d _ hd => ?_, nofun⟩, (h.isDir_iff 1).2 rfl, h.dirent⟩
  · rw [h.own, h.fileBlocks]
    refine iff_of_false (fun h => h rfl) ?_
    cases p <;> exact Nat.not_lt_zero _
  · exact absurd hlt (Nat.not_lt.2 hb.1)
  · rw [h.nlink, if_neg (Nat.not_lt.2 hj), h.linkCount]
  · have hj2 : 2 ≤ j := hj
    rw [hx _ (by unfold inodeAddr; omega)]
    refine rootDisk_zero ?_ ?_ ?_ <;> unfold inodeAddr <;> omega
  · rw [h.dirent] at he
    cases he
  · rw [h.nlink, (h.isDir_iff d).1 hd]
    show (if 1 < 2 then 1 else 0) ≤ 2
    decide

/-! ## Steps that end -/

theorem forRange_ends {n k : Nat} {f : Nat → Fmt Unit} {s : Globals}
    (h : ∀ i < k, Ends n (f i) s s) : Ends n (forRange k f) s s := by
  induction k with
  | zero => exact .pure ()
  | succ k ih =>
    exact .bind (ih fun i hi => h i (Nat.lt_succ_of_lt hi)) fun _ => h k (Nat.lt_succ_self k)

theorem opendisk_ends {st : Globals} (h3 : 0 < o.nblocks) (hn : o.nblocks ≤ 8192)
    (hi : 3 + ninodeblock o ≤ o.nblocks) :
    Ends o.nblocks (opendisk o) st ⟨3 + ninodeblock o, 0, []⟩ := by
  have hbit : nbitblock o = 1 := by
    unfold nbitblock
    omega
  unfold opendisk
  rw [hbit]
  refine .bind (forRange_ends fun i hi => ?_) fun _ => .bind (forRange_ends fun i hi => ?_)
    fun _ => .setGlobals
  · exact .bind (.getBlock (by omega)) fun _ => .bind .storeBytes fun _ => .putBlock
  · exact .bind (.getBlock (by omega)) fun _ => .putBlock

theorem finishfs_ends {st : Globals} (h3 : 3 ≤ o.nblocks) (hn : o.nblocks ≤ 8192)
    (hb : st.nextb ≤ 8192) : Ends o.nblocks (finishfs o) st st := by
  have hbit : nbitblock o = 1 := by
    unfold nbitblock
    omega
  have hsuper : Ends o.nblocks (do
      getBlock 1 true .super
      storeWord 1024 0x013101AE
      storeWord 1028 o.nblocks
      storeWord 1032 o.ninodes
      storeWord 1036 (firstinob o)
      putBlock 1 : Fmt Unit) st st :=
    .bind (.getBlock (by omega)) fun _ => .bind .storeWord fun _ => .bind .storeWord fun _ =>
      .bind .storeWord fun _ => .bind .storeWord fun _ => .putBlock
  refine .getGlobals (.bind (forRange_ends fun i hi => ?_) fun _ => ?_)
  · exact .bind (.getBlock (by omega)) fun _ => .bind .loadWord fun _ =>
      .bind .storeWord fun _ => .putBlock
  split
  · exact .bind (.getBlock (by omega)) fun _ => .bind (forRange_ends fun i _ =>
      .bind .loadWord fun _ => .storeWord) fun _ => .bind .putBlock fun _ => hsuper
  · exact hsuper

/-! ## The whole program -/

theorem Image.addLinks (hg : Fits o g) (links : List (CString × CString)) : ∀ {st : Globals}
    {m mf : Mem}, Image g st m mf → d < g.ninodes → IsDir mf d →
    (addLinks o (inodeAddr d) links).wlp g.nblocks (fun _ st' m' => ∃ mf', Image g st' m' mf' ∧
      Wrote g d (fun n => n ∈ links.map fun l => l.2.val) st mf st' mf') st m := by
  induction links with
  | nil =>
    intro st m mf h hd hdir
    exact wlp_pure.2 ⟨mf, h, .of_kept .refl hd hdir (fun _ => False.elim) id (Nat.le_refl _)⟩
  | cons l links ih =>
    intro st m mf h hd hdir
    rw [Ospfs.addLinks, wlp_bind]
    refine wlp_mono (h.addsymlink hg hd hdir l.2.2 l.1 0) ?_
    rintro _ st₁ m₁ ⟨mf₁, h₁, hw₁, -⟩
    refine wlp_mono (ih h₁ hd hw₁.isDir) ?_
    rintro _ st₂ m₂ ⟨mf₂, h₂, hw₂⟩
    refine ⟨mf₂, h₂, (hw₁.mono fun v hv => ?_).trans (hw₂.mono fun v hv => ?_)⟩
    · rw [hv]
      exact List.mem_cons_self
    · exact List.mem_cons_of_mem _ hv

/-- What is copied to the image, and the links of the command line. -/
def writeSource (o : Options) (rootino : Nat) : Fmt Unit := do
  match o.source with
  | .recursive dir => Ospfs.writedirectory o dir rootino
  | .files fs => writeFiles o rootino fs
  Ospfs.addLinks o rootino o.links

theorem Image.wlp_finishfs (hg : Fits o g) (h : Image g st m mf) :
    (finishfs o).wlp g.nblocks (fun _ st' m' => st' = st ∧ (∃ m, Image g st m m') ∧
      Kept g (fun _ => False) mf m') st m := by
  refine wlp_mono (Ospfs.wlp_finishfs hg h.shadow.le) ?_
  rintro _ _ _ ⟨rfl, rfl⟩
  obtain ⟨hfin, hk⟩ := h.finished
  exact ⟨rfl, ⟨m, hfin⟩, hk⟩

/-- A formatted image is what copying leaves of the empty image. -/
theorem formatted_of_writeSource {P : Geometry → Globals → Mem → Prop}
    (hbody : ∀ g, Fits o g → ∀ mf, Image g ⟨g.firstdata, 2, []⟩ rootDisk mf → IsDir mf 1 →
      (∀ k, dirent mf 1 k = none) →
      (writeSource o (inodeAddr 1)).wlp g.nblocks (fun _ st' m' => ∃ mf', Image g st' m' mf' ∧
        P g st' mf') ⟨g.firstdata, 2, []⟩ rootDisk)
    (h : formatted o = some (st, m')) : ∃ g mf', Fits o g ∧ (∃ m, Image g st m m') ∧
      Kept g (fun _ => False) mf' m' ∧ P g st mf' := by
  unfold formatted at h
  obtain ⟨⟨u, r⟩, hrun, hr⟩ := Option.map_eq_some_iff.1 h
  obtain rfl : r = (st, m') := hr
  by_cases hacc : o.accepted = true
  · have hchecks : 2 ≤ o.nblocks ∧ o.nblocks ≤ 8192 ∧ 2 ≤ o.ninodes ∧
        o.ninodes < o.nblocks - 2 - o.nblocks / 8192 := by
      unfold Options.accepted at hacc
      simpa only [Bool.and_eq_true, decide_eq_true_eq, and_assoc] using hacc
    obtain ⟨-, hsmall, h2, hin⟩ := hchecks
    let g : Geometry := ⟨o.nblocks, o.ninodes, hsmall, by omega⟩
    have hg : Fits o g := ⟨rfl, rfl⟩
    have hmain : (main o).wlp g.nblocks (fun _ st m' => ∃ mf', (∃ m, Image g st m m') ∧
        Kept g (fun _ => False) mf' m' ∧ P g st mf') ⟨0, 0, []⟩ fun _ => 0 := by
      unfold main
      rw [hacc, Bool.not_true, if_neg Bool.false_ne_true, wlp_bind]
      refine wlp_mono (wlp_opendisk hg) ?_
      rintro _ _ _ ⟨rfl, rfl⟩
      rw [wlp_bind]
      apply wlp_allocinode
      intro _
      simp only [wlp_bind, wlp_storeWord, wlp_putBlock]
      apply wlp_allocinode
      intro _
      simp only [hg.inodePtr]
      obtain ⟨mf, hstart, hroot, hempty⟩ := Image.start g h2
      have hcopy := hbody g hg mf hstart hroot (hempty 1)
      have hend (u : Unit) (s : Globals) (m : Mem) (hs : ∃ mf', Image g s m mf' ∧ P g s mf') :
          (finishfs o).wlp g.nblocks (fun _ st m' => ∃ mf', (∃ m, Image g st m m') ∧
            Kept g (fun _ => False) mf' m' ∧ P g st mf') s m := by
        obtain ⟨mf', himg, hp⟩ := hs
        refine wlp_mono (himg.wlp_finishfs hg) ?_
        rintro _ _ m' ⟨rfl, hfin, hk⟩
        exact ⟨mf', hfin, hk, hp⟩
      unfold writeSource at hcopy
      cases hsrc : o.source with
      | recursive dir =>
        rw [hsrc] at hcopy
        simp only [wlp_bind, wlp_putBlock] at hcopy ⊢
        exact wlp_mono hcopy fun _ _ _ hlinks => wlp_mono hlinks hend
      | files fs =>
        rw [hsrc] at hcopy
        simp only [wlp_bind, wlp_putBlock] at hcopy ⊢
        exact wlp_mono hcopy fun _ _ _ hlinks => wlp_mono hlinks hend
    obtain ⟨mf', himg, hk, hp⟩ := hmain _ _ _ hrun
    exact ⟨g, mf', hg, himg, hk, hp⟩
  · unfold main at hrun
    rw [Bool.not_eq_true] at hacc
    rw [hacc] at hrun
    cases hrun

end OsLabs.Ospfs
