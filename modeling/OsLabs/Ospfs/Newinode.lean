import OsLabs.Ospfs.Hardlinks
import OsLabs.Ospfs.Writefile

/-!
# OSPFS: files and links

`writefile` and `addsymlink` enter a new inode or a further link (`Image.enterNew`,
`Image.enterLink`). `Wrote g d N st mf st' mf'` is what they do to a directory: its entries
stay, further ones have names in `N`, and the other inodes keep what they hold. `Numbered`
says which inode a new entry names.
-/

namespace OsLabs.Ospfs

open BlockProg

variable {o : Options} {g : Geometry} {st st' st'' : Globals} {m m' mf mf' mf'' : Mem}
  {d k i : Nat} {name : Bytes}

/-- The disk that the options ask for. -/
structure Fits (o : Options) (g : Geometry) : Prop where
  nblocks : g.nblocks = o.nblocks
  ninodes : g.ninodes = o.ninodes

theorem Fits.nbitblock (h : Fits o g) : nbitblock o = 1 := by
  have := g.small
  have := g.inodes
  unfold Ospfs.nbitblock
  rw [← h.nblocks]
  omega

theorem Fits.inodePtr (h : Fits o g) (ino : Nat) : inodePtr o ino = inodeAddr ino := by
  unfold Ospfs.inodePtr inodeBlk firstinob inodeAddr
  rw [h.nbitblock]
  omega

theorem wlp_allocinode {Q : Nat → Globals → Mem → Prop} {nb : Nat}
    (h : st.nextinode ≠ o.ninodes →
      Q st.nextinode { st with nextinode := st.nextinode + 1 } m) :
    (allocinode o).wlp nb Q st m := by
  unfold allocinode
  rw [wlp_bind, wlp_getGlobals]
  split
  · exact wlp_abort
  · simp only [wlp_bind, wlp_setGlobals, wlp_getBlock, wlp_pure, Bool.false_eq_true, if_false]
    exact fun _ => h ‹_›

/-! ## Entering an inode -/

theorem enters_of (hge : 1024 * g.firstdata ≤ entryAddr mf d k) (hd : d < g.ninodes)
    (hi : i < g.ninodes) (hentry : mf'.get32 (entryAddr mf d k) = i)
    (hw : ∀ x, x < entryAddr mf d k ∨ entryAddr mf d k + 4 ≤ x →
      x < inodeAddr i ∨ inodeAddr i + 64 ≤ x → x < inodeAddr d + 8 ∨ inodeAddr d + 12 ≤ x →
      mf' x = mf x) : Enters g mf mf' d k i := by
  have hd' := inodeAddr_lt hd
  have hi' := inodeAddr_lt hi
  have hdge := inodeAddr_ge d
  have hige := inodeAddr_ge i
  refine ⟨fun x hx => hw x (by omega) (by omega) (by omega),
    fun x hx hx' => hw x hx' (by omega) (by omega), hentry, fun j hj hji c hc hc' => ?_⟩
  have hj' := inodeAddr_lt hj
  refine hw _ (by omega) ?_ ?_
  · unfold inodeAddr
    omega
  · unfold inodeAddr
    omega

theorem Image.linkCount_fresh (h : Image g st m mf) (hi : st.nextinode ≤ i) :
    linkCount g mf i = 0 := by
  rw [linkCount_eq_zero]
  intro d k hdk hnames
  obtain ⟨hd, -⟩ := Finset.mem_product.1 hdk
  unfold NamesIno at hnames
  obtain ⟨⟨name, j⟩, he, rfl⟩ := Option.map_eq_some_iff.1 hnames
  have := h.named d k name j (Finset.mem_range.1 hd) he
  exact absurd this (Nat.not_lt.2 hi)

/-- The next inode is set up and entered in directory `d`. -/
theorem Image.enterNew (h : Image g st m mf) (st' : Globals) (hd : d < g.ninodes)
    (hdir : IsDir mf d)
    (hres : Reserved g mf d k name) (hz : 0 ∉ name) (hlt : st.nextinode < g.ninodes)
    (hentry : mf'.get32 (entryAddr mf d k) = st.nextinode)
    (hw : ∀ x, x < entryAddr mf d k ∨ entryAddr mf d k + 4 ≤ x →
      x < inodeAddr st.nextinode ∨ inodeAddr st.nextinode + 64 ≤ x →
      x < inodeAddr d + 8 ∨ inodeAddr d + 12 ≤ x → mf' x = mf x)
    (hkind : oiFtype mf' (inodeAddr st.nextinode) ≤ ftypeSymlink)
    (hnlink : oiNlink mf' (inodeAddr st.nextinode) = 1)
    (hblank : oiFtype mf' (inodeAddr st.nextinode) ≠ ftypeSymlink →
      oiSize mf' (inodeAddr st.nextinode) = 0 ∧
      ∀ c, 16 ≤ c → c < 64 → mf' (inodeAddr st.nextinode + c) = 0)
    (hparent : oiNlink mf' (inodeAddr d) = oiNlink mf (inodeAddr d) ∨
      oiNlink mf' (inodeAddr d) = oiNlink mf (inodeAddr d) + 1)
    (hsh : Shadow g st'.nextb m' mf') (hnb : st'.nextb = st.nextb)
    (hnext : st'.nextinode = st.nextinode + 1)
    (hhard : ∀ l ∈ st'.hardlinks,
      l ∈ st.hardlinks ∨ (l.ospIno = st.nextinode ∧ ¬ IsDir mf' st.nextinode)) :
    Image g st' m' mf' ∧ Entered g mf mf' d k st.nextinode name := by
  have hdlt := h.isDir_lt hd hdir
  have hge := entry_ge h.tidy (h.tree.dirOk hd hdir) hres.lt
  have hty : oiFtype mf (inodeAddr st.nextinode) = 0 :=
    h.fresh_word (c := 4) (Nat.le_refl _) hlt (by omega)
  have hsz : oiSize mf (inodeAddr st.nextinode) = 0 :=
    h.fresh_word (c := 0) (Nat.le_refl _) hlt (by omega)
  have hfile : Files g mf st.nextinode := ⟨hlt, by rw [hty]; decide⟩
  refine h.enter hd hdir hres hz (enters_of hge hd hlt hentry hw) ⟨hkind, fun hf => ?_,
    fun _ _ p => ?_, ⟨?_, fun hd' => ?_⟩, fun _ => ?_⟩ h.inodes.1 hlt (by omega) hsh hnb
    (by have := h.inodes.1; omega) (fun j hj => by omega) ?_ (fun _ => Nat.le_refl _) hhard
  · obtain ⟨hs, hb⟩ := hblank hf.2
    refine ⟨hfile, hs.trans hsz.symm, fun c hc hc' => ?_⟩
    rw [hb c hc hc', h.fresh _ (Nat.le_refl _) hlt c hc']
  · by_contra hne
    have hin := (h.exact _ p hfile).1 hne
    unfold fileBlocks at hin
    rw [hsz] at hin
    cases p <;> simp [Place.InUse, ospfsSize2nblocks] at hin
  · unfold IsDir
    rw [hty]
    decide
  · refine ⟨(hblank ?_).1, hnlink⟩
    rw [show oiFtype mf' (inodeAddr st.nextinode) = ftypeDir from hd']
    decide
  · rw [hnlink, h.linkCount_fresh (Nat.le_refl _)]
  · have h0 := (h.tree.dirs d hd hdir).2
    have hle := h.dirs d hd hdir
    rw [hnext]
    rcases hparent with hp | hp
    · omega
    · omega

theorem Image.enterLink (h : Image g st m mf) (hd : d < g.ninodes) (hdir : IsDir mf d)
    (hres : Reserved g mf d k name) (hz : 0 ∉ name) (hi : 2 ≤ i) (hlt : i < st.nextinode)
    (hnd : ¬ IsDir mf i) :
    ∃ mf', Image g st ((m.set32 (entryAddr mf d k) i).set32 (inodeAddr i + 8)
        (oiNlink mf (inodeAddr i) + 1)) mf' ∧
      Entered g mf mf' d k i name ∧ oiFtype mf' (inodeAddr i) = oiFtype mf (inodeAddr i) := by
  have hin : i < g.ninodes := Nat.lt_of_lt_of_le hlt h.inodes.2
  have hge := entry_ge h.tidy (h.tree.dirOk hd hdir) hres.lt
  have hfd := g.firstdata_ge
  have hia := inodeAddr_lt hin
  have hige := inodeAddr_ge i
  have hsm := g.small
  have hino := g.inodes
  have hid : i ≠ d := by
    rintro rfl
    exact hnd hdir
  have hlinks := h.links i hi hin hnd
  have hle := linkCount_le (g := g) (m := mf) i
  have hmul : g.ninodes * (8 * g.nblocks) ≤ 8192 * (8 * 8192) :=
    Nat.mul_le_mul (by omega) (by omega)
  have hw : ∀ x, x < entryAddr mf d k ∨ entryAddr mf d k + 4 ≤ x →
      x < inodeAddr i + 8 ∨ inodeAddr i + 12 ≤ x →
      (mf.set32 (entryAddr mf d k) i).set32 (inodeAddr i + 8) (oiNlink mf (inodeAddr i) + 1) x =
        mf x := fun x hx hx' => by
    rw [Mem.set32_of_ne (by omega), Mem.set32_of_ne hx]
  have hentry : ((mf.set32 (entryAddr mf d k) i).set32 (inodeAddr i + 8)
      (oiNlink mf (inodeAddr i) + 1)).get32 (entryAddr mf d k) = i := by
    rw [Mem.get32_set32_ne (by omega), Mem.get32_set32_of_lt (by omega)]
  have hnlink : oiNlink ((mf.set32 (entryAddr mf d k) i).set32 (inodeAddr i + 8)
      (oiNlink mf (inodeAddr i) + 1)) (inodeAddr i) = oiNlink mf (inodeAddr i) + 1 :=
    Mem.get32_set32_of_lt (by omega)
  have hsh := (h.shadow.set32 (a := entryAddr mf d k) (by omega) i).set32 (a := inodeAddr i + 8)
    (by omega) (oiNlink mf (inodeAddr i) + 1)
  generalize (mf.set32 (entryAddr mf d k) i).set32 (inodeAddr i + 8)
    (oiNlink mf (inodeAddr i) + 1) = mf' at hw hentry hnlink hsh
  -- the other words of the inode, and the parent's header
  have hty : oiFtype mf' (inodeAddr i) = oiFtype mf (inodeAddr i) :=
    Mem.get32_congr fun x hx hx' => hw x (by omega) (by omega)
  have hsz : oiSize mf' (inodeAddr i) = oiSize mf (inodeAddr i) :=
    Mem.get32_congr fun x hx hx' => hw x (by omega) (by omega)
  have hnd' : ¬ IsDir mf' i := by
    unfold IsDir at *
    rwa [hty]
  have hda := inodeAddr_lt hd
  have hparent : oiNlink mf' (inodeAddr d) = oiNlink mf (inodeAddr d) :=
    Mem.get32_congr fun x hx hx' => hw x (by omega) (by unfold inodeAddr at *; omega)
  have himg := h.enter hd hdir hres hz (enters_of hge hd hin hentry fun x hx hx' _ =>
      hw x hx (by omega)) ⟨by rw [hty]; exact h.tree.kinds i hin, fun hf => ?_, fun hf hf' => ?_,
      ⟨hnd, fun hd' => absurd hd' hnd'⟩, fun _ => by rw [hnlink, hlinks]⟩ hi hin hid hsh rfl
    ⟨Nat.le_refl _, h.inodes.2⟩ (fun j hj => by omega)
    (by rw [hparent]; exact ⟨(h.tree.dirs d hd hdir).2, h.dirs d hd hdir⟩)
    (fun hd' => absurd hd' hnd') fun l hl => .inl hl
  · exact ⟨mf', himg.1, himg.2, hty⟩
  · refine ⟨⟨hin, by rw [← hty]; exact hf.2⟩, hsz, fun c hc hc' => hw _ (by omega) (by omega)⟩
  · exact absurd ⟨hin, by rw [hty]; exact hf.2⟩ hf'

/-! ## What is written to a directory -/

/-- In every block of directory `d` the blank entries are the last ones. -/
def Packed (m : Mem) (d : Nat) : Prop :=
  ∀ j k, j ≤ k → j / 8 = k / 8 → dirent m d k ≠ none → dirent m d j ≠ none

/-- Directory `d` keeps its entries, and further ones come behind them. -/
structure Appended (d : Nat) (m m' : Mem) : Prop where
  old : ∀ k v, dirent m d k = some v → dirent m' d k = some v
  behind : ∀ k, dirent m d k = none → dirent m' d k ≠ none → ∀ j, dirent m d j ≠ none → j < k

theorem Appended.of_eq (h : ∀ k, dirent mf' d k = dirent mf d k) : Appended d mf mf' :=
  ⟨fun k _ hv => (h k).trans hv, fun k hk hk' => absurd ((h k).trans hk) hk'⟩

theorem Appended.trans (h : Appended d mf mf') (h' : Appended d mf' mf'') :
    Appended d mf mf'' := by
  have hlive {j : Nat} (hj : dirent mf d j ≠ none) : dirent mf' d j ≠ none := by
    obtain ⟨v, hv⟩ := Option.ne_none_iff_exists'.1 hj
    rw [h.old j v hv]
    exact Option.some_ne_none v
  refine ⟨fun k v hv => h'.old k v (h.old k v hv), fun k hk hk' j hj => ?_⟩
  by_cases hmid : dirent mf' d k = none
  · exact h'.behind k hmid hk' j (hlive hj)
  · exact h.behind k hk hmid j hj

structure Wrote (g : Geometry) (d : Nat) (N : Bytes → Prop) (st : Globals) (mf : Mem)
    (st' : Globals) (mf' : Mem) : Prop where
  next : st.nextinode ≤ st'.nextinode
  kept : Kept g (fun j => j = d ∨ st.nextinode ≤ j) mf mf'
  isDir : IsDir mf' d
  old : ∀ k v, dirent mf d k = some v → dirent mf' d k = some v
  new : ∀ k v, dirent mf' d k = some v → dirent mf d k = some v ∨ N v.1
  packed : Packed mf d → Packed mf' d ∧ Appended d mf mf'

namespace Wrote

variable {N N' : Bytes → Prop}

theorem of_kept {E : Nat → Prop} (h : Kept g E mf mf') (hd : d < g.ninodes) (hdir : IsDir mf d)
    (hE : ∀ j, E j → st.nextinode ≤ j) (hdE : ¬ E d) (hnext : st.nextinode ≤ st'.nextinode) :
    Wrote g d N st mf st' mf' := by
  refine ⟨hnext, h.mono fun j hj => .inr (hE j hj), (h.isDir hd hdE).2 hdir, fun k v hv => ?_,
    fun k v hv => .inl ?_, fun hp => ⟨fun j k hjk hb hk => ?_, .of_eq fun k => ?_⟩⟩
  · rwa [h.entry d k hd hdE]
  · rwa [← h.entry d k hd hdE]
  · rw [h.entry d j hd hdE]
    rw [h.entry d k hd hdE] at hk
    exact hp j k hjk hb hk
  · exact h.entry d k hd hdE

theorem mono (h : Wrote g d N st mf st' mf') (hN : ∀ v, N v → N' v) :
    Wrote g d N' st mf st' mf' :=
  { h with new := fun k v hv => (h.new k v hv).imp_right (hN _) }

theorem trans (h : Wrote g d N st mf st' mf') (h' : Wrote g d N st' mf' st'' mf'') :
    Wrote g d N st mf st'' mf'' := by
  refine ⟨Nat.le_trans h.next h'.next, h.kept.trans (h'.kept.mono fun j hj => ?_), h'.isDir,
    fun k v hv => h'.old k v (h.old k v hv), fun k v hv => ?_, fun hp => ?_⟩
  · exact hj.imp_right (Nat.le_trans h.next)
  · rcases h'.new k v hv with hv | hv
    · exact h.new k v hv
    · exact .inr hv
  · obtain ⟨hp₁, happ⟩ := h.packed hp
    obtain ⟨hp₂, happ'⟩ := h'.packed hp₁
    exact ⟨hp₂, happ.trans happ'⟩

end Wrote

theorem Reserved.dirent (h : Reserved g mf d k name) : dirent mf d k = none :=
  if_neg fun hc => hc.2.2 h.blank

theorem Reserved.behind (h : Reserved g mf d k name) (hp : Packed mf d) {j : Nat}
    (hj : Ospfs.dirent mf d j ≠ none) : j < k := by
  obtain ⟨v, hv⟩ := Option.ne_none_iff_exists'.1 hj
  have hlt := (dirent_lt hv).2.1
  have hlast := h.last
  by_contra hle
  exact hp k j (by omega) (by omega) hj h.dirent

theorem Entered.packed (h : Entered g mf mf' d k i name) (hd : d < g.ninodes)
    (hres : Reserved g mf d k name) (hp : Packed mf d) : Packed mf' d ∧ Appended d mf mf' := by
  have hothers (j : Nat) (hj : j ≠ k) : dirent mf' d j = dirent mf d j :=
    h.others d j hd fun heq => hj (congrArg Prod.snd heq)
  have hnew : dirent mf' d k ≠ none := by
    rw [h.entry]
    exact Option.some_ne_none _
  refine ⟨fun i j hij hb hj => ?_, fun j v hv => ?_, fun j hj hj' i hi => ?_⟩
  · by_cases hik : i = k
    · exact hik ▸ hnew
    rw [hothers i hik]
    by_cases hjk : j = k
    · exact hres.first i (by omega) (by rw [hb, hjk])
    · rw [hothers j hjk] at hj
      exact hp i j hij hb hj
  · by_cases hjk : j = k
    · rw [hjk, hres.dirent] at hv
      cases hv
    · exact (hothers j hjk).trans hv
  · by_cases hjk : j = k
    · exact hjk ▸ hres.behind hp hi
    · rw [hothers j hjk] at hj'
      exact absurd hj hj'

theorem Entered.wrote (h : Entered g mf mf' d k i name) (hd : d < g.ninodes)
    (hres : Reserved g mf d k name)
    (hi : st.nextinode ≤ i ∨ oiFtype mf' (inodeAddr i) = oiFtype mf (inodeAddr i))
    (hnext : st.nextinode ≤ st'.nextinode) : Wrote g d (fun n => n = name) st mf st' mf' := by
  refine ⟨hnext, h.kept.mono fun j hj => ?_, h.isDir, fun k' v hv => ?_, fun k' v hv => ?_,
    h.packed hd hres⟩
  · rcases hj with hj | ⟨rfl, hj⟩
    · exact .inl hj
    · exact .inr (hi.resolve_right hj)
  · rw [h.others d k' hd]
    · exact hv
    · rintro heq
      cases heq
      rw [hres.dirent] at hv
      cases hv
  · by_cases hk : k' = k
    · subst hk
      rw [h.entry] at hv
      cases hv
      exact .inr rfl
    · rw [h.others d k' hd fun heq => hk (congrArg Prod.snd heq)] at hv
      exact .inl hv

structure NewEntry (d : Nat) (name : Bytes) (i : Nat) (mf mf' : Mem) : Prop where
  entry : ∃ k, dirent mf' d k = some (name, i)
  new : ∀ k v, dirent mf' d k = some v → dirent mf d k = some v ∨ v = (name, i)

theorem Entered.newEntry (h : Entered g mf mf' d k i name) (hd : d < g.ninodes) :
    NewEntry d name i mf mf' := by
  refine ⟨⟨k, h.entry⟩, fun k' v hv => ?_⟩
  by_cases hk : k' = k
  · rw [hk, h.entry] at hv
    exact .inr (Option.some.inj hv).symm
  · rw [h.others d k' hd fun heq => hk (congrArg Prod.snd heq)] at hv
    exact .inl hv

theorem NewEntry.of_left (h : NewEntry d name i mf' mf'')
    (hk : ∀ k, dirent mf' d k = dirent mf d k) : NewEntry d name i mf mf'' :=
  ⟨h.entry, fun k v hv => hk k ▸ h.new k v hv⟩

theorem NewEntry.of_right (h : NewEntry d name i mf mf')
    (hk : ∀ k, dirent mf'' d k = dirent mf' d k) : NewEntry d name i mf mf'' :=
  ⟨h.entry.imp fun k he => (hk k).trans he, fun k v hv => h.new k v (hk k ▸ hv)⟩

/-- The new entry names the inode that the numbering gives to a name with this `host_ino`. -/
structure Numbered (d : Nat) (name : Bytes) (hostIno : Nat) (st : Globals) (mf : Mem)
    (st' : Globals) (mf' : Mem) : Prop where
  entry : NewEntry d name (st.number hostIno).1 mf mf'
  globals : st'.numbering = (st.number hostIno).2

theorem Numbered.of_left {hostIno : Nat} (h : Numbered d name hostIno st' mf' st'' mf'')
    (hk : ∀ k, dirent mf' d k = dirent mf d k) (hst : st'.numbering = st.numbering) :
    Numbered d name hostIno st mf st'' mf'' := by
  obtain ⟨hadd, hg⟩ := h
  unfold Globals.number at hadd hg
  rw [hst] at hadd hg
  exact ⟨hadd.of_left hk, hg⟩

/-- A regular file with the bytes `bs` under the name `name`. -/
def HoldsFile (m : Mem) (lo hi d : Nat) (name bs : Bytes) : Prop :=
  ∃ k ino, lo ≤ ino ∧ ino < hi ∧ dirent m d k = some (name, ino) ∧
    oiFtype m (inodeAddr ino) = ftypeReg ∧ HasContent m ino bs

theorem getHardlink_mem {b : Bool} {hostIno : Nat} {md5 : Option Nat} {l : List Hardlink}
    (h : getHardlink b hostIno md5 l ≠ 0) : ∃ c ∈ l, c.ospIno = getHardlink b hostIno md5 l := by
  induction l with
  | nil => exact absurd rfl h
  | cons c l ih =>
    unfold getHardlink at h ⊢
    split
    · exact ⟨c, List.mem_cons_self, rfl⟩
    · rename_i hc
      rw [if_neg hc] at h
      obtain ⟨e, he, heq⟩ := ih h
      exact ⟨e, List.mem_cons_of_mem _ he, heq⟩

@[simp] theorem wlp_addHardlink {b : Bool} {hostIno ino nb : Nat} {md5 : Option Nat}
    {Q : Unit → Globals → Mem → Prop} : (addHardlink b hostIno ino md5).wlp nb Q st m ↔
      Q () { st with hardlinks :=
        ⟨ino, hostIno % 2 ^ 32, if b then md5.getD 0 else 0⟩ :: st.hardlinks } m :=
  wlp_of_run rfl

namespace Numbered

variable {hostIno : Nat} {md5 : Option Nat}

theorem ospIno_ne_zero (h : Image g st m mf) : ∀ l ∈ st.hardlinks, l.ospIno ≠ 0 := fun l hl => by
  have := (h.hard l hl).1
  omega

theorem zero (h0 : hostIno = 0) (hadd : NewEntry d name st.nextinode mf mf')
    (hnext : st'.nextinode = st.nextinode + 1) (hlinks : st'.hardlinks = st.hardlinks) :
    Numbered d name hostIno st mf st' mf' := by
  subst h0
  refine ⟨hadd, ?_⟩
  rw [Globals.number_zero]
  unfold Globals.numbering
  rw [hnext, hlinks]

theorem new (h : Image g st m mf) (h0 : hostIno ≠ 0)
    (hlink : getHardlink false hostIno md5 st.hardlinks = 0)
    (hadd : NewEntry d name st.nextinode mf mf') (hnext : st'.nextinode = st.nextinode + 1)
    {digest : Nat}
    (hlinks : st'.hardlinks = ⟨st.nextinode, hostIno % 2 ^ 32, digest⟩ :: st.hardlinks) :
    Numbered d name hostIno st mf st' mf' := by
  have hnumber := Globals.number_new h0 (ospIno_ne_zero h) hlink
  refine ⟨by rw [hnumber]; exact hadd, ?_⟩
  rw [hnumber]
  unfold Globals.numbering
  rw [hnext, hlinks]
  rfl

theorem found (h : Image g st m mf) (h0 : hostIno ≠ 0)
    (hlink : getHardlink false hostIno md5 st.hardlinks ≠ 0)
    (hadd : NewEntry d name (getHardlink false hostIno md5 st.hardlinks) mf mf') :
    Numbered d name hostIno st mf st mf' := by
  have hnumber := Globals.number_found h0 (ospIno_ne_zero h) hlink
  exact ⟨by rw [hnumber]; exact hadd, by rw [hnumber]⟩

end Numbered

theorem Image.newFile (hg : Fits o g) (h : Image g st m mf) (hd : d < g.ninodes)
    (hdir : IsDir mf d) (hres : Reserved g mf d k name) (hz : 0 ∉ name)
    (hne : st.nextinode ≠ o.ninodes) {hl : List Hardlink}
    (hhard : ∀ l ∈ hl, l ∈ st.hardlinks ∨ l.ospIno = st.nextinode) (mode : Nat)
    (reads : List (Option { bytes : Bytes // bytes.length ≤ 1024 })) :
    (Ospfs.writeBlocks (inodeAddr st.nextinode) reads 0).wlp g.nblocks (fun _ st' m' => ∃ mf',
      Image g st' m' mf' ∧ Wrote g d (fun n => n = name) st mf st' mf' ∧
      HoldsFile mf' st.nextinode st'.nextinode d name (copied reads) ∧
      NewEntry d name st.nextinode mf mf' ∧
      st'.nextinode = st.nextinode + 1 ∧ st'.hardlinks = hl)
      { st with nextinode := st.nextinode + 1, hardlinks := hl }
      ((((m.set32 (entryAddr mf d k) st.nextinode).set32 (inodeAddr st.nextinode + 8) 1).set32
        (inodeAddr st.nextinode + 4) ftypeReg).set32 (inodeAddr st.nextinode + 12) mode) := by
  have hlt : st.nextinode < g.ninodes := by
    have := h.inodes.2
    have := hg.ninodes
    omega
  have hge := entry_ge h.tidy (h.tree.dirOk hd hdir) hres.lt
  have hfd := g.firstdata_ge
  have hia := inodeAddr_lt hlt
  have hige := inodeAddr_ge st.nextinode
  have hda := inodeAddr_lt hd
  have hdn := h.isDir_lt hd hdir
  have hsm := g.small
  have hino := g.inodes
  have hsh := (((h.shadow.set32 (a := entryAddr mf d k) (by omega) st.nextinode).set32
    (a := inodeAddr st.nextinode + 8) (by omega) 1).set32
    (a := inodeAddr st.nextinode + 4) (by omega) ftypeReg).set32
    (a := inodeAddr st.nextinode + 12) (by omega) mode
  have hw (x : Nat) (hx : x < entryAddr mf d k ∨ entryAddr mf d k + 4 ≤ x)
      (hx' : x < inodeAddr st.nextinode + 4 ∨ inodeAddr st.nextinode + 16 ≤ x) :
      (((mf.set32 (entryAddr mf d k) st.nextinode).set32 (inodeAddr st.nextinode + 8) 1).set32
        (inodeAddr st.nextinode + 4) ftypeReg).set32 (inodeAddr st.nextinode + 12) mode x =
        mf x := by
    rw [Mem.set32_of_ne (by omega), Mem.set32_of_ne (by omega), Mem.set32_of_ne (by omega),
      Mem.set32_of_ne hx]
  have hentry : ((((mf.set32 (entryAddr mf d k) st.nextinode).set32
      (inodeAddr st.nextinode + 8) 1).set32 (inodeAddr st.nextinode + 4) ftypeReg).set32
      (inodeAddr st.nextinode + 12) mode).get32 (entryAddr mf d k) = st.nextinode := by
    rw [Mem.get32_set32_ne (by omega), Mem.get32_set32_ne (by omega),
      Mem.get32_set32_ne (by omega), Mem.get32_set32_of_lt (by omega)]
  have hty : oiFtype ((((mf.set32 (entryAddr mf d k) st.nextinode).set32
      (inodeAddr st.nextinode + 8) 1).set32 (inodeAddr st.nextinode + 4) ftypeReg).set32
      (inodeAddr st.nextinode + 12) mode) (inodeAddr st.nextinode) = ftypeReg := by
    unfold oiFtype
    rw [Mem.get32_set32_ne (by omega), Mem.get32_set32_of_lt (by decide)]
  have hnl : oiNlink ((((mf.set32 (entryAddr mf d k) st.nextinode).set32
      (inodeAddr st.nextinode + 8) 1).set32 (inodeAddr st.nextinode + 4) ftypeReg).set32
      (inodeAddr st.nextinode + 12) mode) (inodeAddr st.nextinode) = 1 := by
    unfold oiNlink
    rw [Mem.get32_set32_ne (by omega), Mem.get32_set32_ne (by omega),
      Mem.get32_set32_of_lt (by decide)]
  generalize (((mf.set32 (entryAddr mf d k) st.nextinode).set32
    (inodeAddr st.nextinode + 8) 1).set32 (inodeAddr st.nextinode + 4) ftypeReg).set32
    (inodeAddr st.nextinode + 12) mode = mf₁ at hsh hw hentry hty hnl
  generalize (((m.set32 (entryAddr mf d k) st.nextinode).set32
    (inodeAddr st.nextinode + 8) 1).set32 (inodeAddr st.nextinode + 4) ftypeReg).set32
    (inodeAddr st.nextinode + 12) mode = m₁ at hsh
  have hfresh (c : Nat) (hc : c < 4 ∨ 16 ≤ c) (hc' : c < 64) :
      mf₁ (inodeAddr st.nextinode + c) = 0 := by
    rw [hw _ (by omega) (by omega)]
    exact h.fresh _ (Nat.le_refl _) hlt c hc'
  have hsize : oiSize mf₁ (inodeAddr st.nextinode) = 0 :=
    Mem.get32_of_zero fun c hc => hfresh c (.inl hc) (by omega)
  have hnd : ¬ IsDir mf₁ st.nextinode := by
    unfold IsDir
    rw [hty]
    decide
  have hparent : oiNlink mf₁ (inodeAddr d) = oiNlink mf (inodeAddr d) :=
    Mem.get32_congr fun x hx hx' => hw x (by omega) (by unfold inodeAddr at *; omega)
  obtain ⟨himg, hent⟩ := h.enterNew { st with nextinode := st.nextinode + 1, hardlinks := hl } hd
    hdir hres hz hlt hentry
    (fun x hx hx' _ => hw x hx (by omega)) (by rw [hty]; decide) hnl
    (fun _ => ⟨hsize, fun c hc hc' => hfresh c (.inr hc) hc'⟩) (.inl hparent) hsh rfl rfl
    fun l hmem => (hhard l hmem).imp_right (⟨·, hnd⟩)
  have hfile : Files g mf₁ st.nextinode := ⟨hlt, by rw [hty]; decide⟩
  have hblocks : fileBlocks mf₁ st.nextinode = 0 := by
    unfold fileBlocks
    rw [hsize]
    rfl
  have hfill : Filling g (Files g mf₁) st.nextinode 0 { st with
      nextinode := st.nextinode + 1, hardlinks := hl } m₁ mf₁ mf₁ [] := by
    refine ⟨hsh, himg.tidy, .refl, hsize, fun p => ?_, himg.onto, Nat.le_refl _, nofun⟩
    have hexact := himg.exact _ p hfile
    rwa [hblocks] at hexact
  refine wlp_mono (himg.writeBlocks hfile (Nat.lt_succ_self _) hnd reads rfl hfill rfl) ?_
  rintro _ st' m' ⟨mf', hst', himg', hk, hty', hcont⟩
  have hnext : st'.nextinode = st.nextinode + 1 := by rw [hst']
  have hdne : d ≠ st.nextinode := Nat.ne_of_lt hdn
  refine ⟨mf', himg', ?_, ⟨k, st.nextinode, Nat.le_refl _, by omega, ?_, hty'.trans hty, hcont⟩,
    (hent.newEntry hd).of_right fun k => hk.entry d k hd hdne, hnext, by rw [hst']⟩
  · have hwr : Wrote g d (fun n => n = name) st mf st mf₁ :=
      hent.wrote hd hres (.inl (Nat.le_refl _)) (Nat.le_refl _)
    exact hwr.trans (.of_kept hk hd hent.isDir (fun j hj => Nat.le_of_eq hj.symm) hdne (by omega))
  · rw [hk.entry d k hd hdne]
    exact hent.entry

/-- A further link, as `writefile` and `addsymlink` make it. -/
theorem Image.linkTo (hg : Fits o g) (h : Image g st m mf) (hd : d < g.ninodes)
    (hdir : IsDir mf d) (hres : Reserved g mf d k name) (hz : 0 ∉ name) {l : Hardlink}
    (hl : l ∈ st.hardlinks) (dirb : Nat) :
    (do
      storeWord (entryAddr mf d k) l.ospIno
      getBlock (inodeBlk o l.ospIno) false .inodes
      let nlink ← loadWord (inodePtr o l.ospIno + 8)
      storeWord (inodePtr o l.ospIno + 8) (nlink + 1)
      putBlock dirb
      putBlock (inodeBlk o l.ospIno) : Fmt Unit).wlp g.nblocks (fun _ st' m' => ∃ mf',
        Image g st' m' mf' ∧ Wrote g d (fun n => n = name) st mf st' mf' ∧
        NewEntry d name l.ospIno mf mf' ∧ st' = st) st m := by
  obtain ⟨h2, hlt, hnd⟩ := h.hard l hl
  obtain ⟨mf', himg, hent, hty⟩ := h.enterLink hd hdir hres hz h2 hlt hnd
  have hge := entry_ge h.tidy (h.tree.dirOk hd hdir) hres.lt
  have hia := inodeAddr_lt (Nat.lt_of_lt_of_le hlt h.inodes.2)
  have hige := inodeAddr_ge l.ospIno
  have hload : (m.set32 (entryAddr mf d k) l.ospIno).get32 (inodeAddr l.ospIno + 8) =
      oiNlink mf (inodeAddr l.ospIno) := by
    rw [Mem.get32_set32_ne (by omega), h.shadow.get32 (by omega)]
    rfl
  simp only [wlp_bind, wlp_storeWord, wlp_getBlock, wlp_loadWord, wlp_putBlock, hg.inodePtr, hload,
    Bool.false_eq_true, if_false]
  exact fun _ => ⟨mf', himg, hent.wrote hd hres (.inr hty) (Nat.le_refl _), hent.newEntry hd,
    trivial⟩

theorem Image.writefile (hg : Fits o g) (h : Image g st m mf) (hd : d < g.ninodes)
    (hdir : IsDir mf d) (f : HostFile) (hostIno mode : Nat) :
    (writefile o (inodeAddr d) f hostIno mode).wlp g.nblocks (fun _ st' m' => ∃ mf',
      Image g st' m' mf' ∧ Wrote g d (fun n => n = f.name) st mf st' mf' ∧
      (hostIno = 0 → o.linkContents = false →
        HoldsFile mf' st.nextinode st'.nextinode d f.name (copied f.reads)) ∧
      (o.linkContents = false → Numbered d f.name hostIno st mf st' mf')) st m := by
  unfold Ospfs.writefile
  rw [wlp_bind]
  refine wlp_mono (h.allocdirentry hd hdir f.name.2) ?_
  rintro ⟨de, dirb⟩ st₁ m₁ ⟨mf₁, k, h₁, hk₁, hst₁, hde, hres⟩
  have hdir₁ := (hk₁.isDir hd id).2 hdir
  have hn₁ : st.nextinode = st₁.nextinode := by rw [hst₁]
  have hw₁ : Wrote g d (fun n => n = f.name) st mf st₁ mf₁ :=
    .of_kept hk₁ hd hdir (fun _ => False.elim) id (Nat.le_of_eq hn₁)
  dsimp only at hde ⊢
  subst hde
  split
  case isTrue hc =>
    refine wlp_pure.2 ⟨mf₁, h₁, hw₁, fun _ hc' => ?_, fun hc' => ?_⟩
    all_goals
      rw [hc'] at hc
      cases hc.1
  have hdn := h₁.isDir_lt hd hdir₁
  have hleft {st' : Globals} {mf' : Mem} (hn : Numbered d f.name hostIno st₁ mf₁ st' mf') :
      Numbered d f.name hostIno st mf st' mf' :=
    hn.of_left (fun k => hk₁.entry d k hd id) (by rw [hst₁]; rfl)
  rw [wlp_bind, wlp_getGlobals]
  split
  · rename_i hcond
    split
    · rename_i hnone
      rw [wlp_bind]
      apply wlp_allocinode
      intro hne
      simp only [wlp_bind, wlp_storeWord, wlp_addHardlink, wlp_putBlock, hg.inodePtr]
      refine wlp_mono (h₁.newFile hg hd hdir₁ hres f.name.2 hne (fun l hl => ?_) mode f.reads) ?_
      · exact (List.mem_cons.1 hl).symm.imp_right fun he => by rw [he]
      · rintro _ st' m' ⟨mf', himg, hw, hf, hadd, hnext, hlinks⟩
        refine ⟨mf', himg, hw₁.trans hw, fun _ _ => hn₁ ▸ hf, fun hc => hleft ?_⟩
        rw [hc] at hnone
        exact .new h₁ (hcond.resolve_right (by rw [hc]; decide)) hnone hadd hnext hlinks
    · rename_i hlink
      obtain ⟨l, hl, hlino⟩ := getHardlink_mem hlink
      rw [← hlino]
      refine wlp_mono (h₁.linkTo hg hd hdir₁ hres f.name.2 hl dirb) ?_
      rintro _ st' m' ⟨mf', himg, hw, hadd, rfl⟩
      refine ⟨mf', himg, hw₁.trans hw, fun h0 hc => ?_, fun hc => hleft ?_⟩
      · rw [h0, hc] at hcond
        exact absurd hcond (by decide)
      · rw [hlino, hc] at hadd
        rw [hc] at hlink
        exact .found h₁ (hcond.resolve_right (by rw [hc]; decide)) hlink hadd
  · rename_i hcond
    rw [if_pos rfl, wlp_bind]
    apply wlp_allocinode
    intro hne
    simp only [wlp_bind, wlp_storeWord, wlp_putBlock, hg.inodePtr]
    refine wlp_mono (h₁.newFile hg hd hdir₁ hres f.name.2 hne (fun _ => .inl) mode f.reads) ?_
    rintro _ st' m' ⟨mf', himg, hw, hf, hadd, hnext, hlinks⟩
    refine ⟨mf', himg, hw₁.trans hw, fun _ _ => hn₁ ▸ hf, fun _ => hleft ?_⟩
    exact .zero (by_contra fun h0 => hcond (.inl h0)) hadd hnext hlinks

theorem Image.newSymlink (hg : Fits o g) (h : Image g st m mf) (hd : d < g.ninodes)
    (hdir : IsDir mf d) (hres : Reserved g mf d k name) (hz : 0 ∉ name)
    (hne : st.nextinode ≠ o.ninodes) (hl : List Hardlink)
    (hhard : ∀ l ∈ hl, l ∈ st.hardlinks ∨ l.ospIno = st.nextinode) {linkbuf : Bytes}
    (hlen : linkbuf.length ≤ 51) :
    ∃ mf', Image g { st with nextinode := st.nextinode + 1, hardlinks := hl }
      (((((m.set32 (entryAddr mf d k) st.nextinode).set32 (inodeAddr st.nextinode + 8) 1).set32
        (inodeAddr st.nextinode + 4) ftypeSymlink).store (inodeAddr st.nextinode + 12)
        (linkbuf ++ [0])).set32 (inodeAddr st.nextinode) linkbuf.length) mf' ∧
      Wrote g d (fun n => n = name) st mf { st with
        nextinode := st.nextinode + 1, hardlinks := hl } mf' ∧
      NewEntry d name st.nextinode mf mf' := by
  have hlt : st.nextinode < g.ninodes := by
    have := h.inodes.2
    have := hg.ninodes
    omega
  have hge := entry_ge h.tidy (h.tree.dirOk hd hdir) hres.lt
  have hfd := g.firstdata_ge
  have hia := inodeAddr_lt hlt
  have hige := inodeAddr_ge st.nextinode
  have hda := inodeAddr_lt hd
  have hdn := h.isDir_lt hd hdir
  have hsm := g.small
  have hino := g.inodes
  have hbuf : (linkbuf ++ [0]).length ≤ 52 := by
    rw [List.length_append, List.length_singleton]
    omega
  have hsh := ((((h.shadow.set32 (a := entryAddr mf d k) (by omega) st.nextinode).set32
    (a := inodeAddr st.nextinode + 8) (by omega) 1).set32
    (a := inodeAddr st.nextinode + 4) (by omega) ftypeSymlink).store
    (a := inodeAddr st.nextinode + 12) (by omega) (linkbuf ++ [0])).set32
    (a := inodeAddr st.nextinode) (by omega) linkbuf.length
  generalize hmf₁ : ((((mf.set32 (entryAddr mf d k) st.nextinode).set32
    (inodeAddr st.nextinode + 8) 1).set32 (inodeAddr st.nextinode + 4) ftypeSymlink).store
    (inodeAddr st.nextinode + 12) (linkbuf ++ [0])).set32 (inodeAddr st.nextinode)
    linkbuf.length = mf₁ at hsh
  have hw (x : Nat) (hx : x < entryAddr mf d k ∨ entryAddr mf d k + 4 ≤ x)
      (hx' : x < inodeAddr st.nextinode ∨ inodeAddr st.nextinode + 64 ≤ x) : mf₁ x = mf x := by
    rw [← hmf₁, Mem.set32_of_ne (by omega), Mem.store_of_ne (by omega), Mem.set32_of_ne (by omega),
      Mem.set32_of_ne (by omega), Mem.set32_of_ne hx]
  have hentry : mf₁.get32 (entryAddr mf d k) = st.nextinode := by
    rw [← hmf₁, Mem.get32_set32_ne (by omega), Mem.get32_store_ne (by omega),
      Mem.get32_set32_ne (by omega), Mem.get32_set32_ne (by omega),
      Mem.get32_set32_of_lt (by omega)]
  have hty : oiFtype mf₁ (inodeAddr st.nextinode) = ftypeSymlink := by
    unfold oiFtype
    rw [← hmf₁, Mem.get32_set32_ne (by omega), Mem.get32_store_ne (by omega),
      Mem.get32_set32_of_lt (by decide)]
  have hnl : oiNlink mf₁ (inodeAddr st.nextinode) = 1 := by
    unfold oiNlink
    rw [← hmf₁, Mem.get32_set32_ne (by omega), Mem.get32_store_ne (by omega),
      Mem.get32_set32_ne (by omega), Mem.get32_set32_of_lt (by decide)]
  have hnd : ¬ IsDir mf₁ st.nextinode := by
    unfold IsDir
    rw [hty]
    decide
  have hparent : oiNlink mf₁ (inodeAddr d) = oiNlink mf (inodeAddr d) :=
    Mem.get32_congr fun x hx hx' => hw x (by omega) (by unfold inodeAddr at *; omega)
  obtain ⟨himg, hent⟩ := h.enterNew { st with nextinode := st.nextinode + 1, hardlinks := hl } hd
    hdir hres hz hlt hentry
    (fun x hx hx' _ => hw x hx hx') (by rw [hty]) hnl (fun hsym => absurd hty hsym) (.inl hparent)
    hsh rfl rfl fun l hmem => (hhard l hmem).imp_right (⟨·, hnd⟩)
  exact ⟨mf₁, himg, hent.wrote hd hres (.inl (Nat.le_refl _)) (Nat.le_succ _), hent.newEntry hd⟩

theorem Image.addsymlink (hg : Fits o g) (h : Image g st m mf) (hd : d < g.ninodes)
    (hdir : IsDir mf d) (hz : 0 ∉ name) (linkbuf : Bytes) (hostIno : Nat) :
    (addsymlink o (inodeAddr d) name linkbuf hostIno).wlp g.nblocks (fun _ st' m' => ∃ mf',
      Image g st' m' mf' ∧ Wrote g d (fun n => n = name) st mf st' mf' ∧
      (o.linkContents = false → Numbered d name hostIno st mf st' mf')) st m := by
  unfold Ospfs.addsymlink
  rw [wlp_bind]
  refine wlp_mono (h.allocdirentry hd hdir hz) ?_
  rintro ⟨de, dirb⟩ st₁ m₁ ⟨mf₁, k, h₁, hk₁, hst₁, hde, hres⟩
  have hdir₁ := (hk₁.isDir hd id).2 hdir
  have hn₁ : st.nextinode = st₁.nextinode := by rw [hst₁]
  have hw₁ : Wrote g d (fun n => n = name) st mf st₁ mf₁ :=
    .of_kept hk₁ hd hdir (fun _ => False.elim) id (Nat.le_of_eq hn₁)
  have hleft {st' : Globals} {mf' : Mem} (hn : Numbered d name hostIno st₁ mf₁ st' mf') :
      Numbered d name hostIno st mf st' mf' :=
    hn.of_left (fun k => hk₁.entry d k hd id) (by rw [hst₁]; rfl)
  dsimp only at hde ⊢
  subst hde
  rw [wlp_bind, wlp_getGlobals]
  split
  · rename_i hcond
    split
    · rename_i hnone
      rw [wlp_bind]
      apply wlp_allocinode
      intro hne
      simp only [wlp_bind, wlp_storeWord, wlp_addHardlink, hg.inodePtr]
      split
      · exact wlp_abort
      · simp only [wlp_bind, wlp_storeWord, wlp_storeBytes, wlp_putBlock]
        obtain ⟨mf', himg, hw, hadd⟩ := h₁.newSymlink hg hd hdir₁ hres hz hne
          (⟨st₁.nextinode, hostIno % 2 ^ 32, _⟩ :: st₁.hardlinks) (fun l hl =>
            (List.mem_cons.1 hl).symm.imp_right fun he => by rw [he]) (Nat.not_lt.1 ‹_›)
        refine ⟨mf', himg, hw₁.trans hw, fun hc => hleft ?_⟩
        rw [hc] at hnone
        exact .new h₁ hcond hnone hadd rfl rfl
    · rename_i hlink
      obtain ⟨l, hl, hlino⟩ := getHardlink_mem hlink
      rw [← hlino]
      refine wlp_mono (h₁.linkTo hg hd hdir₁ hres hz hl dirb) ?_
      rintro _ st' m' ⟨mf', himg, hw, hadd, rfl⟩
      refine ⟨mf', himg, hw₁.trans hw, fun hc => hleft ?_⟩
      rw [hlino, hc] at hadd
      rw [hc] at hlink
      exact .found h₁ hcond hlink hadd
  · rename_i hcond
    rw [if_pos rfl, wlp_bind]
    apply wlp_allocinode
    intro hne
    simp only [wlp_bind, wlp_storeWord, hg.inodePtr]
    split
    · exact wlp_abort
    · simp only [wlp_bind, wlp_storeWord, wlp_storeBytes, wlp_putBlock]
      obtain ⟨mf', himg, hw, hadd⟩ := h₁.newSymlink hg hd hdir₁ hres hz hne st₁.hardlinks
        (fun _ => .inl) (Nat.not_lt.1 ‹_›)
      exact ⟨mf', himg, hw₁.trans hw, fun _ => hleft
        (.zero (not_not.1 hcond) hadd rfl rfl)⟩

theorem Image.newDir (hg : Fits o g) (h : Image g st m mf) (hd : d < g.ninodes)
    (hdir : IsDir mf d) (hres : Reserved g mf d k name) (hz : 0 ∉ name)
    (hne : st.nextinode ≠ o.ninodes) (mode : Nat) :
    ∃ mf', Image g { st with nextinode := st.nextinode + 1 }
      ((((((m.set32 (entryAddr mf d k) st.nextinode).set32 (inodeAddr d + 8)
        (oiNlink mf (inodeAddr d) + 1)).set32 (inodeAddr st.nextinode + 4) ftypeDir).set32
        (inodeAddr st.nextinode) 0).set32 (inodeAddr st.nextinode + 8) 1).set32
        (inodeAddr st.nextinode + 12) mode) mf' ∧
      Entered g mf mf' d k st.nextinode name ∧ IsDir mf' st.nextinode ∧
      oiSize mf' (inodeAddr st.nextinode) = 0 := by
  have hlt : st.nextinode < g.ninodes := by
    have := h.inodes.2
    have := hg.ninodes
    omega
  have hge := entry_ge h.tidy (h.tree.dirOk hd hdir) hres.lt
  have hfd := g.firstdata_ge
  have hia := inodeAddr_lt hlt
  have hige := inodeAddr_ge st.nextinode
  have hdge := inodeAddr_ge d
  have hda := inodeAddr_lt hd
  have hdn := h.isDir_lt hd hdir
  have hsm := g.small
  have hino := g.inodes
  have hnlinks := h.dirs d hd hdir
  have hsep : inodeAddr d + 64 ≤ inodeAddr st.nextinode := by
    unfold inodeAddr
    omega
  have hsh := (((((h.shadow.set32 (a := entryAddr mf d k) (by omega) st.nextinode).set32
    (a := inodeAddr d + 8) (by omega) (oiNlink mf (inodeAddr d) + 1)).set32
    (a := inodeAddr st.nextinode + 4) (by omega) ftypeDir).set32
    (a := inodeAddr st.nextinode) (by omega) 0).set32
    (a := inodeAddr st.nextinode + 8) (by omega) 1).set32
    (a := inodeAddr st.nextinode + 12) (by omega) mode
  generalize hmf₁ : (((((mf.set32 (entryAddr mf d k) st.nextinode).set32 (inodeAddr d + 8)
    (oiNlink mf (inodeAddr d) + 1)).set32 (inodeAddr st.nextinode + 4) ftypeDir).set32
    (inodeAddr st.nextinode) 0).set32 (inodeAddr st.nextinode + 8) 1).set32
    (inodeAddr st.nextinode + 12) mode = mf₁ at hsh
  have hw (x : Nat) (hx : x < entryAddr mf d k ∨ entryAddr mf d k + 4 ≤ x)
      (hx' : x < inodeAddr st.nextinode ∨ inodeAddr st.nextinode + 16 ≤ x)
      (hx'' : x < inodeAddr d + 8 ∨ inodeAddr d + 12 ≤ x) : mf₁ x = mf x := by
    rw [← hmf₁, Mem.set32_of_ne (by omega), Mem.set32_of_ne (by omega), Mem.set32_of_ne (by omega),
      Mem.set32_of_ne (by omega), Mem.set32_of_ne (by omega), Mem.set32_of_ne hx]
  have hentry : mf₁.get32 (entryAddr mf d k) = st.nextinode := by
    rw [← hmf₁, Mem.get32_set32_ne (by omega), Mem.get32_set32_ne (by omega),
      Mem.get32_set32_ne (by omega), Mem.get32_set32_ne (by omega), Mem.get32_set32_ne (by omega),
      Mem.get32_set32_of_lt (by omega)]
  have hty : oiFtype mf₁ (inodeAddr st.nextinode) = ftypeDir := by
    unfold oiFtype
    rw [← hmf₁, Mem.get32_set32_ne (by omega), Mem.get32_set32_ne (by omega),
      Mem.get32_set32_ne (by omega), Mem.get32_set32_of_lt (by decide)]
  have hsize : oiSize mf₁ (inodeAddr st.nextinode) = 0 := by
    unfold oiSize
    rw [← hmf₁, Mem.get32_set32_ne (by omega), Mem.get32_set32_ne (by omega),
      Mem.get32_set32_of_lt (by decide)]
  have hnl : oiNlink mf₁ (inodeAddr st.nextinode) = 1 := by
    unfold oiNlink
    rw [← hmf₁, Mem.get32_set32_ne (by omega), Mem.get32_set32_of_lt (by decide)]
  have hparent : oiNlink mf₁ (inodeAddr d) = oiNlink mf (inodeAddr d) + 1 := by
    rw [← hmf₁]
    unfold oiNlink at *
    rw [Mem.get32_set32_ne (by omega), Mem.get32_set32_ne (by omega), Mem.get32_set32_ne (by omega),
      Mem.get32_set32_ne (by omega), Mem.get32_set32_of_lt (by omega)]
  have hfresh (c : Nat) (hc : 16 ≤ c) (hc' : c < 64) : mf₁ (inodeAddr st.nextinode + c) = 0 := by
    rw [hw _ (by omega) (by omega) (by omega)]
    exact h.fresh _ (Nat.le_refl _) hlt c hc'
  obtain ⟨himg, hent⟩ := h.enterNew { st with nextinode := st.nextinode + 1 } hd hdir hres hz hlt
    hentry (fun x hx hx' hx'' => hw x hx (by omega) hx'') (by rw [hty]; decide) hnl
    (fun _ => ⟨hsize, hfresh⟩) (.inr hparent) hsh rfl rfl fun l hmem => .inl hmem
  exact ⟨mf₁, himg, hent, hty, hsize⟩

end OsLabs.Ospfs
