import OsLabs.Lib.Runs
import OsLabs.Ospfs.FollowLink
import OsLabs.Ospfs.Standing
import OsLabs.Ospfs.Writedir

/-!
# OSPFS: symbolic links and their targets

`ospfs_symlink` copies the bytes of the target into a free inode and no NUL behind them. What
`ospfs_follow_link` hands out then ends where the inode happens to hold a zero, which depends on
what it held before. `symlink_handsOut_iff` says when the target comes back, after any run of
calls from a formatted image.
-/

namespace OsLabs.Ospfs

variable {o : Options} {g : Geometry} {st : Globals} {m m' : Mem} {d ino oi : Nat}
  {name symname : Bytes}

/-! ## Runs from a formatted image -/

theorem Image.writeFiles (hg : Fits o g) (fs : List HostFile) : ∀ {st : Globals}
    {m mf : Mem}, Image g st m mf → d < g.ninodes → IsDir mf d →
    (Ospfs.writeFiles o (inodeAddr d) fs).wlp g.nblocks (fun _ st' m' => ∃ mf', Image g st' m' mf' ∧
      IsDir mf' d) st m := by
  induction fs with
  | nil =>
    intro st m mf h _ hdir
    exact BlockProg.wlp_pure.2 ⟨mf, h, hdir⟩
  | cons f fs ih =>
    intro st m mf h hd hdir
    rw [Ospfs.writeFiles, BlockProg.wlp_bind]
    refine BlockProg.wlp_mono (h.writefile hg hd hdir f _ _) ?_
    rintro _ st₁ m₁ ⟨mf₁, h₁, hw₁, -, -⟩
    exact ih h₁ hd hw₁.isDir

theorem Image.writeSource {mf : Mem} (hg : Fits o g) (h : Image g st m mf) (h1 : 1 < g.ninodes)
    (hdir : IsDir mf 1) : (Ospfs.writeSource o (inodeAddr 1)).wlp g.nblocks
      (fun _ st' m' => ∃ mf', Image g st' m' mf' ∧ IsDir mf' 1) st m := by
  have hlinks {st₁ : Globals} {m₁ : Mem} (h₁ : ∃ mf₁, Image g st₁ m₁ mf₁ ∧ IsDir mf₁ 1) :
      (Ospfs.addLinks o (inodeAddr 1) o.links).wlp g.nblocks
        (fun _ st' m' => ∃ mf', Image g st' m' mf' ∧ IsDir mf' 1) st₁ m₁ := by
    obtain ⟨mf₁, himg₁, hdir₁⟩ := h₁
    refine BlockProg.wlp_mono (himg₁.addLinks hg o.links h1 hdir₁) ?_
    rintro _ st₂ m₂ ⟨mf₂, himg₂, hw₂⟩
    exact ⟨mf₂, himg₂, hw₂.isDir⟩
  unfold Ospfs.writeSource
  cases o.source with
  | recursive dir =>
    simp only [BlockProg.wlp_bind]
    refine BlockProg.wlp_mono (h.writedirectory hg dir h1 hdir) ?_
    rintro _ st₁ m₁ ⟨mf₁, himg₁, hw₁, -⟩
    exact hlinks ⟨mf₁, himg₁, hw₁.isDir⟩
  | files fs =>
    simp only [BlockProg.wlp_bind]
    exact BlockProg.wlp_mono (Image.writeFiles hg fs h h1 hdir) fun _ _ _ => hlinks

/-- The disk is an image, with inode 1 its root directory. -/
theorem formatted_root (h : formatted o = some (st, m)) :
    ∃ g mc, Fits o g ∧ Image g st mc m ∧ IsDir m 1 := by
  obtain ⟨g, mf, hg, ⟨mc, himg⟩, hk, hroot⟩ := formatted_of_writeSource
    (P := fun _ _ mf => IsDir mf 1)
    (fun g hg mf himg hdir _ => himg.writeSource hg (by have := himg.inodes; omega) hdir) h
  exact ⟨g, mc, hg, himg, (hk.isDir (by have := himg.inodes; omega) id).2 hroot⟩

theorem formatted_fits (h : formatted o = some (st, m)) : ∃ g mc, Fits o g ∧ Image g st mc m := by
  obtain ⟨g, mc, hg, himg, -⟩ := formatted_root h
  exact ⟨g, mc, hg, himg⟩

/-- The calls of a mounted file system, from the image that these options give. -/
def dirCalls (o : Options) : System Mem DirCall where
  Init m := ∃ st, formatted o = some (st, m)
  Step m c m' := c.Issued m ∧ ∃ r, c.run m = some (r, m')

/-- In every state of a run that starts no new table the invariant holds. -/
theorem standing_of_run {calls : List DirCall}
    (h : (dirCalls o).RunIf (fun m c => c.Contained m) calls m) : ∃ g, Standing g m := by
  refine h.inv (I := fun _ m => ∃ g, Standing g m) ?_ ?_
  · rintro m ⟨st, hf⟩
    obtain ⟨g, mc, -, himg⟩ := formatted_fits hf
    exact ⟨g, himg.standing⟩
  · rintro _ m c m' ⟨g, hst⟩ hc ⟨hi, r, hr⟩
    exact ⟨g, hst.step hi hc hr⟩

/-! ## The text of a new link -/

/-- Inode `ino` holds the text `symname`; the bytes behind it are those of the disk `m`. -/
structure TextStored (m m' : Mem) (ino : Nat) (symname : Bytes) : Prop where
  before : ospfsInode m ino = some (inodeAddr ino)
  inode : ospfsInode m' ino = some (inodeAddr ino)
  behind : 1040 ≤ inodeAddr ino
  fits : symname.length ≤ 51
  text : m'.load (oiSymlink (inodeAddr ino)) symname.length = symname
  stale : ∀ i, symname.length ≤ i → i < 52 →
    m' (oiSymlink (inodeAddr ino) + i) = m (oiSymlink (inodeAddr ino) + i)

theorem initSymlink_text (m : Mem) (oi : Nat) (symname : Bytes) :
    (initSymlink m oi symname).load (oi + 12) symname.length = symname := by
  refine List.ext_getElem Mem.length_load fun i h1 h2 => ?_
  rw [Mem.getElem_load]
  exact Mem.store_of_lt h2

theorem initSymlink_stale {i : Nat} (hi : symname.length ≤ i) :
    initSymlink m oi symname (oi + 12 + i) = m (oi + 12 + i) := by
  unfold initSymlink
  rw [Mem.store_of_ne (by omega), Mem.set32_of_ne (by omega), Mem.set32_of_ne (by omega),
    Mem.set32_of_ne (by omega)]

theorem Standing.stored (h : Standing g m) (hd : d < g.ninodes) (hdir : IsDir m d)
    (hno : StaysInTables m d) {newInode : Bool}
    (hr : ospfsSymlink m d name symname newInode = some (.ok (), m')) :
    ∃ ino, Ospfs.findFreeInode m = some ino ∧ TextStored m m' ino symname := by
  rcases h.symlink_cases hd hr with ⟨-, hne⟩ | ⟨ino, hf, hlt, hnd, hlen, hlen', hent⟩
  · exact absurd rfl hne
  have ht := h.enterNew hd hdir hno (.symlink hlt hnd hlen') hlen hent
  have hne : ino ≠ d := by
    rintro rfl
    exact hnd hdir
  have hsame := ht.others ino hlt hne
  have hge := inodeAddr_ge ino
  refine ⟨ino, hf, h.tidy.ospfsInode hlt, ht.standing.tidy.ospfsInode hlt, by omega, hlen', ?_,
    fun i hi hi' => ?_⟩
  · unfold oiSymlink
    rw [Mem.load_congr fun x hx hx' => hsame x (by omega) (by omega)]
    exact initSymlink_text m _ symname
  · unfold oiSymlink
    rw [hsame _ (by omega) (by omega)]
    exact initSymlink_stale hi

/-! ## What a follower gets -/

def HandsOut (m : Mem) (ino : Nat) (target : Bytes) : Prop :=
  ∀ uid, (follow m ino uid).1 = some target

/-- What stands behind the text where it will be stored: a zero, or the rest of `root?S:S`
for a text `S` that `root?` begins with. -/
def TextEnds (m : Mem) (ino : Nat) (symname : Bytes) : Prop :=
  ∃ oi, ospfsInode m ino = some oi ∧ (m (oiSymlink oi + symname.length) = 0 ∨
    (symname <+: rootMark ∧ m.IsString (oiSymlink oi + symname.length)
      ((conditionalTarget symname symname).drop symname.length)))

theorem length_conditionalTarget (a b : Bytes) :
    (conditionalTarget a b).length = 6 + a.length + b.length := by
  simp only [conditionalTarget, rootMark, List.length_append, List.length_cons, List.length_nil]
  omega

theorem append_drop_conditionalTarget {a b s : Bytes} (h : s <+: rootMark) :
    s ++ (conditionalTarget a b).drop s.length = conditionalTarget a b := by
  have hpre : s <+: conditionalTarget a b := by
    rw [conditionalTarget, List.append_assoc]
    exact h.trans (List.prefix_append _ _)
  conv_rhs => rw [← List.take_append_drop s.length (conditionalTarget a b)]
  rw [← List.prefix_iff_eq_take.1 hpre]

theorem follow_plain (hi : ospfsInode m ino = some oi) (hl : m.load (oiSymlink oi) 5 ≠ rootMark)
    (uid : Nat) : follow m ino uid = (some (m.cString (oiSymlink oi)), m) := by
  unfold follow ospfsFollowLink
  simp [hi, hl]

theorem colon_behind {a c : Nat} (hl : m.load a 5 = rootMark) (hc : m.strchr a 58 = some c) :
    a + 5 ≤ c := by
  obtain ⟨ha, hcolon, -⟩ := Mem.strchrFrom_some hc
  refine Nat.le_of_not_lt fun hlt => ?_
  have hlen : c - a < (m.load a 5).length := by
    rw [Mem.length_load]
    omega
  have hmem : m (a + (c - a)) ∈ m.load a 5 := by
    rw [← Mem.getElem_load hlen]
    exact List.getElem_mem hlen
  rw [Nat.add_sub_cancel' (by omega), hcolon, hl] at hmem
  exact rootMark_colon hmem

/-- `root?`, what is read between the question mark and the overwritten colon, and what is
read behind the colon. -/
theorem isString_conditionalTarget {a c : Nat} {s t : Bytes} (hl : m.load a 5 = rootMark)
    (hs : s.length < 2 ^ 32) (ht : t.length < 2 ^ 32) (hc : m.strchr a 58 = some c)
    (hafter : m.cString (c + 1) = t) (hbefore : (m.store c [0]).cString (a + 5) = s) :
    m.IsString a (conditionalTarget s t) := by
  obtain ⟨-, hcolon, hno⟩ := Mem.strchrFrom_some hc
  have hbehind := Mem.isString_cStringFrom hafter ht
  have hfront := Mem.isString_cStringFrom hbefore hs
  have hle := colon_behind hl hc
  have hsame {x : Nat} (hx : x ≠ c) : m.store c [0] x = m x := by
    refine Mem.store_of_ne ?_
    rw [List.length_singleton]
    omega
  -- the text in front ends where the colon was
  have hend : c = a + 5 + s.length := by
    rcases Nat.lt_trichotomy c (a + 5 + s.length) with hlt | heq | hgt
    · have hnul : m.store c [0] (c + 0) = 0 := Mem.store_of_lt (by decide)
      have hbyte := hfront.byte (i := c - (a + 5)) (by omega)
      rw [Nat.add_sub_cancel' hle] at hbyte
      exact absurd hnul hbyte
    · exact heq
    · have hnul : m.store c [0] (a + 5 + s.length) = 0 := hfront.last
      rw [hsame (by omega)] at hnul
      exact absurd hnul (hno _ (by omega) hgt)
  have hs0 := hfront.ne_zero
  have hloaded : m.load (a + 5) s.length = s := by
    rw [← Mem.load_congr fun x _ _ => hsame (x := x) (by omega)]
    exact Mem.IsString.load (t := []) (by rwa [List.append_nil])
  subst hend
  have hrest : m.IsString (a + 5) (s ++ 58 :: t) :=
    .prepend hloaded hs0 ⟨hcolon, by decide, hbehind⟩
  rw [conditionalTarget, List.append_assoc]
  exact .prepend (s := rootMark) hl (by decide) hrest

theorem doubled_of_follow {s : Bytes} (hi : ospfsInode m ino = some oi)
    (hl : m.load (oiSymlink oi) 5 = rootMark) (hs : s.length < 2 ^ 32)
    (hother : (follow m ino 1).1 = some s) (hroot : (follow m ino 0).1 = some s) :
    m.IsString (oiSymlink oi) (conditionalTarget s s) := by
  unfold follow ospfsFollowLink at hother hroot
  simp only [hi, hl, Option.bind_eq_bind, Option.bind_some, if_true, if_neg Nat.one_ne_zero]
    at hother hroot
  rcases hc : m.strchr (oiSymlink oi) 58 with _ | c
  · rw [hc] at hother
    cases hother
  rw [hc] at hother hroot
  simp only [Option.map_some, Option.bind_some, Option.pure_def] at hother hroot
  have hle := colon_behind hl hc
  have hl' : (m.store c [0]).load (oiSymlink oi) 5 = rootMark := by
    rw [← hl]
    exact Mem.load_congr fun x _ _ => Mem.store_of_ne (by omega)
  have hmark : (m.store c [0]).strchr (oiSymlink oi) 63 = some (oiSymlink oi + 4) := by
    refine Mem.strchrFrom_behind (s := [114, 111, 111, 116]) ?_ (by decide) (by decide) ?_
      (by decide)
    · have hpre := Mem.load_prefix (m.store c [0]) (oiSymlink oi) (show 4 ≤ 5 by decide)
      rw [hl', List.prefix_iff_eq_take, Mem.length_load] at hpre
      exact hpre
    · have hlen : 4 < ((m.store c [0]).load (oiSymlink oi) 5).length := by
        rw [Mem.length_load]
        decide
      have hbyte := Mem.getElem_load hlen
      simp only [hl'] at hbyte
      exact hbyte.symm
  rw [hmark] at hroot
  exact isString_conditionalTarget hl hs hs hc (Option.some.inj hother) (Option.some.inj hroot)

namespace TextStored

theorem rootMark_prefix (h : TextStored m m' ino symname) (h5 : 5 ≤ symname.length)
    (hl : m'.load (oiSymlink (inodeAddr ino)) 5 = rootMark) : rootMark <+: symname := by
  rw [← hl, ← h.text]
  exact Mem.load_prefix _ _ h5

theorem prefix_rootMark (h : TextStored m m' ino symname) (h5 : symname.length ≤ 5)
    (hl : m'.load (oiSymlink (inodeAddr ino)) 5 = rootMark) : symname <+: rootMark := by
  rw [← hl]
  conv_lhs => rw [← h.text]
  exact Mem.load_prefix _ _ h5

theorem handsOut_of_zero (h : TextStored m m' ino symname) (hz : 0 ∉ symname)
    (hroot : ¬ rootMark <+: symname)
    (h0 : m (oiSymlink (inodeAddr ino) + symname.length) = 0) : HandsOut m' ino symname := by
  have hfits := h.fits
  have hend : m' (oiSymlink (inodeAddr ino) + symname.length) = 0 := by
    rw [h.stale _ (Nat.le_refl _) (by omega)]
    exact h0
  have hstring : m'.IsString (oiSymlink (inodeAddr ino)) symname := by
    have := Mem.IsString.prepend (t := []) h.text hz hend
    rwa [List.append_nil] at this
  have hplain : m'.load (oiSymlink (inodeAddr ino)) 5 ≠ rootMark := by
    intro hl
    rcases Nat.lt_or_ge symname.length 5 with hlt | hge
    · have hlen : symname.length < (m'.load (oiSymlink (inodeAddr ino)) 5).length := by
        rwa [Mem.length_load]
      have hzero : (0 : UInt8) ∈ m'.load (oiSymlink (inodeAddr ino)) 5 := by
        rw [← hend, ← Mem.getElem_load hlen]
        exact List.getElem_mem hlen
      rw [hl] at hzero
      revert hzero
      decide
    · exact hroot (h.rootMark_prefix hge hl)
  intro uid
  rw [follow_plain h.inode hplain, hstring.cString (by omega)]

theorem short (h : TextStored m m' ino symname) (hroot : ¬ rootMark <+: symname)
    (hl : m'.load (oiSymlink (inodeAddr ino)) 5 = rootMark) : symname.length < 5 :=
  Nat.lt_of_not_le fun hge => hroot (h.rootMark_prefix hge hl)

/-- The bytes behind the text make `root?S:S` of it. -/
theorem handsOut_of_doubled (h : TextStored m m' ino symname) (hz : 0 ∉ symname)
    (hroot : ¬ rootMark <+: symname) (hpre : symname <+: rootMark)
    (hrest : m.IsString (oiSymlink (inodeAddr ino) + symname.length)
      ((conditionalTarget symname symname).drop symname.length)) : HandsOut m' ino symname := by
  have hlt : symname.length < 5 := by
    refine Nat.lt_of_le_of_ne hpre.length_le fun he => hroot ?_
    rw [hpre.eq_of_length he]
  have htarget : m'.IsString (oiSymlink (inodeAddr ino)) (conditionalTarget symname symname) := by
    rw [← append_drop_conditionalTarget hpre]
    refine Mem.IsString.prepend h.text hz (hrest.congr fun x h1 h2 => ?_)
    rw [List.length_drop, length_conditionalTarget] at h2
    have := h.stale (x - oiSymlink (inodeAddr ino)) (by omega) (by omega)
    rwa [Nat.add_sub_cancel' (by omega)] at this
  have hcond : Conditional m' ino (inodeAddr ino) symname symname :=
    ⟨h.inode, h.behind, htarget, by
      rw [length_conditionalTarget]
      omega, fun hm => rootMark_colon (hpre.subset hm)⟩
  intro uid
  by_cases hu : uid = 0
  · rw [hu, hcond.follow_root]
  · rw [hcond.follow_other hu]

theorem ends_of_handsOut (h : TextStored m m' ino symname)
    (hroot : ¬ rootMark <+: symname) (hout : HandsOut m' ino symname) : TextEnds m ino symname := by
  have hfits := h.fits
  refine ⟨_, h.before, ?_⟩
  by_cases hl : m'.load (oiSymlink (inodeAddr ino)) 5 = rootMark
  · have hlt := h.short hroot hl
    have hpre := h.prefix_rootMark (by omega) hl
    have htarget := doubled_of_follow h.inode hl (by omega) (hout 1) (hout 0)
    rw [← append_drop_conditionalTarget hpre] at htarget
    refine .inr ⟨hpre, htarget.append.congr fun x h1 h2 => ?_⟩
    rw [List.length_drop, length_conditionalTarget] at h2
    have hsame := h.stale (x - oiSymlink (inodeAddr ino)) (by omega) (by omega)
    rw [Nat.add_sub_cancel' (by omega)] at hsame
    exact hsame.symm
  · left
    have hcs := hout 1
    rw [follow_plain h.inode hl, Option.some.injEq] at hcs
    have hstring := Mem.isString_cStringFrom hcs (by omega)
    rw [← h.stale _ (Nat.le_refl _) (by omega)]
    exact hstring.last

end TextStored

/-- **A symbolic link returns its target**, after any run that starts no new table in a
directory, exactly where the bytes that its inode held before end the text. -/
theorem symlink_handsOut_iff {calls : List DirCall}
    (hrun : (dirCalls o).RunIf (fun m c => c.Contained m) calls m) {newInode : Bool}
    (hissued : DirCall.Issued m (.enter d (.symlink name symname newInode)))
    (hstays : StaysInTables m d) (hroot : ¬ rootMark <+: symname)
    (hr : ospfsSymlink m d name symname newInode = some (.ok (), m')) :
    ∃ ino, findFreeInode m = some ino ∧ (HandsOut m' ino symname ↔ TextEnds m ino symname) := by
  obtain ⟨g, hst⟩ := standing_of_run hrun
  obtain ⟨hd, hdir⟩ := hst.isDirectory_iff.1 hissued.1
  obtain ⟨ino, hf, ht⟩ := hst.stored hd hdir hstays hr
  refine ⟨ino, hf, fun hout => ht.ends_of_handsOut hroot hout, ?_⟩
  rintro ⟨oi, hoi, hends⟩
  cases hoi.symm.trans ht.before
  rcases hends with h0 | ⟨hpre, hrest⟩
  · exact ht.handsOut_of_zero hissued.2 hroot h0
  · exact ht.handsOut_of_doubled hissued.2 hroot hpre hrest

/-! ## A link over an older one -/

instance (m : Mem) (n : Nat) : Decidable (IsDirectory m n) :=
  decidable_of_iff ((ospfsInode m n).any fun oi => oiFtype m oi = ftypeDir) (by
    unfold IsDirectory
    rw [Option.any_eq_true]
    simp only [decide_eq_true_eq])

instance (n k : Nat) : Decidable (Volume.NoNewTable n k) :=
  inferInstanceAs (Decidable (∀ i, n ≤ i → i < k → i < 266 ∨ (i - 266) % 256 ≠ 0))

instance (m : Mem) (n : Nat) : Decidable (StaysInTables m n) :=
  inferInstanceAs (Decidable ((∀ k < entries m n, odIno m (entryAddr m n k) ≠ 0) → _))

instance (m : Mem) : DecidablePred (DirCall.Issued m)
  | .enter _ (.create _ _ _) => inferInstanceAs (Decidable (_ ∧ _))
  | .enter _ (.symlink _ _ _) => inferInstanceAs (Decidable (_ ∧ _))
  | .enter _ (.link _ _) => inferInstanceAs (Decidable (_ ∧ _))
  | .unlink _ _ _ => inferInstanceAs (Decidable (_ ∧ _))

instance (m : Mem) : DecidablePred (DirCall.Contained m)
  | .enter _ _ => inferInstanceAs (Decidable (StaysInTables _ _))
  | .unlink _ _ _ => inferInstanceAs (Decidable True)

/-- An image whose root directory has the one entry `l`, a link to `target`. -/
def oneLink (target : CString) : Options :=
  ⟨8192, 16, false, [], .recursive (.symlink ⟨[108], by decide⟩ 1 7 target .nil)⟩

/-- The disks before and after `ln -s symname x`, where `l` has been removed before. -/
def relink (target : CString) (symname : Bytes) : Option (Mem × Mem) := do
  let (_, m) ← formatted (oneLink target)
  let m ← System.execIf (fun m c => decide (DirCall.Issued m c ∧ c.Contained m))
    (fun m c => (DirCall.run m c).map Prod.snd) m [.unlink 1 [108] 2]
  match ospfsSymlink m 1 [120] symname true with
  | some (.ok (), m') => some (m, m')
  | _ => none

theorem relink_run {target : CString} (h : relink target symname = some (m, m')) :
    (dirCalls (oneLink target)).RunIf (fun m c => c.Contained m) [.unlink 1 [108] 2] m ∧
      ospfsSymlink m 1 [120] symname true = some (.ok (), m') := by
  unfold relink at h
  obtain ⟨⟨st, m₀⟩, hf, h⟩ := Option.bind_eq_some_iff.1 h
  obtain ⟨m₁, he, h⟩ := Option.bind_eq_some_iff.1 h
  split at h
  · cases h
    refine ⟨(System.RunIf.init (M := dirCalls _) ⟨st, hf⟩).append_execIf ?_ he, ‹_›⟩
    intro m c m' hc hr
    obtain ⟨hissued, hcont⟩ := of_decide_eq_true hc
    obtain ⟨⟨r, m''⟩, hrun, rfl⟩ := Option.map_eq_some_iff.1 hr
    exact ⟨hcont, hissued, r, hrun⟩
  · cases h

theorem symlink_handsOut_longer : ∃ m m', (dirCalls (oneLink ⟨[121], by decide⟩)).RunIf
    (fun m c => c.Contained m) [.unlink 1 [108] 2] m ∧
      ospfsSymlink m 1 [120] [121, 122] true = some (.ok (), m') ∧ HandsOut m' 2 [121, 122] := by
  have hsome : (relink ⟨[121], by decide⟩ [121, 122]).any (fun p =>
      decide (DirCall.Issued p.1 (.enter 1 (.symlink [120] [121, 122] true)) ∧
        StaysInTables p.1 1 ∧ findFreeInode p.1 = some 2 ∧ ospfsInode p.1 2 = some (inodeAddr 2) ∧
        p.1 (oiSymlink (inodeAddr 2) + 2) = 0)) := by decide +kernel
  obtain ⟨⟨m, m'⟩, h, hchecks⟩ := (Option.any_eq_true _ _).1 hsome
  obtain ⟨hissued, hstays, hfree, hinode, hzero⟩ := of_decide_eq_true hchecks
  obtain ⟨hrun, hr⟩ := relink_run h
  obtain ⟨ino, hf, hiff⟩ := symlink_handsOut_iff hrun hissued hstays (by decide) hr
  cases hf.symm.trans hfree
  exact ⟨m, m', hrun, hr, hiff.2 ⟨_, hinode, .inl hzero⟩⟩

/-- Removing a link to `yz` and making one to `y`: the new one leads to `yz`. -/
theorem symlink_older_tail : ∃ m m', (dirCalls (oneLink ⟨[121, 122], by decide⟩)).RunIf
    (fun m c => c.Contained m) [.unlink 1 [108] 2] m ∧
      DirCall.Issued m (.enter 1 (.symlink [120] [121] true)) ∧ ¬ rootMark <+: [121] ∧
      ospfsSymlink m 1 [120] [121] true = some (.ok (), m') ∧ findFreeInode m = some 2 ∧
      (follow m' 2 1000).1 = some [121, 122] ∧ ¬ HandsOut m' 2 [121] := by
  have hsome : (relink ⟨[121, 122], by decide⟩ [121]).any (fun p =>
      decide (DirCall.Issued p.1 (.enter 1 (.symlink [120] [121] true)) ∧
        findFreeInode p.1 = some 2 ∧ (follow p.2 2 1000).1 = some [121, 122])) := by
    decide +kernel
  obtain ⟨⟨m, m'⟩, h, hchecks⟩ := (Option.any_eq_true _ _).1 hsome
  obtain ⟨hissued, hfree, hfollow⟩ := of_decide_eq_true hchecks
  obtain ⟨hrun, hr⟩ := relink_run h
  refine ⟨m, m', hrun, hissued, by decide, hr, hfree, hfollow, fun hout => ?_⟩
  cases (hout 1000).symm.trans hfollow

end OsLabs.Ospfs
