import OsLabs.Ospfs.Newinode

/-!
# OSPFS: copying a directory tree

`writedirectory` on an image under construction. `Walk` lists its steps, one entry of the host
directory after the other; what a walk leaves is proved by induction on it. `Copied m lo hi dir d`
says that directory `d` holds what is copied of the host directory `dir`.
-/

namespace OsLabs.Ospfs

open BlockProg

variable {o : Options} {g : Geometry} {st st' : Globals} {m mf mf' : Mem} {d : Nat} {name : Bytes}

/-- The names in a host directory. -/
def HostDir.names : HostDir → List Bytes
  | .nil => []
  | .file f rest => f.name :: rest.names
  | .directory name _ _ rest => name :: rest.names
  | .symlink name _ _ _ rest => name :: rest.names
  | .other rest => rest.names
  | .unreadable rest => rest.names

/-- Directory `d` has a file for every regular file of `dir` with one link, and a directory for
every directory that is not skipped; the inodes of all of them are from `lo` to `hi`. -/
def Copied (m : Mem) (lo hi : Nat) : (dir : HostDir) → (d : Nat) → Prop
  | .nil, _ => True
  | .file f rest, d =>
    (hostLink f.stNlink f.stIno = 0 → HoldsFile m lo hi d f.name (copied f.reads)) ∧
      Copied m lo hi rest d
  | .directory name _ sub rest, d =>
    (skipped name = false → ∃ k ino, lo ≤ ino ∧ ino < hi ∧ dirent m d k = some (name.val, ino) ∧
      IsDir m ino ∧ (∀ k v, dirent m ino k = some v → v.1 ∈ sub.names) ∧ Copied m lo hi sub ino) ∧
      Copied m lo hi rest d
  | .symlink _ _ _ _ rest, d => Copied m lo hi rest d
  | .other rest, d => Copied m lo hi rest d
  | .unreadable rest, d => Copied m lo hi rest d

theorem HasContent.keep {E : Nat → Prop} {j : Nat} {bs : Bytes} (h : HasContent mf j bs)
    (hk : Kept g E mf mf') (htree : Tree g mf) (hj : Files g mf j) (hnd : ¬ IsDir mf j)
    (hE : ¬ E j) : HasContent mf' j bs := by
  obtain ⟨hs, hb⟩ := hk.content j hj hnd hE
  have hwh := htree.whole j hj
  have hsize := h.size
  refine ⟨hs.trans hsize, fun x hx => ?_⟩
  rw [hb x, h.bytes x hx]
  unfold fileBlocks ospfsSize2nblocks
  omega

theorem HoldsFile.keep {E : Nat → Prop} {lo lo' hi hi' : Nat} {bs : Bytes}
    (h : HoldsFile mf lo hi d name bs) (hk : Kept g E mf mf') (htree : Tree g mf)
    (hE : ∀ j, lo ≤ j → j < hi → ¬ E j) (hhi : hi ≤ g.ninodes) (hlo : lo' ≤ lo) (hle : hi ≤ hi')
    (hold : ∀ k v, dirent mf d k = some v → dirent mf' d k = some v) :
    HoldsFile mf' lo' hi' d name bs := by
  obtain ⟨k, ino, hge, hlt, he, hty, hc⟩ := h
  have hin : ino < g.ninodes := by omega
  have hnE := hE ino hge hlt
  refine ⟨k, ino, by omega, by omega, hold k _ he, (hk.ftype ino hin hnE).trans hty,
    hc.keep hk htree ⟨hin, by rw [hty]; decide⟩ ?_ hnE⟩
  unfold IsDir
  rw [hty]
  decide

theorem Copied.keep {E : Nat → Prop} {lo lo' hi hi' : Nat} (hk : Kept g E mf mf')
    (htree : Tree g mf) (hE : ∀ j, lo ≤ j → j < hi → ¬ E j) (hhi : hi ≤ g.ninodes)
    (hlo : lo' ≤ lo) (hle : hi ≤ hi') (dir : HostDir) : ∀ {d : Nat},
    (∀ k v, dirent mf d k = some v → dirent mf' d k = some v) →
      Copied mf lo hi dir d → Copied mf' lo' hi' dir d := by
  induction dir with
  | nil =>
    intro d _ _
    trivial
  | file f rest ih =>
    intro d hold h
    exact ⟨fun h0 => (h.1 h0).keep hk htree hE hhi hlo hle hold, ih hold h.2⟩
  | directory name mode sub rest ihs ihr =>
    intro d hold h
    refine ⟨fun hs => ?_, ihr hold h.2⟩
    obtain ⟨k, ino, hge, hlt, he, hdir, honly, hc⟩ := h.1 hs
    have hin : ino < g.ninodes := by omega
    have hnE := hE ino hge hlt
    refine ⟨k, ino, by omega, by omega, hold k _ he, (hk.isDir hin hnE).2 hdir, fun k v hv => ?_,
      ihs (fun k v hv => ?_) hc⟩
    · rw [hk.entry ino k hin hnE] at hv
      exact honly k v hv
    · rwa [hk.entry ino k hin hnE]
  | symlink name stNlink stIno target rest ih => exact ih
  | other rest ih => exact ih
  | unreadable rest ih => exact ih

/-- Directory `d` holds the new, empty directory `i` under this name. -/
structure NewDirectory (g : Geometry) (d : Nat) (name : Bytes) (i : Nat) (st : Globals)
    (mf mf' : Mem) : Prop where
  wrote : Wrote g d (fun n => n = name) st mf st mf'
  entry : NewEntry d name i mf mf'
  lt : i < g.ninodes
  ne : d < i
  isDir : IsDir mf' i
  empty : ∀ k, dirent mf' i k = none

namespace NewDirectory

variable {i : Nat} {st₁ st₂ : Globals} {mf₁ mf₂ : Mem} {N : Bytes → Prop}

theorem wrote_sub (h : NewDirectory g d name st.nextinode st mf mf₁) (hd : d < g.ninodes)
    (hnext : st₁.nextinode = st.nextinode + 1) (hs : Wrote g st.nextinode N st₁ mf₁ st₂ mf₂) :
    Wrote g d (fun n => n = name) st mf st₂ mf₂ := by
  have hne := h.ne
  have hle := hs.next
  exact h.wrote.trans (.of_kept hs.kept hd h.wrote.isDir (fun j hj => by omega) (by omega)
    (by omega))

theorem entry_sub (h : NewDirectory g d name st.nextinode st mf mf₁) (hd : d < g.ninodes)
    (hnext : st₁.nextinode = st.nextinode + 1) (hs : Wrote g st.nextinode N st₁ mf₁ st₂ mf₂) :
    NewEntry d name st.nextinode mf mf₂ := by
  have hne := h.ne
  exact h.entry.of_right fun k => hs.kept.entry d k hd (by omega)

end NewDirectory

/-- How `writedirectory` starts on a directory: it is entered in `d` as an empty one. -/
theorem Image.wlp_newDirectory (hg : Fits o g) (h : Image g st m mf) (hd : d < g.ninodes)
    (hdir : IsDir mf d) (hz : 0 ∉ name) (mode : Nat) (body : Nat → Nat → Fmt Unit)
    {Q : Unit → Globals → Mem → Prop}
    (hbody : ∀ dirb st' m' mf', Image g st' m' mf' → st'.nextinode = st.nextinode + 1 →
      st'.hardlinks = st.hardlinks → NewDirectory g d name st.nextinode st mf mf' →
      (body st.nextinode dirb).wlp g.nblocks Q st' m') :
    (do
      let (dirod, dirb) ← Ospfs.allocdirentry (inodeAddr d) name
      let ino ← allocinode o
      storeWord dirod ino
      let nlink ← loadWord (inodeAddr d + 8)
      storeWord (inodeAddr d + 8) (nlink + 1)
      storeWord (inodePtr o ino + 4) ftypeDir
      storeWord (inodePtr o ino) 0
      storeWord (inodePtr o ino + 8) 1
      storeWord (inodePtr o ino + 12) mode
      body ino dirb : Fmt Unit).wlp g.nblocks Q st m := by
  rw [wlp_bind]
  refine wlp_mono (h.allocdirentry hd hdir hz) ?_
  rintro ⟨de, dirb⟩ st₁ m₁ ⟨mf₁, k, h₁, hk₁, hst₁, hde, hres⟩
  have hdir₁ := (hk₁.isDir hd id).2 hdir
  have hn₁ : st₁.nextinode = st.nextinode := by rw [hst₁]
  have hdn := h₁.isDir_lt hd hdir₁
  dsimp only at hde ⊢
  subst hde
  rw [wlp_bind]
  apply wlp_allocinode
  intro hne
  have hlt : st₁.nextinode < g.ninodes := by
    have := h₁.inodes.2
    have := hg.ninodes
    omega
  have hge := entry_ge h₁.tidy (h₁.tree.dirOk hd hdir₁) hres.lt
  have hda := inodeAddr_lt hd
  have hdge := inodeAddr_ge d
  have hload : (m₁.set32 (entryAddr mf₁ d k) st₁.nextinode).get32 (inodeAddr d + 8) =
      oiNlink mf₁ (inodeAddr d) := by
    rw [Mem.get32_set32_ne (by omega), h₁.shadow.get32 (by omega)]
    rfl
  simp only [wlp_bind, wlp_storeWord, wlp_loadWord, hg.inodePtr, hload]
  obtain ⟨mf₂, h₂, hent, hdir₂, hsize⟩ := h₁.newDir hg hd hdir₁ hres hz hne mode
  have hwr₁ : Wrote g d (fun n => n = name) st mf st₁ mf₁ :=
    .of_kept hk₁ hd hdir (fun _ => False.elim) id (Nat.le_of_eq hn₁.symm)
  have hwr₂ : Wrote g d (fun n => n = name) st₁ mf₁ st mf₂ :=
    hent.wrote hd hres (.inl (Nat.le_refl _)) (Nat.le_of_eq hn₁)
  have hempty (k' : Nat) : dirent mf₂ st₁.nextinode k' = none := by
    refine if_neg fun hc => ?_
    have hk' := hc.2.1
    unfold entries at hk'
    rw [hsize] at hk'
    exact Nat.not_lt_zero _ hk'
  rw [hn₁] at hdn hlt hdir₂ hempty
  have hnew : NewDirectory g d name st.nextinode st mf mf₂ :=
    ⟨hwr₁.trans hwr₂, hn₁ ▸ (hent.newEntry hd).of_left fun k => hk₁.entry d k hd id, hlt, hdn,
      hdir₂, hempty⟩
  have hrun := hbody dirb _ _ mf₂ h₂ (congrArg (· + 1) hn₁) (by rw [hst₁]) hnew
  rwa [← hn₁] at hrun

/-! ## The walk -/

/-- A disk between two entries of the walk. -/
structure Between (g : Geometry) (st : Globals) (mf : Mem) : Prop where
  tree : Tree g mf
  le : st.nextinode ≤ g.ninodes

theorem Image.between (h : Image g st m mf) : Between g st mf := ⟨h.tree, h.inodes.2⟩

/-- A run of `writedirectory` over a host directory, for directory `d`, entry by entry. -/
inductive Walk (g : Geometry) (o : Options) :
    HostDir → Nat → Globals → Mem → Globals → Mem → Prop
  | nil {d : Nat} {st : Globals} {mf : Mem} : Walk g o .nil d st mf st mf
  | file {f : HostFile} {rest : HostDir} {d : Nat} {st st₁ st₂ : Globals} {mf mf₁ mf₂ : Mem}
      (hw : Wrote g d (fun n => n = f.name) st mf st₁ mf₁)
      (hfile : hostLink f.stNlink f.stIno = 0 → o.linkContents = false →
        HoldsFile mf₁ st.nextinode st₁.nextinode d f.name (copied f.reads))
      (hnum : o.linkContents = false →
        Numbered d f.name (hostLink f.stNlink f.stIno) st mf st₁ mf₁)
      (h₁ : Between g st₁ mf₁) (hrest : Walk g o rest d st₁ mf₁ st₂ mf₂) :
      Walk g o (.file f rest) d st mf st₂ mf₂
  | skip {name : CString} {mode : Nat} {sub rest : HostDir} {d : Nat} {st st' : Globals}
      {mf mf' : Mem} (hskip : skipped name = true) (hrest : Walk g o rest d st mf st' mf') :
      Walk g o (.directory name mode sub rest) d st mf st' mf'
  | directory {name : CString} {mode : Nat} {sub rest : HostDir} {d : Nat}
      {st st₁ st₂ st₃ : Globals} {mf mf₁ mf₂ mf₃ : Mem} (hskip : ¬ skipped name = true)
      (hnext : st₁.nextinode = st.nextinode + 1) (hlinks : st₁.hardlinks = st.hardlinks)
      (hnew : NewDirectory g d name st.nextinode st mf mf₁)
      (hsub : Walk g o sub st.nextinode st₁ mf₁ st₂ mf₂) (h₂ : Between g st₂ mf₂)
      (hrest : Walk g o rest d st₂ mf₂ st₃ mf₃) :
      Walk g o (.directory name mode sub rest) d st mf st₃ mf₃
  | symlink {name target : CString} {stNlink stIno : Nat} {rest : HostDir} {d : Nat}
      {st st₁ st₂ : Globals} {mf mf₁ mf₂ : Mem} (hlen : ¬ target.val.length > 51)
      (hw : Wrote g d (fun n => n = name) st mf st₁ mf₁)
      (hnum : o.linkContents = false →
        Numbered d name (hostLink stNlink stIno) st mf st₁ mf₁)
      (hrest : Walk g o rest d st₁ mf₁ st₂ mf₂) :
      Walk g o (.symlink name stNlink stIno target rest) d st mf st₂ mf₂
  | long {name target : CString} {stNlink stIno : Nat} {rest : HostDir} {d : Nat}
      {st st' : Globals} {mf mf' : Mem} (hlen : target.val.length > 51)
      (hrest : Walk g o rest d st mf st' mf') :
      Walk g o (.symlink name stNlink stIno target rest) d st mf st' mf'
  | other {rest : HostDir} {d : Nat} {st st' : Globals} {mf mf' : Mem}
      (hrest : Walk g o rest d st mf st' mf') : Walk g o (.other rest) d st mf st' mf'

theorem Walk.wrote {dir : HostDir} (h : Walk g o dir d st mf st' mf') (hd : d < g.ninodes)
    (hdir : IsDir mf d) : Wrote g d (fun n => n ∈ dir.names) st mf st' mf' := by
  induction h with
  | nil => exact .of_kept .refl hd hdir (fun _ => False.elim) id (Nat.le_refl _)
  | file hw _ _ _ _ ih =>
    exact (hw.mono fun v hv => hv ▸ List.mem_cons_self).trans
      ((ih hd hw.isDir).mono fun v hv => List.mem_cons_of_mem _ hv)
  | skip _ _ ih => exact (ih hd hdir).mono fun v hv => List.mem_cons_of_mem _ hv
  | directory _ hnext _ hnew _ _ _ ihs ihr =>
    have hsub := ihs hnew.lt hnew.isDir
    have hw := hnew.wrote_sub hd hnext hsub
    exact (hw.mono fun v hv => hv ▸ List.mem_cons_self).trans
      ((ihr hd hw.isDir).mono fun v hv => List.mem_cons_of_mem _ hv)
  | symlink _ hw _ _ ih =>
    exact (hw.mono fun v hv => hv ▸ List.mem_cons_self).trans
      ((ih hd hw.isDir).mono fun v hv => List.mem_cons_of_mem _ hv)
  | long _ _ ih => exact (ih hd hdir).mono fun v hv => List.mem_cons_of_mem _ hv
  | other _ ih => exact ih hd hdir

/-- Every run of `writedirectory` is a walk. -/
theorem Image.walk (hg : Fits o g) (dir : HostDir) : ∀ {st : Globals} {m mf : Mem} {d : Nat},
    Image g st m mf → d < g.ninodes → IsDir mf d →
    (Ospfs.writedirectory o dir (inodeAddr d)).wlp g.nblocks (fun _ st' m' => ∃ mf',
      Image g st' m' mf' ∧ Walk g o dir d st mf st' mf') st m := by
  induction dir with
  | nil =>
    intro st m mf d h hd hdir
    exact wlp_pure.2 ⟨mf, h, .nil⟩
  | file f rest ih =>
    intro st m mf d h hd hdir
    rw [Ospfs.writedirectory, wlp_bind]
    refine wlp_mono (h.writefile hg hd hdir f _ _) ?_
    rintro _ st₁ m₁ ⟨mf₁, h₁, hw₁, hf, hnum⟩
    refine wlp_mono (ih h₁ hd hw₁.isDir) ?_
    rintro _ st₂ m₂ ⟨mf₂, h₂, hr⟩
    exact ⟨mf₂, h₂, .file hw₁ hf hnum h₁.between hr⟩
  | directory name mode sub rest ihs ihr =>
    intro st m mf d h hd hdir
    rw [Ospfs.writedirectory]
    split
    · rename_i hskip
      refine wlp_mono (ihr h hd hdir) ?_
      rintro _ st₁ m₁ ⟨mf₁, h₁, hr⟩
      exact ⟨mf₁, h₁, .skip hskip hr⟩
    rename_i hskip
    refine h.wlp_newDirectory hg hd hdir name.2 (mode % 512) (fun ino dirb => do
      Ospfs.writedirectory o sub (inodePtr o ino)
      putBlock dirb
      putBlock (inodeBlk o ino)
      Ospfs.writedirectory o rest (inodeAddr d)) fun dirb st₁ m₁ mf₁ h₁ hn₁ hlinks hnew => ?_
    simp only [wlp_bind, wlp_putBlock, hg.inodePtr]
    -- the entries of the new directory, then the rest of this one
    refine wlp_mono (ihs h₁ hnew.lt hnew.isDir) ?_
    rintro _ st₂ m₂ ⟨mf₂, h₂, hs⟩
    have hdir₂ := (hnew.wrote_sub hd hn₁ (hs.wrote hnew.lt hnew.isDir)).isDir
    refine wlp_mono (ihr h₂ hd hdir₂) ?_
    rintro _ st₃ m₃ ⟨mf₃, h₃, hr⟩
    exact ⟨mf₃, h₃, .directory hskip hn₁ hlinks hnew hs h₂.between hr⟩
  | symlink name stNlink stIno target rest ih =>
    intro st m mf d h hd hdir
    rw [Ospfs.writedirectory, wlp_bind]
    unfold writesymlink
    split
    · rename_i hlen
      rw [wlp_pure]
      refine wlp_mono (ih h hd hdir) ?_
      rintro _ st₁ m₁ ⟨mf₁, h₁, hr⟩
      exact ⟨mf₁, h₁, .long hlen hr⟩
    rename_i hlen
    refine wlp_mono (h.addsymlink hg hd hdir name.2 target _) ?_
    rintro _ st₁ m₁ ⟨mf₁, h₁, hw₁, hnum⟩
    refine wlp_mono (ih h₁ hd hw₁.isDir) ?_
    rintro _ st₂ m₂ ⟨mf₂, h₂, hr⟩
    exact ⟨mf₂, h₂, .symlink hlen hw₁ hnum hr⟩
  | other rest ih =>
    intro st m mf d h hd hdir
    refine wlp_mono (ih h hd hdir) ?_
    rintro _ st₁ m₁ ⟨mf₁, h₁, hr⟩
    exact ⟨mf₁, h₁, .other hr⟩
  | unreadable rest ih =>
    intro st m mf d h hd hdir
    exact wlp_abort

/-- What a walk copies. -/
theorem Walk.copied {dir : HostDir} (h : Walk g o dir d st mf st' mf') (hd : d < g.ninodes)
    (hdn : d < st.nextinode) (hdir : IsDir mf d) (hend : Between g st' mf')
    (hl : o.linkContents = false) : Copied mf' st.nextinode st'.nextinode dir d := by
  induction h with
  | nil => trivial
  | file hw hfile _ h₁ hrest ih =>
    have hw₂ := hrest.wrote hd hw.isDir
    have hnext := hw.next
    refine ⟨fun h0 => (hfile h0 hl).keep hw₂.kept h₁.tree (fun j hj hj' => by omega) h₁.le
      (Nat.le_refl _) hw₂.next hw₂.old, ?_⟩
    exact (ih hd (by omega) hw.isDir hend).keep .refl hend.tree (fun _ _ _ => id) hend.le hw.next
      (Nat.le_refl _) _ fun _ _ hv => hv
  | skip hskip _ ih =>
    refine ⟨fun h0 => ?_, ih hd hdn hdir hend⟩
    rw [hskip] at h0
    cases h0
  | @directory name mode sub rest d st st₁ st₂ st₃ mf mf₁ mf₂ mf₃ _ hnext _ hnew hsub h₂ hrest
      ihs ihr =>
    have hws := hsub.wrote hnew.lt hnew.isDir
    have hwd := hnew.wrote_sub hd hnext hws
    have hwr := hrest.wrote hd hwd.isDir
    have hle := hws.next
    have hle₃ := hwr.next
    have hino : ¬ (st.nextinode = d ∨ st₂.nextinode ≤ st.nextinode) := by omega
    have hsame (k : Nat) := hwr.kept.entry _ k hnew.lt hino
    refine ⟨fun _ => ?_, ?_⟩
    · obtain ⟨k, hk⟩ := (hnew.entry_sub hd hnext hws).entry
      refine ⟨k, st.nextinode, Nat.le_refl _, by omega, hwr.old k _ hk,
        (hwr.kept.isDir hnew.lt hino).2 hws.isDir, fun k' v hv => ?_, ?_⟩
      · rw [hsame] at hv
        refine (hws.new k' v hv).resolve_left fun hv' => ?_
        rw [hnew.empty] at hv'
        cases hv'
      · refine (ihs hnew.lt (by omega) hnew.isDir h₂).keep hwr.kept h₂.tree
          (fun j hj hj' => by omega) h₂.le (by omega) hle₃ _ fun k' v hv => ?_
        rwa [hsame]
    · exact (ihr hd (by omega) hwd.isDir hend).keep .refl hend.tree (fun _ _ _ => id) hend.le
        (by omega) (Nat.le_refl _) _ fun _ _ hv => hv
  | symlink _ hw _ _ ih =>
    have hnext := hw.next
    exact (ih hd (by omega) hw.isDir hend).keep .refl hend.tree (fun _ _ _ => id) hend.le hw.next
      (Nat.le_refl _) _ fun _ _ hv => hv
  | long _ _ ih => exact ih hd hdn hdir hend
  | other _ ih => exact ih hd hdn hdir hend

theorem Image.writedirectory (hg : Fits o g) (dir : HostDir) : ∀ {st : Globals} {m mf : Mem}
    {d : Nat}, Image g st m mf → d < g.ninodes → IsDir mf d →
    (writedirectory o dir (inodeAddr d)).wlp g.nblocks (fun _ st' m' => ∃ mf',
      Image g st' m' mf' ∧ Wrote g d (fun n => n ∈ dir.names) st mf st' mf' ∧
      (o.linkContents = false → Copied mf' st.nextinode st'.nextinode dir d)) st m := by
  intro st m mf d h hd hdir
  refine wlp_mono (h.walk hg dir hd hdir) ?_
  rintro _ st' m' ⟨mf', h', hw⟩
  exact ⟨mf', h', hw.wrote hd hdir, hw.copied hd (h.isDir_lt hd hdir) hdir h'.between⟩

end OsLabs.Ospfs
