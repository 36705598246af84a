import OsLabs.Ospfs.Writedir

/-!
# OSPFS: the inodes of names

`writedirectory` gives inodes to names in the order of its walk (`HostDir.visits`),
numbered by `get_hardlink`, `add_hardlink` and `allocinode`. `Leads m lo hi dir d s`
says that the names of the host directory `dir` lead from directory `d` to the inodes
that the numbering gives them from the state `s` on.
-/

namespace OsLabs.Ospfs

open BlockProg

variable {o : Options} {g : Geometry} {st st' : Globals} {m m' mf mf' : Mem} {d i : Nat}
  {name : Bytes} {s : Numbering Nat}

/-! ## The walk -/

/-- A regular file or symbolic link of the host by one of its names. -/
structure HostName where
  path : List Bytes
  symlink : Bool
  stNlink : Nat
  stIno : Nat
  deriving DecidableEq

def HostName.key (a : HostName) : Option Nat := hostKey (hostLink a.stNlink a.stIno)

def HostName.under (name : Bytes) (a : HostName) : HostName := { a with path := name :: a.path }

namespace HostDir

/-- What `writedirectory` gives an inode to, in this order; `none` is a directory. -/
def visits : HostDir → List (Option HostName)
  | .nil => []
  | .file f rest => some ⟨[f.name], false, f.stNlink, f.stIno⟩ :: rest.visits
  | .directory name _ sub rest =>
    if skipped name then rest.visits
    else none :: (sub.visits.map (Option.map (HostName.under name)) ++ rest.visits)
  | .symlink name stNlink stIno target rest =>
    if target.val.length > 51 then rest.visits
    else some ⟨[name], true, stNlink, stIno⟩ :: rest.visits
  | .other rest => rest.visits
  | .unreadable rest => rest.visits

def keys (dir : HostDir) : List (Option Nat) := dir.visits.map fun v => v.bind HostName.key

def Distinct : HostDir → Prop
  | .nil => True
  | .file f rest => f.name.val ∉ rest.names ∧ rest.Distinct
  | .directory name _ sub rest => name.val ∉ rest.names ∧ sub.Distinct ∧ rest.Distinct
  | .symlink name _ _ _ rest => name.val ∉ rest.names ∧ rest.Distinct
  | .other rest => rest.Distinct
  | .unreadable rest => rest.Distinct

theorem keys_under (name : Bytes) (dir : HostDir) :
    (dir.visits.map (Option.map (HostName.under name))).map (fun v => v.bind HostName.key) =
      dir.keys := by
  unfold keys
  rw [List.map_map]
  refine List.map_congr_left fun v _ => ?_
  cases v <;> rfl

section

variable {f : HostFile} {name target : CString} {mode stNlink stIno : Nat} {sub rest : HostDir}

@[simp] theorem keys_nil : nil.keys = [] := rfl

@[simp] theorem keys_file :
    (file f rest).keys = hostKey (hostLink f.stNlink f.stIno) :: rest.keys := rfl

@[simp] theorem keys_directory : (directory name mode sub rest).keys =
    if skipped name then rest.keys else none :: (sub.keys ++ rest.keys) := by
  unfold keys
  rw [visits]
  split
  · rfl
  · rw [List.map_cons, List.map_append, keys_under]
    rfl

@[simp] theorem keys_symlink : (symlink name stNlink stIno target rest).keys =
    if target.val.length > 51 then rest.keys
    else hostKey (hostLink stNlink stIno) :: rest.keys := by
  unfold keys
  rw [visits]
  split <;> rfl

end

end HostDir

/-! ## Names and their inodes -/

/-- The first entry of directory `d` with this name names inode `i`. -/
def Names (m : Mem) (d : Nat) (name : Bytes) (i : Nat) : Prop :=
  ∃ k, dirent m d k = some (name, i) ∧ ∀ j ≤ k, ∀ i', dirent m d j = some (name, i') → i' = i

/-- The numbers that the names of a host directory get, from the state `s` on, are the inodes
they lead to; those of its directories are from `lo` to `hi`. -/
def Leads (m : Mem) (lo hi : Nat) : (dir : HostDir) → (d : Nat) → (s : Numbering Nat) → Prop
  | .nil, _, _ => True
  | .file f rest, d, s =>
    let r := s.number hostIno32 (hostKey (hostLink f.stNlink f.stIno))
    Names m d f.name r.1 ∧ Leads m lo hi rest d r.2
  | .directory name _ sub rest, d, s =>
    if skipped name then Leads m lo hi rest d s
    else
      let r := s.number hostIno32 none
      lo ≤ r.1 ∧ r.1 < hi ∧ Names m d name r.1 ∧ Leads m lo hi sub r.1 r.2 ∧
        Leads m lo hi rest d (r.2.after hostIno32 sub.keys)
  | .symlink name stNlink stIno target rest, d, s =>
    if target.val.length > 51 then Leads m lo hi rest d s
    else
      let r := s.number hostIno32 (hostKey (hostLink stNlink stIno))
      Names m d name r.1 ∧ Leads m lo hi rest d r.2
  | .other rest, d, s => Leads m lo hi rest d s
  | .unreadable rest, d, s => Leads m lo hi rest d s

theorem Names.keep (h : Names mf d name i) (ha : Appended d mf mf') : Names mf' d name i := by
  obtain ⟨k, hk, hfirst⟩ := h
  refine ⟨k, ha.old k _ hk, fun j hj i' hv => ?_⟩
  rcases hold : dirent mf d j with _ | v
  · have hlt := ha.behind j hold (by rw [hv]; exact Option.some_ne_none _) k
      (by rw [hk]; exact Option.some_ne_none _)
    omega
  · rw [ha.old j v hold] at hv
    exact hfirst j hj i' (hold.trans hv)

theorem NewEntry.names (h : NewEntry d name i mf mf')
    (hfresh : ∀ k v, dirent mf d k = some v → v.1 ≠ name) : Names mf' d name i := by
  obtain ⟨k, hk⟩ := h.entry
  refine ⟨k, hk, fun k _ i' hv => ?_⟩
  rcases h.new k _ hv with hold | heq
  · exact absurd rfl (hfresh k _ hold)
  · exact congrArg Prod.snd heq

theorem Leads.keep {E : Nat → Prop} {lo lo' hi hi' : Nat}
    (hk : Kept g E mf mf') (hE : ∀ j, lo ≤ j → j < hi → ¬ E j) (hhi : hi ≤ g.ninodes)
    (hlo : lo' ≤ lo) (hle : hi ≤ hi') (dir : HostDir) : ∀ {d : Nat} {s : Numbering Nat},
    Appended d mf mf' → Leads mf lo hi dir d s → Leads mf' lo' hi' dir d s := by
  induction dir with
  | nil =>
    intro d s _ _
    trivial
  | file f rest ih =>
    intro d s ha h
    exact ⟨h.1.keep ha, ih ha h.2⟩
  | directory name mode sub rest ihs ihr =>
    intro d s ha h
    unfold Leads at h ⊢
    by_cases hskip : skipped name = true
    · rw [if_pos hskip] at h ⊢
      exact ihr ha h
    rw [if_neg hskip] at h ⊢
    obtain ⟨hge, hlt, hname, hsub, hr⟩ := h
    have hsame (k : Nat) := hk.entry _ k (Nat.lt_of_lt_of_le hlt hhi) (hE _ hge hlt)
    exact ⟨Nat.le_trans hlo hge, Nat.lt_of_lt_of_le hlt hle, hname.keep ha,
      ihs (.of_eq hsame) hsub, ihr ha hr⟩
  | symlink name stNlink stIno target rest ih =>
    intro d s ha h
    unfold Leads at h ⊢
    by_cases hlen : target.val.length > 51
    · rw [if_pos hlen] at h ⊢
      exact ih ha h
    · rw [if_neg hlen] at h ⊢
      exact ⟨h.1.keep ha, ih ha h.2⟩
  | other rest ih => exact ih
  | unreadable rest ih => exact ih

/-! ## The walk -/

/-- The host directory `dir` is copied to directory `d`, and its names are numbered. -/
structure Walked (g : Geometry) (dir : HostDir) (d : Nat) (st : Globals) (mf : Mem) (st' : Globals)
    (mf' : Mem) : Prop where
  wrote : Wrote g d (fun n => n ∈ dir.names) st mf st' mf'
  numbering : st'.numbering = st.numbering.after hostIno32 dir.keys
  leads : Leads mf' st.nextinode st'.nextinode dir d st.numbering

/-- Directory `d` can take entries with these names: it has none of them yet, and the blank
entries of its blocks are the last ones. -/
structure Takes (m : Mem) (d : Nat) (names : List Bytes) : Prop where
  unused : ∀ k v, dirent m d k = some v → v.1 ∉ names
  packed : Packed m d

theorem Takes.of_wrote {names : List Bytes} (h : Takes mf d (name :: names)) (hn : name ∉ names)
    (hw : Wrote g d (fun n => n = name) st mf st' mf') : Takes mf' d names := by
  refine ⟨fun k v hv => ?_, (hw.packed h.packed).1⟩
  rcases hw.new k v hv with hold | hnew
  · exact fun hm => h.unused k v hold (List.mem_cons_of_mem _ hm)
  · exact hnew ▸ hn

theorem Takes.mono {names names' : List Bytes} (h : Takes mf d names)
    (hn : ∀ n ∈ names', n ∈ names) : Takes mf d names' :=
  ⟨fun k v hv hm => h.unused k v hv (hn _ hm), h.packed⟩

theorem Takes.of_empty (h : ∀ k, dirent mf d k = none) (names : List Bytes) :
    Takes mf d names := by
  refine ⟨fun k v hv => ?_, fun j k _ _ hk => absurd (h k) hk⟩
  rw [h] at hv
  cases hv

theorem NewEntry.walked {names : List Bytes} {N : Bytes → Prop} {st'' : Globals} {mf'' : Mem}
    (h : NewEntry d name i mf mf') (ht : Takes mf d (name :: names)) (hp : Packed mf' d)
    (hrest : Wrote g d N st' mf' st'' mf'') : Names mf'' d name i := by
  have hname := h.names fun k v hv he => ht.unused k v hv (he ▸ List.mem_cons_self)
  exact hname.keep (hrest.packed hp).2

theorem Leads.mono {lo lo' hi hi' : Nat} {dir : HostDir} (h : Leads mf lo hi dir d s)
    (hhi : hi ≤ g.ninodes) (hlo : lo' ≤ lo) (hle : hi ≤ hi') : Leads mf lo' hi' dir d s :=
  h.keep (g := g) .refl (fun _ _ _ => id) hhi hlo hle dir (.of_eq fun _ => rfl)

namespace Walked

variable {dir rest : HostDir} {st₁ st₂ : Globals} {mf₁ mf₂ : Mem}

theorem skip (h : Walked g rest d st mf st' mf') (hnames : ∀ n ∈ rest.names, n ∈ dir.names)
    (hkeys : dir.keys = rest.keys) (hleads : ∀ {m lo hi s}, Leads m lo hi rest d s →
      Leads m lo hi dir d s) : Walked g dir d st mf st' mf' := by
  refine ⟨h.wrote.mono hnames, ?_, hleads h.leads⟩
  rw [hkeys]
  exact h.numbering

/-- The entry is a name, and the rest of the directory is copied after it. -/
theorem named {hostIno : Nat} (hnum : Numbered d name hostIno st mf st₁ mf₁)
    (hw : Wrote g d (fun n => n = name) st mf st₁ mf₁) (h : Walked g rest d st₁ mf₁ st₂ mf₂)
    (ht : Takes mf d (name :: rest.names)) (hle : st₂.nextinode ≤ g.ninodes)
    (hnames : dir.names = name :: rest.names) (hkeys : dir.keys = hostKey hostIno :: rest.keys)
    (hleads : ∀ {m lo hi s}, Names m d name (s.number hostIno32 (hostKey hostIno)).1 →
      Leads m lo hi rest d (s.number hostIno32 (hostKey hostIno)).2 → Leads m lo hi dir d s) :
    Walked g dir d st mf st₂ mf₂ := by
  refine ⟨?_, ?_, hleads (hnum.entry.walked ht (hw.packed ht.packed).1 h.wrote) ?_⟩
  · rw [hnames]
    exact (hw.mono fun v hv => hv ▸ List.mem_cons_self).trans
      (h.wrote.mono fun v hv => List.mem_cons_of_mem _ hv)
  · rw [h.numbering, hnum.globals, hkeys]
    rfl
  · have := h.leads.mono hle hw.next (Nat.le_refl _)
    rwa [hnum.globals] at this

end Walked

/-- A walk numbers the names that it meets. -/
theorem Walk.walked {dir : HostDir} (h : Walk g o dir d st mf st' mf') (hl : o.linkContents = false)
    (hd : d < g.ninodes) (hdir : IsDir mf d) (hdist : dir.Distinct) (ht : Takes mf d dir.names)
    (hend : st'.nextinode ≤ g.ninodes) : Walked g dir d st mf st' mf' := by
  induction h with
  | nil => exact ⟨.of_kept .refl hd hdir (fun _ => False.elim) id (Nat.le_refl _), rfl, trivial⟩
  | file hw _ hnum _ _ ih =>
    have hr := ih hd hw.isDir hdist.2 (ht.of_wrote hdist.1 hw) hend
    exact .named (hnum hl) hw hr ht hend rfl rfl fun hn hr => ⟨hn, hr⟩
  | skip hskip _ ih =>
    have hr := ih hd hdir hdist.2.2 (ht.mono fun _ => List.mem_cons_of_mem _) hend
    refine hr.skip (fun n hn => List.mem_cons_of_mem _ hn) ?_ fun hr => ?_
    · rw [HostDir.keys_directory, if_pos hskip]
    · rwa [Leads, if_pos hskip]
  | @directory name mode sub rest d st st₁ st₂ st₃ mf mf₁ mf₂ mf₃ hskip hnext hlinks hnew hsub h₂
      hrest ihs ihr =>
    have hnum : st₁.numbering = (st.numbering.number hostIno32 none).2 := by
      unfold Globals.numbering
      rw [hnext, hlinks]
      rfl
    have hs := ihs hnew.lt hnew.isDir hdist.2.1 (.of_empty hnew.empty _) h₂.le
    have hw₂ := hnew.wrote_sub hd hnext hs.wrote
    have hr := ihr hd hw₂.isDir hdist.2.2 (ht.of_wrote hdist.1 hw₂) hend
    have hne := hnew.ne
    have hle := hs.wrote.next
    have hle₃ := hr.wrote.next
    have hino : ¬ (st.nextinode = d ∨ st₂.nextinode ≤ st.nextinode) := by omega
    refine ⟨(hw₂.mono fun v hv => hv ▸ List.mem_cons_self).trans
      (hr.wrote.mono fun v hv => List.mem_cons_of_mem _ hv), ?_, ?_⟩
    · rw [hr.numbering, hs.numbering, hnum, HostDir.keys_directory, if_neg hskip,
        ← Numbering.after_append]
      rfl
    · have hleads₂ : Leads mf₃ st.nextinode st₃.nextinode sub st.nextinode st₁.numbering :=
        hs.leads.keep hr.wrote.kept (fun j hj hj' => by omega) h₂.le (by omega) hle₃ sub
          (.of_eq fun k => hr.wrote.kept.entry _ k hnew.lt hino)
      have hleads₃ := hr.leads.mono hend (by omega : st.nextinode ≤ _) (Nat.le_refl _)
      have hname := (hnew.entry_sub hd hnext hs.wrote).walked ht (hw₂.packed ht.packed).1 hr.wrote
      rw [hnum] at hleads₂
      rw [hs.numbering, hnum] at hleads₃
      rw [Leads, if_neg hskip]
      exact ⟨Nat.le_refl _, by show st.nextinode < _; omega, hname, hleads₂, hleads₃⟩
  | symlink hlen hw hnum _ ih =>
    have hr := ih hd hw.isDir hdist.2 (ht.of_wrote hdist.1 hw) hend
    refine .named (hnum hl) hw hr ht hend rfl ?_ fun hn hr => ?_
    · rw [HostDir.keys_symlink, if_neg hlen]
    · rw [Leads, if_neg hlen]
      exact ⟨hn, hr⟩
  | long hlen _ ih =>
    have hr := ih hd hdir hdist.2 (ht.mono fun _ => List.mem_cons_of_mem _) hend
    refine hr.skip (fun n hn => List.mem_cons_of_mem _ hn) ?_ fun hr => ?_
    · rw [HostDir.keys_symlink, if_pos hlen]
    · rwa [Leads, if_pos hlen]
  | other _ ih => exact (ih hd hdir hdist ht hend).skip (fun _ => id) rfl id

theorem Image.writedirectory_links (hg : Fits o g) (hl : o.linkContents = false) (dir : HostDir)
    (h : Image g st m mf) (hd : d < g.ninodes) (hdir : IsDir mf d) (hdist : dir.Distinct)
    (ht : Takes mf d dir.names) :
    (Ospfs.writedirectory o dir (inodeAddr d)).wlp g.nblocks (fun _ st' m' => ∃ mf',
      Image g st' m' mf' ∧ Walked g dir d st mf st' mf') st m := by
  refine wlp_mono (h.walk hg dir hd hdir) ?_
  rintro _ st' m' ⟨mf', h', hw⟩
  exact ⟨mf', h', hw.walked hl hd hdir hdist ht h'.inodes.2⟩

end OsLabs.Ospfs
