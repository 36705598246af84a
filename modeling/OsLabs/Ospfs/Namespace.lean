import OsLabs.Lib.NameTable
import OsLabs.Ospfs.Linkcount

/-!
# OSPFS: directories as finite maps

A `Namespace` says what the directories are for: which inode a name in a directory stands for.
Every run of `ospfs_create`, `ospfs_symlink`, `ospfs_link` and `ospfs_unlink` from a formatted
image is a run of these maps with the same calls and results (`namespace_refines`), and what the
scan loops find and the link counts say is what the map says.
-/

namespace OsLabs.Ospfs

/-! ## The maps -/

/-- The names in the directories; `lost` are the inodes that a call has claimed before it failed. -/
structure Namespace where
  bound : Nat × Bytes → Option Nat
  dirs : Set Nat
  lost : Finset Nat

namespace NameCall

def name : NameCall → Bytes
  | create name _ _ => name
  | symlink name _ _ => name
  | link _ name => name

/-- What the call itself refuses; `ospfs_create` leaves the check to `ospfs_dir_lookup`. -/
def TooLong : NameCall → Prop
  | create _ _ _ => False
  | symlink name symname _ => name.length > 123 ∨ symname.length > 51
  | link _ name => name.length > 123

end NameCall

namespace Namespace

structure Fresh (s : Namespace) (n i : Nat) : Prop where
  two_le : 2 ≤ i
  lt : i < n
  file : i ∉ s.dirs
  kept : i ∉ s.lost
  unnamed : ∀ e, s.bound e ≠ some i

def bind (s : Namespace) (e : Nat × Bytes) (i : Nat) : Namespace :=
  { s with bound := Function.update s.bound e (some i) }

def unbind (s : Namespace) (e : Nat × Bytes) : Namespace :=
  { s with bound := Function.update s.bound e none }

def lose (s : Namespace) (i : Nat) : Namespace := { s with lost := insert i s.lost }

/-- A call with its result, for `n` inodes. -/
inductive Step (n : Nat) : Namespace → DirCall × Ret → Namespace → Prop
  | enter {s : Namespace} {d i : Nat} {c : NameCall} {r : Ret} (hc : ¬ c.IsLink)
      (hr : r = .ok () ∨ r = .error .eNoMem) (hnew : s.bound (d, c.name) = none)
      (hi : s.Fresh n i) : Step n s (.enter d c, r) (s.bind (d, c.name) i)
  | lose {s : Namespace} {d i : Nat} {c : NameCall} (hc : ¬ c.IsLink)
      (hnew : s.bound (d, c.name) = none) (hi : s.Fresh n i) :
      Step n s (.enter d c, .error .eNoSpc) (s.lose i)
  | exhausted {s : Namespace} {d : Nat} {c : NameCall} (hc : ¬ c.IsLink)
      (hno : ∀ i, ¬ s.Fresh n i) : Step n s (.enter d c, .error .eNoSpc) s
  | link {s : Namespace} {d i : Nat} {name : Bytes} (hnew : s.bound (d, name) = none)
      (hi : ∃ e, s.bound e = some i) :
      Step n s (.enter d (.link i name), .ok ()) (s.bind (d, name) i)
  | full {s : Namespace} {d i : Nat} {name : Bytes} (hnew : s.bound (d, name) = none) :
      Step n s (.enter d (.link i name), .error .eNoSpc) s
  | taken {s : Namespace} {d i : Nat} {c : NameCall} (hold : s.bound (d, c.name) = some i) :
      Step n s (.enter d c, .error .eExist) s
  | tooLong {s : Namespace} {d : Nat} {c : NameCall} (hc : c.TooLong) :
      Step n s (.enter d c, .error .eNameTooLong) s
  | unlink {s : Namespace} {d i : Nat} {name : Bytes} (hold : s.bound (d, name) = some i) :
      Step n s (.unlink d name i, .ok ()) (s.unbind (d, name))

/-- The maps under calls; at the beginning nothing is lost. -/
def system (n : Nat) : System Namespace (DirCall × Ret) where
  Init s := s.lost = ∅
  Step := Step n

section

variable {s : Namespace} {e e' : Nat × Bytes} {i j : Nat}

theorem bind_unnamed (hij : i ≠ j) (h : ∀ e, s.bound e ≠ some j) :
    (s.bind e' i).bound e ≠ some j := by
  show Function.update s.bound e' (some i) e ≠ some j
  by_cases he : e = e'
  · rw [he, Function.update_self]
    exact fun h' => hij (Option.some.inj h')
  · rw [Function.update_of_ne he]
    exact h e

theorem unbind_unnamed (h : ∀ e, s.bound e ≠ some j) : (s.unbind e').bound e ≠ some j := by
  show Function.update s.bound e' none e ≠ some j
  by_cases he : e = e'
  · rw [he, Function.update_self]
    nofun
  · rw [Function.update_of_ne he]
    exact h e

end

/-- **Lost inodes** have no names, in every run. -/
theorem lost_unnamed {n : Nat} {calls : List (DirCall × Ret)} {s : Namespace}
    (h : (system n).Run calls s) : ∀ j ∈ s.lost, ∀ e, s.bound e ≠ some j := by
  refine h.inv (I := fun _ s => ∀ j ∈ s.lost, ∀ e, s.bound e ≠ some j) ?_ ?_
  · intro s hs j hj
    rw [show s.lost = ∅ from hs] at hj
    cases hj
  rintro _ s c s' ih - hstep j hj e
  cases hstep with
  | enter _ _ _ hi =>
    refine bind_unnamed ?_ (ih j hj)
    rintro rfl
    exact hi.kept hj
  | lose _ _ hi =>
    rcases Finset.mem_insert.1 hj with rfl | hj
    · exact hi.unnamed e
    · exact ih j hj e
  | link _ hi =>
    refine bind_unnamed ?_ (ih j hj)
    rintro rfl
    obtain ⟨e', he'⟩ := hi
    exact ih _ hj e' he'
  | unlink _ => exact unbind_unnamed (ih j hj)
  | exhausted _ _ => exact ih j hj e
  | full _ => exact ih j hj e
  | taken _ => exact ih j hj e
  | tooLong _ => exact ih j hj e

end Namespace

/-! ## The disk as a table of names -/

variable {o : Options} {g : Geometry} {m m' w : Mem} {s : Namespace} {d k i ino : Nat}
  {name : Bytes}

/-- The entries by directory and position. -/
def table (g : Geometry) (m : Mem) : NameTable (Nat × Nat) (Nat × Bytes) Nat := fun p =>
  if p.1 < g.ninodes then (dirent m p.1 p.2).map fun v => ((p.1, v.1), v.2) else none

theorem table_eq_some {p : Nat × Nat} {e : Nat × Bytes} :
    table g m p = some (e, i) ↔ p.1 < g.ninodes ∧ e.1 = p.1 ∧ dirent m p.1 p.2 = some (e.2, i) := by
  unfold table
  split
  · rename_i hlt
    rw [Option.map_eq_some_iff]
    constructor
    · rintro ⟨v, hv, he⟩
      cases he
      exact ⟨hlt, rfl, hv⟩
    · rintro ⟨-, he, hv⟩
      exact ⟨_, hv, Prod.ext (Prod.ext he.symm rfl) rfl⟩
  · rename_i hlt
    exact ⟨nofun, fun h => absurd h.1 hlt⟩

theorem table_eq_none (hd : d < g.ninodes) : table g m (d, k) = none ↔ dirent m d k = none := by
  unfold table
  rw [if_pos hd, Option.map_eq_none_iff]

theorem table_congr (h : ∀ d k, d < g.ninodes → dirent m' d k = dirent m d k) :
    table g m' = table g m := by
  funext p
  unfold table
  split
  · rename_i hlt
    rw [h p.1 p.2 hlt]
  · rfl

theorem table_sameBut
    (h : ∀ d' k', d' < g.ninodes → (d', k') ≠ (d, k) → dirent m' d' k' = dirent m d' k') :
    NameTable.SameBut (d, k) (table g m) (table g m') := by
  intro p hp
  unfold table
  split
  · rename_i hlt
    rw [h p.1 p.2 hlt hp]
  · rfl

def DistinctNames (m : Mem) : Prop :=
  ∀ d, IsDirectory m d → ∀ k k' name i i', dirent m d k = some (name, i) →
    dirent m d k' = some (name, i') → k = k'

theorem DistinctNames.single (h : DistinctNames m) (hst : Standing g m) : (table g m).Single := by
  intro p q e i j hp hq
  obtain ⟨hlt, he, hp⟩ := table_eq_some.1 hp
  obtain ⟨-, he', hq⟩ := table_eq_some.1 hq
  have hpq : p.1 = q.1 := he.symm.trans he'
  rw [← hpq] at hq
  exact Prod.ext hpq (h p.1 (hst.isDirectory_iff.2 ⟨hlt, (dirent_lt hp).1⟩) _ _ _ _ _ hp hq)

/-! ## The invariant -/

/-- The disk `m` has the names `s`. -/
structure Orderly (g : Geometry) (m : Mem) (s : Namespace) : Prop extends Tallied g m s.lost where
  single : (table g m).Single
  bound : s.bound = (table g m).find
  dirs : ∀ j, j ∈ s.dirs ↔ j < g.ninodes ∧ IsDir m j

namespace Orderly

variable (h : Orderly g m s)

include h

theorem bound_eq_some : s.bound (d, name) = some i ↔
    d < g.ninodes ∧ ∃ k, dirent m d k = some (name, i) := by
  rw [h.bound, h.single.find_eq_some]
  constructor
  · rintro ⟨p, hp⟩
    obtain ⟨hlt, he, hv⟩ := table_eq_some.1 hp
    obtain rfl : d = p.1 := he
    exact ⟨hlt, p.2, hv⟩
  · rintro ⟨hd, k, hk⟩
    exact ⟨(d, k), table_eq_some.2 ⟨hd, rfl, hk⟩⟩

theorem bound_eq_none (hno : ∀ k i, dirent m d k ≠ some (name, i)) : s.bound (d, name) = none := by
  rw [Option.eq_none_iff_forall_ne_some]
  intro i hi
  obtain ⟨-, k, hent⟩ := h.bound_eq_some.1 hi
  exact hno k i hent

theorem named (hb : s.bound (d, name) = some i) :
    2 ≤ i ∧ i < g.ninodes ∧ 0 < linkCount g m i := by
  obtain ⟨hd, k, hk⟩ := h.bound_eq_some.1 hb
  exact h.toTallied.named hd hk

theorem unnamed (h0 : linkCount g m i = 0) (e : Nat × Bytes) : s.bound e ≠ some i := by
  intro he
  obtain ⟨-, -, hpos⟩ := h.named (d := e.1) he
  omega

/-- **Link counts**: as many as there are names, one more for an inode that is lost. -/
theorem links_ncard (h2 : 2 ≤ i) (hlt : i < g.ninodes) (hi : i ∉ s.dirs) :
    oiNlink m (inodeAddr i) =
      {e | s.bound e = some i}.ncard + if i ∈ s.lost then 1 else 0 := by
  have hnd : ¬ IsDir m i := fun hdir => hi ((h.dirs i).2 ⟨hlt, hdir⟩)
  have hset : {p | (table g m p).map Prod.snd = some i} =
      ↑((positions g).filter fun e => NamesIno m i e.1 e.2) := by
    ext p
    rw [Finset.coe_filter, Set.mem_ofPred_eq, Set.mem_ofPred_eq, Option.map_eq_some_iff]
    unfold NamesIno
    rw [Option.map_eq_some_iff]
    constructor
    · rintro ⟨⟨e, j⟩, hv, rfl⟩
      obtain ⟨hd, -, hk⟩ := table_eq_some.1 hv
      exact ⟨h.position hd hk, _, hk, rfl⟩
    · rintro ⟨hp, v, hv, rfl⟩
      have hd := Finset.mem_range.1 (Finset.mem_product.1 hp).1
      exact ⟨((p.1, v.1), v.2), table_eq_some.2 ⟨hd, rfl, hv⟩, rfl⟩
  have hnames : {e | s.bound e = some i} = NameTable.names (table g m).find i := by
    rw [← h.bound]
    rfl
  rw [h.links i h2 hlt hnd, hnames, h.single.ncard_names, hset, Set.ncard_coe_finset]
  rfl

/-! ## Steps on the disk -/

theorem congr (hst : Standing g m') (hs : SameNames g m m') : Orderly g m' s := by
  have htable := table_congr hs.dirents
  refine ⟨h.toTallied.congr hst hs, htable ▸ h.single, htable ▸ h.bound, fun j =>
    (h.dirs j).trans (and_congr_right fun hj => (isDir_congr (hs.ftypes j hj)).symm)⟩

theorem fresh (h2 : 2 ≤ ino) (hlt : ino < g.ninodes) (h0 : oiNlink m (inodeAddr ino) = 0) :
    s.Fresh g.ninodes ino := by
  have hnd : ¬ IsDir m ino := fun hdir => (h.standing.dirs ino hlt hdir).2 h0
  obtain ⟨hlost, hcount⟩ := h.free h2 hlt h0
  exact ⟨h2, hlt, fun hd => hnd ((h.dirs ino).1 hd).2, hlost, h.unnamed hcount⟩

theorem not_fresh (hall : ∀ j, 2 ≤ j → j < g.ninodes → oiNlink m (inodeAddr j) ≠ 0) (i : Nat) :
    ¬ s.Fresh g.ninodes i := by
  intro hi
  have hn := h.links_ncard hi.two_le hi.lt hi.file
  have hempty : {e | s.bound e = some i} = ∅ := Set.eq_empty_of_forall_notMem hi.unnamed
  rw [hempty, Set.ncard_empty, if_neg hi.kept] at hn
  exact hall i hi.two_le hi.lt hn

/-- A fresh inode is set up, and not entered yet. -/
theorem setUp (hfree : FreeInode g m ino) (hp : Prepared g ino m w) :
    Orderly g w (s.lose ino) := by
  obtain ⟨hc, hdirents⟩ := h.toTallied.setUp hfree.nlink hfree.two_le hp
  have htable := table_congr hdirents
  refine ⟨hc, htable ▸ h.single, htable ▸ h.bound, fun j => ?_⟩
  by_cases hji : j = ino
  · subst hji
    exact iff_of_false (fun hd => hfree.plain ((h.dirs j).1 hd).2) fun h' => hp.setUp.plain h'.2
  · exact (h.dirs j).trans (and_congr_right fun _ =>
      (SameInode.of_others hp.setUp.others hji).isDir.symm)

theorem dirs_of_links (hl : Links g d k i m m') (j : Nat) :
    j ∈ s.dirs ↔ j < g.ninodes ∧ IsDir m' j :=
  (h.dirs j).trans (and_congr_right fun hj => (hl.isDir hj).symm)

/-- A blank entry is filled in with a new name; the inode named may have been lost before. -/
theorem bind {lost : Finset Nat} (hc : Tallied g m' lost) (hl : Links g d k i m m')
    (hd : d < g.ninodes) (hblank : dirent m d k = none) (hentry : dirent m' d k = some (name, i))
    (hnew : s.bound (d, name) = none) : Orderly g m' { s.bind (d, name) i with lost := lost } := by
  have hnew' : (table g m).find (d, name) = none := h.bound ▸ hnew
  obtain ⟨hsingle, hfind⟩ := h.single.fill ((table_eq_none hd).2 hblank) hnew'
    (table_eq_some.2 ⟨hd, rfl, hentry⟩) (table_sameBut hl.others)
  refine ⟨hc, hsingle, ?_, h.dirs_of_links hl⟩
  rw [hfind, ← h.bound]
  rfl

theorem unbind (hl : Links g d k i m m') (hd : d < g.ninodes)
    (hentry : dirent m d k = some (name, i)) (hclear : dirent m' d k = none)
    (hlink : oiNlink m' (inodeAddr i) + 1 = oiNlink m (inodeAddr i)) :
    Orderly g m' (s.unbind (d, name)) := by
  have hp : table g m (d, k) = some ((d, name), i) := table_eq_some.2 ⟨hd, rfl, hentry⟩
  obtain ⟨hsingle, hfind⟩ := h.single.clear hp ((table_eq_none hd).2 hclear)
    (table_sameBut hl.others)
  refine ⟨h.toTallied.unbind hl hd hentry hclear hlink, hsingle, ?_, h.dirs_of_links hl⟩
  rw [hfind, ← h.bound]
  rfl

/-! ## The scan loops -/

theorem scan_name (hd : d < g.ninodes) (hdir : IsDir m d) (hz : 0 ∉ name) :
    (scan m (inodeAddr d) (findMatches m name) (direntries m (inodeAddr d)) 0).map (odIno m) =
      s.bound (d, name) := by
  rcases h.scan_first hd hdir hz with ⟨hscan, hno⟩ | ⟨k, i, hscan, -, hi, hent⟩
  · rw [hscan, h.bound_eq_none hno]
    rfl
  · rw [hscan, h.bound_eq_some.2 ⟨hd, k, hent⟩, ← hi]
    rfl

theorem findDirentry_isSome (hd : d < g.ninodes) (hdir : IsDir m d) (hz : 0 ∉ name) :
    (findDirentry m (inodeAddr d) name).isSome = (s.bound (d, name)).isSome := by
  unfold findDirentry
  rw [← h.scan_name hd hdir hz, Option.isSome_map]

/-- **Lookup** says what the map says. -/
theorem dirLookup (hd : d < g.ninodes) (hdir : IsDir m d) (hz : 0 ∉ name) :
    ospfsDirLookup m d name true =
      some (if name.length > 123 then .error .eNameTooLong else .ok (s.bound (d, name))) := by
  rw [h.dirLookup_first hd hdir hz, h.scan_name hd hdir hz]

/-! ## The calls -/

omit h in
/-- The inode that was set up is entered, or stays lost. -/
theorem enters {b : Bool} (hw : Orderly g w (s.lose ino)) (hfresh : s.Fresh g.ninodes ino)
    (hd : d < g.ninodes) (hlen : name.length ≤ 123) (hz : 0 ∉ name)
    (hnew : s.bound (d, name) = none) (he : NameEnters g d name ino w b m') :
    Orderly g m' (if b then s.bind (d, name) ino else s.lose ino) := by
  have hc := Tallied.enters hw.toTallied hfresh.kept hfresh.two_le hfresh.lt hd hlen hz he
  cases he with
  | full _ ht hs => exact hw.congr ht.standing hs
  | @entered m₁ k _ ht hs hk hblank =>
    obtain ⟨hl, -, -, hentry⟩ := ht.fill hd hk hlen hz hfresh.two_le hfresh.lt
    exact (hw.congr ht.standing hs).bind hc hl hd ((hs.dirents d k hd).trans hblank) hentry hnew

theorem creates (hd : d < g.ninodes) (hdir : IsDir m d) {c : NameCall} (hc : ¬ c.IsLink)
    (hlen : c.name.length ≤ 123) (hz : 0 ∉ c.name) {init : Nat → Mem}
    (hinit : ∀ ino, FreeInode g m ino → Prepared g ino m (init ino))
    {r : Ret} (hr : Creates g d c.name init m r m') :
    ∃ s', Namespace.Step g.ninodes s (.enter d c, r) s' ∧ Orderly g m' s' := by
  have hfind := h.findDirentry_isSome hd hdir hz
  have hnone (hf : (findDirentry m (inodeAddr d) c.name).isSome = false) :
      s.bound (d, c.name) = none := by
    rw [hf] at hfind
    exact Option.isSome_eq_false_iff.1 hfind.symm |> Option.isNone_iff_eq_none.1
  cases hr with
  | taken hf =>
    obtain ⟨i, hb⟩ := Option.isSome_iff_exists.1 (hfind.symm.trans hf)
    exact ⟨s, .taken hb, h⟩
  | exhausted _ hall => exact ⟨s, .exhausted hc (h.not_fresh hall), h⟩
  | @full ino _ hf _ hfree he =>
    have hfresh := h.fresh hfree.two_le hfree.lt hfree.nlink
    exact ⟨_, .lose hc (hnone hf) hfresh,
      enters (h.setUp hfree (hinit ino hfree)) hfresh hd hlen hz (hnone hf) he⟩
  | @entered ino _ _ hf _ hfree he hr =>
    have hfresh := h.fresh hfree.two_le hfree.lt hfree.nlink
    exact ⟨_, .enter hc hr (hnone hf) hfresh,
      enters (h.setUp hfree (hinit ino hfree)) hfresh hd hlen hz (hnone hf) he⟩

theorem create (hd : d < g.ninodes) (hdir : IsDir m d) (hno : StaysInTables m d)
    (hlen : name.length ≤ 123) (hz : 0 ∉ name) (mode : Nat) (newInode : Bool) :
    ∃ r m' s', ospfsCreate m d name mode newInode = some (r, m') ∧
      Namespace.Step g.ninodes s (.enter d (.create name mode newInode), r) s' ∧
      Orderly g m' s' := by
  obtain ⟨r, m', hrun, hc, -⟩ := h.standing.create_spec hd hdir hno hlen mode newInode
  obtain ⟨s', hstep, h'⟩ := h.creates hd hdir (c := .create name mode newInode) id hlen hz
    (fun _ hfree => hfree.initFile mode) hc
  exact ⟨r, m', s', hrun, hstep, h'⟩

theorem symlink (hd : d < g.ninodes) (hdir : IsDir m d) (hno : StaysInTables m d)
    (hz : 0 ∉ name) (symname : Bytes) (newInode : Bool) :
    ∃ r m' s', ospfsSymlink m d name symname newInode = some (r, m') ∧
      Namespace.Step g.ninodes s (.enter d (.symlink name symname newInode), r) s' ∧
      Orderly g m' s' := by
  obtain ⟨r, m', hrun, hcase, -⟩ :=
    h.standing.symlink_spec hd hdir hno name symname newInode
  rcases hcase with ⟨hlong, rfl, rfl⟩ | ⟨hlen, hlen', hc⟩
  · exact ⟨_, m', s, hrun, .tooLong hlong, h⟩
  obtain ⟨s', hstep, h'⟩ := h.creates hd hdir (c := .symlink name symname newInode) id hlen hz
    (fun _ hfree => hfree.initSymlink hlen') hc
  exact ⟨r, m', s', hrun, hstep, h'⟩

theorem bound_of_lookup (hdir : IsDirectory m d) (hz : 0 ∉ name)
    (hl : ospfsDirLookup m d name true = some (.ok (some i))) : s.bound (d, name) = some i := by
  obtain ⟨hd, hdd⟩ := h.standing.isDirectory_iff.1 hdir
  rw [h.dirLookup hd hdd hz, Option.some.injEq] at hl
  split at hl
  · cases hl
  · exact Except.ok.inj hl

theorem link (hd : d < g.ninodes) (hdir : IsDir m d) (hno : StaysInTables m d) (hz : 0 ∉ name)
    (hsrc : ¬ IsDirectory m i) (hnamed : ∃ e, s.bound e = some i) :
    ∃ r m' s', ospfsLink m i d name = some (r, m') ∧
      Namespace.Step g.ninodes s (.enter d (.link i name), r) s' ∧ Orderly g m' s' := by
  obtain ⟨⟨d', nm⟩, he⟩ := hnamed
  obtain ⟨h2, hi, -⟩ := h.named he
  have hfind := h.findDirentry_isSome hd hdir hz
  obtain ⟨r, m', hrun, hl⟩ := h.standing.link_spec hd hdir hno name hi
  refine ⟨r, m', ?_⟩
  cases hl with
  | tooLong hlong => exact ⟨s, hrun, .tooLong hlong, h⟩
  | taken hf =>
    obtain ⟨j, hb⟩ := Option.isSome_iff_exists.1 (hfind.symm.trans hf)
    exact ⟨s, hrun, .taken hb, h⟩
  | full hf henters =>
    have hb : s.bound (d, name) = none := by simpa [hf] using hfind
    cases henters with
    | full _ ht hs => exact ⟨s, hrun, .full hb, h.congr ht.standing hs⟩
  | entered hlen hf henters =>
    have hb : s.bound (d, name) = none := by simpa [hf] using hfind
    have hne : i ≠ d := by
      rintro rfl
      exact hsrc (h.standing.isDirectory_iff.2 ⟨hi, hdir⟩)
    have hnd : ¬ IsDir m i := fun h' => hsrc (h.standing.isDirectory_iff.2 ⟨hi, h'⟩)
    have hc := h.toTallied.link hd hdir hz h2 hi hnd (.entered hlen hf henters)
    obtain ⟨m₁, k, hst, hs, hblank, hl, hent, -⟩ :=
      h.linked hd h2 hi hnd hne hlen hz henters
    exact ⟨_, hrun, .link hb ⟨_, he⟩, (h.congr hst hs).bind hc hl hd
      ((hs.dirents d k hd).trans hblank) hent hb⟩

theorem unlink (hd : d < g.ninodes) (hdir : IsDir m d) (hz : 0 ∉ name)
    (hino : ¬ IsDirectory m i)
    (hlook : ospfsDirLookup m d name true = some (.ok (some i))) :
    ∃ m', ospfsUnlink m d name i = some (.ok (), m') ∧ Orderly g m' (s.unbind (d, name)) := by
  obtain ⟨k, hk, hscan, hent⟩ := h.looked_up hd hdir hz hlook
  obtain ⟨-, hi, -⟩ := h.toTallied.named hd hent
  have hnd : ¬ IsDir m i := fun h' => hino (h.standing.isDirectory_iff.2 ⟨hi, h'⟩)
  obtain ⟨m', hrun, hu⟩ := h.standing.unlink_spec hd hdir hi hnd hk hscan
  obtain ⟨m₂, hl, hclear, hcount, hst, hs⟩ := h.unlinked hd hdir hk hnd hent hu
  exact ⟨m', hrun, (h.unbind hl hd hent hclear hcount).congr hst hs⟩

end Orderly

/-! ## Runs -/

/-- The names of a call are C strings; the kernel has looked up the inode that is linked or
unlinked. -/
def DirCall.Current (m : Mem) : DirCall → Prop
  | enter _ (.create name _ _) => 0 ∉ name
  | enter _ (.symlink name _ _) => 0 ∉ name
  | enter _ (.link srcIno name) => 0 ∉ name ∧ ∃ dirIno srcName, IsDirectory m dirIno ∧
      0 ∉ srcName ∧ ospfsDirLookup m dirIno srcName true = some (.ok (some srcIno))
  | unlink dirIno name ino => 0 ∉ name ∧
      ospfsDirLookup m dirIno name true = some (.ok (some ino))

theorem Orderly.step (h : Orderly g m s) {c : DirCall} (hi : c.Issued m) (hcur : c.Current m)
    (hc : c.Contained m) : ∃ r m' s', c.run m = some (r, m') ∧
      Namespace.Step g.ninodes s (c, r) s' ∧ Orderly g m' s' := by
  cases c with
  | unlink d name i =>
    obtain ⟨hd, hdir⟩ := h.standing.isDirectory_iff.1 hi.1
    have hb := h.bound_of_lookup hi.1 hcur.1 hcur.2
    obtain ⟨m', hrun, h'⟩ := h.unlink hd hdir hcur.1 hi.2 hcur.2
    exact ⟨_, m', _, hrun, .unlink hb, h'⟩
  | enter d c =>
    cases c with
    | create name mode newInode =>
      obtain ⟨hd, hdir⟩ := h.standing.isDirectory_iff.1 hi.1
      exact h.create hd hdir hc hi.2 hcur mode newInode
    | symlink name symname newInode =>
      obtain ⟨hd, hdir⟩ := h.standing.isDirectory_iff.1 hi.1
      exact h.symlink hd hdir hc hcur symname newInode
    | link i name =>
      obtain ⟨hd, hdir⟩ := h.standing.isDirectory_iff.1 hi.1
      obtain ⟨hz, d', nm, hdir', hz', hl⟩ := hcur
      exact h.link hd hdir hc hz hi.2 ⟨_, h.bound_of_lookup hdir' hz' hl⟩

/-- The calls and their results, from an image in which no name is entered twice. -/
def nameCalls (o : Options) : System Mem (DirCall × Ret) where
  Init m := (∃ st, formatted o = some (st, m)) ∧ DistinctNames m
  Step m c m' := c.1.Issued m ∧ c.1.Current m ∧ c.1.run m = some (c.2, m')

theorem Image.orderly {st : Globals} {mc mf : Mem} (h : Image g st mc mf) (hn : DistinctNames mf) :
    Orderly g mf ⟨(table g mf).find, {j | j < g.ninodes ∧ IsDir mf j}, ∅⟩ := by
  exact ⟨h.tallied, hn.single h.standing, rfl, fun _ => Iff.rfl⟩

/-- What the disk says is what the maps say. -/
structure Namespace.Describes (s : Namespace) (m : Mem) : Prop where
  lookup : ∀ d name, IsDirectory m d → 0 ∉ name → ospfsDirLookup m d name true =
    some (if name.length > 123 then .error .eNameTooLong else .ok (s.bound (d, name)))
  find : ∀ d oi name, ospfsInode m d = some oi → oiFtype m oi = ftypeDir → 0 ∉ name →
    (findDirentry m oi name).isSome = (s.bound (d, name)).isSome
  names : ∀ e i, s.bound e = some i → IsDirectory m e.1 ∧ e.2.length ≤ 123 ∧ 0 ∉ e.2
  distinct : DistinctNames m
  links : ∀ i oi, 2 ≤ i → ospfsInode m i = some oi → oiFtype m oi ≠ ftypeDir →
    oiNlink m oi = {e | s.bound e = some i}.ncard + if i ∈ s.lost then 1 else 0
  returns : ∀ c : DirCall, c.Issued m → c.Current m → c.Contained m → ∃ r m', c.run m = some (r, m')

theorem Orderly.describes (h : Orderly g m s) : s.Describes m := by
  refine ⟨fun d name hdir hz => ?_, fun d oi name hoi hdir hz => ?_, fun e i he => ?_,
    fun d hdir k k' name i i' hk hk' => ?_, fun i oi h2 hoi hnd => ?_, fun c hi hcur hc => ?_⟩
  · obtain ⟨hd, hdd⟩ := h.standing.isDirectory_iff.1 hdir
    exact h.dirLookup hd hdd hz
  · obtain ⟨hd, rfl⟩ := h.standing.tidy.of_ospfsInode hoi
    exact h.findDirentry_isSome hd hdir hz
  · obtain ⟨hd, k, hk⟩ := h.bound_eq_some (d := e.1) |>.1 he
    obtain ⟨hlen, hz, -⟩ := h.names _ _ _ _ hd hk
    exact ⟨h.standing.isDirectory_iff.2 ⟨hd, (dirent_lt hk).1⟩, hlen, hz⟩
  · obtain ⟨hd, -⟩ := h.standing.isDirectory_iff.1 hdir
    have heq := h.single (d, k) (d, k') (d, name) i i' (table_eq_some.2 ⟨hd, rfl, hk⟩)
      (table_eq_some.2 ⟨hd, rfl, hk'⟩)
    exact congrArg Prod.snd heq
  · obtain ⟨hi, rfl⟩ := h.standing.tidy.of_ospfsInode hoi
    exact h.links_ncard h2 hi fun hd => hnd ((h.dirs i).1 hd).2
  · obtain ⟨r, m', -, hrun, -⟩ := h.step hi hcur hc
    exact ⟨r, m', hrun⟩

/-- **Directories are finite maps.** Every run of the calls that starts no new table in a directory
is a run of the maps, with the same calls and results, and ends on a disk that the map at its end
describes: its look-ups, the entries and the link counts. -/
theorem namespace_refines {calls : List (DirCall × Ret)}
    (h : (nameCalls o).RunIf (fun m c => c.1.Contained m) calls m) :
    ∃ s, (Namespace.system o.ninodes).Run calls s ∧ s.Describes m ∧
      ∀ i ∈ s.lost, ∀ e, s.bound e ≠ some i := by
  have hsim : ∃ s, (Namespace.system o.ninodes).Run calls s ∧
      ∃ g : Geometry, g.ninodes = o.ninodes ∧ Orderly g m s := by
    refine h.simulates (R := fun m s => ∃ g : Geometry, g.ninodes = o.ninodes ∧ Orderly g m s) ?_ ?_
    · rintro m ⟨⟨st, hf⟩, hn⟩
      obtain ⟨g, mc, hg, himg⟩ := formatted_fits hf
      refine ⟨_, ?_, g, hg.ninodes, himg.orderly hn⟩
      rfl
    · rintro m s ⟨c, r⟩ m' ⟨g, hg, hord⟩ hc ⟨hi, hcur, hrun⟩
      obtain ⟨r', m'', s', hrun', hstep, hord'⟩ := hord.step hi hcur hc
      rw [hrun] at hrun'
      cases hrun'
      exact ⟨s', hg ▸ hstep, g, hg, hord'⟩
  obtain ⟨s, hrun, g, -, hord⟩ := hsim
  exact ⟨s, hrun, hord.describes, Namespace.lost_unnamed hrun⟩

/-! ## A run -/

def DistinctIn (m : Mem) (d : Nat) : Prop := ∀ k < entries m d, ∀ k' < entries m d,
  (dirent m d k).isSome → (dirent m d k).map Prod.fst = (dirent m d k').map Prod.fst → k = k'

instance (m : Mem) (d : Nat) : Decidable (DistinctIn m d) :=
  inferInstanceAs (Decidable (∀ k < entries m d, ∀ k' < entries m d, _ → _ → k = k'))

theorem distinctNames_iff :
    DistinctNames m ↔ ∀ d < osNinodes m, IsDirectory m d → DistinctIn m d := by
  constructor
  · intro h d _ hdir k _ k' _ hsome heq
    obtain ⟨⟨name, i⟩, hv⟩ := Option.isSome_iff_exists.1 hsome
    rw [hv] at heq
    obtain ⟨⟨name', i'⟩, hv', he⟩ := Option.map_eq_some_iff.1 heq.symm
    obtain rfl : name' = name := he
    exact h d hdir k k' name' i i' hv hv'
  · intro h d hdir k k' name i i' hk hk'
    have hd : d < osNinodes m := by
      obtain ⟨oi, hoi, -⟩ := hdir
      unfold ospfsInode at hoi
      by_contra hge
      rw [if_pos (Nat.le_of_not_lt hge)] at hoi
      cases hoi
    refine h d hd hdir k (dirent_lt hk).2.1 k' (dirent_lt hk').2.1 (by rw [hk]; rfl) ?_
    rw [hk, hk']
    rfl

instance (m : Mem) : Decidable (DistinctNames m) := decidable_of_iff' _ distinctNames_iff

/-- `Current` for the calls that make a file or remove a name. -/
def currentCheck (m : Mem) : DirCall → Bool
  | .enter _ (.create name _ _) => decide (0 ∉ name)
  | .unlink dirIno name ino => decide (0 ∉ name ∧
      ospfsDirLookup m dirIno name true = some (.ok (some ino)))
  | _ => false

theorem current_of_check {c : DirCall} (h : currentCheck m c = true) : c.Current m := by
  cases c with
  | unlink d name i =>
    rw [currentCheck, decide_eq_true_eq] at h
    exact h
  | enter d c =>
    cases c with
    | create name mode newInode =>
      rw [currentCheck, decide_eq_true_eq] at h
      exact h
    | symlink name symname newInode => cases h
    | link i name => cases h

def perform (m : Mem) (c : DirCall × Ret) : Option Mem :=
  (c.1.run m).bind fun r => if r.1 = c.2 then some r.2 else none

/-- Removing `l`, and making a file `a`. -/
def replacing : List (DirCall × Ret) :=
  [(.unlink 1 [108] 2, .ok ()), (.enter 1 (.create [97] 420 true), .ok ())]

def replaced : Option Mem := do
  let r ← formatted (oneLink ⟨[121], by decide⟩)
  if DistinctNames r.2 then
    System.execIf (fun m c => decide (c.1.Issued m ∧ c.1.Contained m) && currentCheck m c.1)
      perform r.2 replacing
  else none

theorem replaced_run (h : replaced = some m) : (nameCalls (oneLink ⟨[121], by decide⟩)).RunIf
    (fun m c => c.1.Contained m) replacing.reverse m := by
  unfold replaced at h
  obtain ⟨⟨st, m₀⟩, hf, h⟩ := Option.bind_eq_some_iff.1 h
  split at h
  · rename_i hn
    refine System.runIf_of_execIf ?_ ⟨⟨st, hf⟩, hn⟩ h
    intro m c m' hc hr
    obtain ⟨hdec, hcur⟩ := Bool.and_eq_true_iff.1 hc
    obtain ⟨hi, hcont⟩ := of_decide_eq_true hdec
    obtain ⟨⟨r, m''⟩, hrun, hr⟩ := Option.bind_eq_some_iff.1 hr
    split at hr
    · rename_i hres
      cases hr
      obtain rfl : r = c.2 := hres
      exact ⟨hcont, hi, current_of_check hcur, hrun⟩
    · cases hr
  · cases h

theorem namespace_refines_replaced : ∃ m s,
    (nameCalls (oneLink ⟨[121], by decide⟩)).RunIf (fun m c => c.1.Contained m)
      replacing.reverse m ∧
    (Namespace.system 16).Run replacing.reverse s ∧
    s.bound (1, [97]) = some 2 ∧ s.bound (1, [108]) = none := by
  have hsome : replaced.any (fun m => decide (IsDirectory m 1 ∧
      ospfsDirLookup m 1 [97] true = some (.ok (some 2)) ∧
      ospfsDirLookup m 1 [108] true = some (.ok none))) = true := by decide +kernel
  obtain ⟨m, hm, hchecks⟩ := (Option.any_eq_true _ _).1 hsome
  obtain ⟨hdir, ha, hl⟩ := of_decide_eq_true hchecks
  obtain ⟨s, hrun, hdesc, -⟩ := namespace_refines (replaced_run hm)
  rw [hdesc.lookup 1 _ hdir (by decide), Option.some.injEq] at ha hl
  exact ⟨m, s, replaced_run hm, hrun, Except.ok.inj ha, Except.ok.inj hl⟩

end OsLabs.Ospfs
