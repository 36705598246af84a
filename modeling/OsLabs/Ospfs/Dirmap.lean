import OsLabs.Ospfs.Lost

/-!
# OSPFS: one map for all the loops

The calls on names when `ospfs_create` is given names of any length: while the names fit their
entries and the kernel has an inode for each new file, one map goes with the disk that a call
changes by its name if it succeeds and leaves alone if it fails, and the loops of
`find_direntry`, `ospfs_dir_lookup` and `ospfs_unlink` all find what it says (`namings_mapped`).
-/

namespace OsLabs.Ospfs

variable {o : Options} {g : Geometry} {m m' : Mem} {s : Namespace} {d ino : Nat} {name : Bytes}
  {r : Ret}

/-- A map from the names in the directories to inodes. -/
abbrev NameMap := Nat × Bytes → Option Nat

/-- The entry that `ospfs_unlink` clears. -/
def unlinkEntry (m : Mem) (dirOi : Nat) (name : Bytes) : Option Nat :=
  let (entryOff, od) := unlinkScan m dirOi name (direntries m dirOi) 0 0
  if entryOff = oiSize m dirOi then none else some od

namespace NameMap

inductive Step : NameMap → DirCall × Ret → NameMap → Prop
  | make {s : NameMap} {d i : Nat} {c : NameCall} (hc : ¬ c.IsLink) (hlen : c.name.length ≤ 123)
      (hnew : s (d, c.name) = none) :
      Step s (.enter d c, .ok ()) (Function.update s (d, c.name) (some i))
  | link {s : NameMap} {d i : Nat} {name : Bytes} (hlen : name.length ≤ 123)
      (hnew : s (d, name) = none) :
      Step s (.enter d (.link i name), .ok ()) (Function.update s (d, name) (some i))
  | unlink {s : NameMap} {d i : Nat} {name : Bytes} (hold : s (d, name) = some i) :
      Step s (.unlink d name i, .ok ()) (Function.update s (d, name) none)
  | fail {s : NameMap} {c : DirCall} {e : Errno} : Step s (c, .error e) s

/-- The loops on disk `m` find what the map says. -/
structure Agrees (s : NameMap) (m : Mem) : Prop where
  finite : {e | s e ≠ none}.Finite
  lookup : ∀ d name, IsDirectory m d → 0 ∉ name → ospfsDirLookup m d name true =
    some (if name.length > 123 then .error .eNameTooLong else .ok (s (d, name)))
  find : ∀ d oi name, ospfsInode m d = some oi → oiFtype m oi = ftypeDir → 0 ∉ name →
    (findDirentry m oi name).map (odIno m) = s (d, name)
  unlink : ∀ d oi name, ospfsInode m d = some oi → oiFtype m oi = ftypeDir → 0 ∉ name →
    (unlinkEntry m oi name).map (odIno m) = s (d, name)
  distinct : DistinctNames m
  tooLong : ∀ d name, IsDirectory m d → 123 < name.length →
    (∀ i, ospfsLink m i d name = some (.error .eNameTooLong, m)) ∧
    ∀ symname newInode, ospfsSymlink m d name symname newInode = some (.error .eNameTooLong, m)

end NameMap

/-! ## The loop of `ospfs_unlink` -/

theorem unlinkScan_of_none {oi n off od : Nat}
    (hs : scan m oi (lookupMatches m name) n off = none) :
    (unlinkScan m oi name n off od).1 = off + 128 * n := by
  induction n generalizing off od with
  | zero => rfl
  | succ n ih =>
    rw [scan] at hs
    rw [unlinkScan]
    split at hs
    · cases hs
    · rename_i ht
      simp only [ht, if_false, Bool.false_eq_true]
      rw [ih hs]
      omega

theorem Standing.unlinkEntry (h : Standing g m) (hd : d < g.ninodes) (hdir : IsDir m d) :
    unlinkEntry m (inodeAddr d) name = findDirentry m (inodeAddr d) name := by
  have hok := h.dirOk hd hdir
  have hwhole := hok.whole
  have hrounds : 128 * direntries m (inodeAddr d) = oiSize m (inodeAddr d) := by
    rw [hok.direntries]
    unfold entries
    omega
  unfold Ospfs.unlinkEntry findDirentry
  rw [← funext (lookupMatches_eq m name)]
  rcases hs : scan m (inodeAddr d) (lookupMatches m name) (direntries m (inodeAddr d)) 0 with
    _ | od
  · have hoff : (Ospfs.unlinkScan m (inodeAddr d) name _ 0 0).1 = _ :=
      unlinkScan_of_none hs
    rw [Nat.zero_add, hrounds] at hoff
    exact if_pos hoff
  · obtain ⟨off, hoff, hloop⟩ := unlinkScan_of_scan (o := 0) hs
    rw [hloop]
    exact if_neg (by omega)

/-! ## What the disk says -/

theorem Orderly.finite (h : Orderly g m s) : {e | s.bound e ≠ none}.Finite := by
  refine ((positions g).finite_toSet.image fun p =>
    (p.1, ((dirent m p.1 p.2).map Prod.fst).getD [])).subset ?_
  rintro e he
  obtain ⟨i, hi⟩ := Option.ne_none_iff_exists'.1 he
  obtain ⟨hd, k, hk⟩ := h.bound_eq_some (d := e.1) |>.1 hi
  refine ⟨(e.1, k), h.position hd hk, ?_⟩
  simp only [hk]
  rfl

theorem Orderly.agrees (h : Orderly g m s) : NameMap.Agrees s.bound m := by
  refine ⟨h.finite, h.describes.lookup, fun d oi name hoi hdir hz => ?_,
    fun d oi name hoi hdir hz => ?_, h.describes.distinct, fun d name hdir hlong => ⟨fun i => ?_,
      fun symname newInode => ?_⟩⟩
  · obtain ⟨hd, rfl⟩ := h.standing.tidy.of_ospfsInode hoi
    exact h.scan_name hd hdir hz
  · obtain ⟨hd, rfl⟩ := h.standing.tidy.of_ospfsInode hoi
    rw [h.standing.unlinkEntry hd hdir]
    exact h.scan_name hd hdir hz
  · unfold ospfsLink
    exact if_pos hlong
  · obtain ⟨oi, hoi, -⟩ := hdir
    unfold ospfsSymlink
    rw [hoi]
    exact if_pos (.inl hlong)

/-! ## Calls -/

/-- The name fits its entry, and the kernel has an inode for a new file. -/
def NameCall.Entered : NameCall → Prop
  | create name _ newInode => name.length ≤ 123 ∧ newInode = true
  | symlink _ _ newInode => newInode = true
  | link _ _ => True

/-- The call is refused, or it enters its name in a directory that starts no new table. -/
def DirCall.Kept (m : Mem) : DirCall → Prop
  | enter dirIno c => ∀ oi, ospfsInode m dirIno = some oi →
      c.Refused m oi ∨ (c.Entered ∧ StaysInTables m dirIno)
  | unlink _ _ _ => True

theorem Standing.enter_noMem (h : Standing g m) (hd : d < g.ninodes) (hdir : IsDir m d)
    (hno : StaysInTables m d) {c : NameCall} (hlink : ¬ c.IsLink) (hc : c.Entered)
    (hrun : c.run m d = some (r, m')) : r ≠ .error .eNoMem := by
  cases c with
  | create name mode newInode =>
    obtain ⟨r', m₁, hrun', -, hmem⟩ := h.create_spec hd hdir hno hc.1 mode newInode
    cases hrun.symm.trans hrun'
    exact hmem hc.2
  | symlink name symname newInode =>
    obtain ⟨r', m₁, hrun', -, hmem⟩ := h.symlink_spec hd hdir hno name symname newInode
    cases hrun.symm.trans hrun'
    exact hmem hc
  | link i name => exact absurd trivial hlink

theorem NameCall.Entered.fits {c : NameCall} (h : c.Entered) : c.Fits := by
  cases c with
  | create name mode newInode => exact h.1
  | symlink name symname newInode => trivial
  | link i name => trivial

/-- A successful call has a name that fits its entry. -/
theorem NameCall.length_le {c : NameCall} (hc : c.Entered) (hrun : c.run m d = some (.ok (), m')) :
    c.name.length ≤ 123 := by
  by_contra hlong
  cases c with
  | create name mode newInode => exact hlong hc.1
  | symlink name symname newInode =>
    change ospfsSymlink m d name symname newInode = _ at hrun
    unfold ospfsSymlink at hrun
    split at hrun
    · cases hrun
    · rw [if_pos (.inl (Nat.lt_of_not_le hlong))] at hrun
      cases hrun
  | link i name =>
    change ospfsLink m i d name = _ at hrun
    unfold ospfsLink at hrun
    have hlong' : name.length > 123 := Nat.lt_of_not_le hlong
    rw [if_pos hlong'] at hrun
    cases hrun

/-- **One call**: the names change as in the map. -/
theorem Orderly.map_step (h : Orderly g m s) {c : DirCall} (hi : c.Handed m) (hcur : c.Current m)
    (hc : c.Kept m) (hrun : c.run m = some (r, m')) :
    ∃ s', Orderly g m' s' ∧ NameMap.Step s.bound (c, r) s'.bound := by
  cases c with
  | unlink d name i =>
    have hi' : (DirCall.unlink d name i).Issued m := hi
    obtain ⟨r', m₁, s', hrun', hstep, h'⟩ := h.step hi' hcur trivial
    cases hrun.symm.trans hrun'
    cases hstep with
    | unlink hold => exact ⟨_, h', .unlink hold⟩
  | enter d c =>
    have hdir := hi.isDirectory
    obtain ⟨hd, hdd⟩ := h.standing.isDirectory_iff.1 hdir
    rcases hc _ (h.standing.tidy.ospfsInode hd) with hr | ⟨hent, hno⟩
    · obtain ⟨e, hrun'⟩ := hr.run (h.standing.tidy.ospfsInode hd)
      cases hrun.symm.trans hrun'
      exact ⟨s, h, .fail⟩
    obtain ⟨r', m₁, s', hrun', hstep, h'⟩ := h.step (hi.issued hent.fits) hcur hno
    cases hrun.symm.trans hrun'
    refine ⟨s', h', ?_⟩
    cases hstep with
    | enter hlink hr hnew _ =>
      have hmem := h.standing.enter_noMem hd hdd hno hlink hent hrun
      obtain rfl := hr.resolve_right hmem
      exact .make hlink (NameCall.length_le hent hrun) hnew
    | link hnew _ => exact .link (NameCall.length_le hent hrun) hnew
    | lose _ _ _ => exact .fail
    | exhausted _ _ => exact .fail
    | full _ => exact .fail
    | taken _ => exact .fail
    | tooLong _ => exact .fail

/-- The calls and their results, from an image in which no name is entered twice; `ospfs_create`
gets names of any length. -/
def namings (o : Options) : System Mem (DirCall × Ret) where
  Init := (nameCalls o).Init
  Step m c m' := c.1.Handed m ∧ c.1.Current m ∧ c.1.run m = some (c.2, m')

/-- Runs with one map beside the disk, which changes with the calls and which all loops agree
with. -/
def mapped (o : Options) : System (Mem × NameMap) (DirCall × Ret) where
  Init p := (namings o).Init p.1 ∧ p.2.Agrees p.1
  Step p c p' := (namings o).Step p.1 c p'.1 ∧ p.2.Step c p'.2 ∧ p'.2.Agrees p'.1

/-- **Directories are finite maps** in every run whose calls are refused, or have names that fit
and start no new table. -/
theorem namings_mapped {calls : List (DirCall × Ret)}
    (h : (namings o).RunIf (fun m c => c.1.Kept m) calls m) : ∃ s, (mapped o).Run calls (m, s) := by
  have hsim : ∃ p, (mapped o).Run calls p ∧ p.1 = m ∧
      ∃ (g : Geometry) (n : Namespace), Orderly g m n ∧ n.bound = p.2 := by
    refine h.simulates (R := fun m (p : Mem × NameMap) => p.1 = m ∧
      ∃ (g : Geometry) (n : Namespace), Orderly g m n ∧ n.bound = p.2) ?_ ?_
    · rintro m ⟨⟨st, hf⟩, hn⟩
      obtain ⟨g, mc, -, himg⟩ := formatted_fits hf
      have hord := himg.orderly hn
      exact ⟨(m, _), ⟨⟨⟨st, hf⟩, hn⟩, hord.agrees⟩, rfl, g, _, hord, rfl⟩
    · rintro m ⟨_, s⟩ ⟨c, r⟩ m' ⟨rfl, g, n, hord, rfl⟩ hc hcall
      obtain ⟨n', hord', hstep⟩ := hord.map_step hcall.1 hcall.2.1 hc hcall.2.2
      exact ⟨(m', _), ⟨hcall, hstep, hord'.agrees⟩, rfl, g, n', hord', rfl⟩
  obtain ⟨⟨_, s⟩, hrun, rfl, -⟩ := hsim
  exact ⟨s, hrun⟩

theorem mapped_agrees {calls : List (DirCall × Ret)} {f : NameMap}
    (h : (mapped o).Run calls (m, f)) : f.Agrees m := by
  cases h with
  | init hi => exact hi.2
  | step _ _ hs => exact hs.2.2

/-! ## Runs -/

/-- `Kept` for the calls that make a file or remove a name. -/
def keptCheck (m : Mem) : DirCall → Bool
  | .enter dirIno (.create name _ newInode) =>
    decide (name.length ≤ 123 ∧ newInode = true ∧ StaysInTables m dirIno)
  | .enter _ _ => false
  | .unlink _ _ _ => true

theorem kept_of_check {c : DirCall} (h : keptCheck m c = true) : c.Kept m := by
  cases c with
  | unlink d name i => trivial
  | enter d c =>
    cases c with
    | create name mode newInode =>
      obtain ⟨hlen, hnew, hno⟩ := of_decide_eq_true h
      exact fun _ _ => .inr ⟨⟨hlen, hnew⟩, hno⟩
    | symlink name symname newInode => cases h
    | link i name => cases h

def entered (check : Mem → DirCall → Bool) (name : Bytes) : Option Mem := do
  let r ← formatted helloOptions
  if DistinctNames r.2 then performAll check r.2 (entering name) else none

theorem entered_run {check : Mem → DirCall → Bool} {G : Mem → DirCall × Ret → Prop}
    (hG : ∀ m c, check m c.1 = true → G m c) (h : entered check name = some m) :
    (namings helloOptions).RunIf G (entering name).reverse m := by
  unfold entered at h
  obtain ⟨⟨st, m₀⟩, hf, h⟩ := Option.bind_eq_some_iff.1 h
  split at h
  · rename_i hn
    exact runIf_of_performAll (fun _ _ _ h => h) hG ⟨⟨st, hf⟩, hn⟩ h
  · cases h

theorem namings_mapped_entered : ∃ m s,
    (namings helloOptions).RunIf (fun m c => c.1.Kept m) (entering [99]).reverse m ∧
    (mapped helloOptions).Run (entering [99]).reverse (m, s) ∧
    s (1, [97]) = none ∧ s (1, [98]) = some 5 ∧ s (1, [99]) = some 4 := by
  have hsome : (entered keptCheck [99]).any (fun m => decide (IsDirectory m 1 ∧
      ospfsDirLookup m 1 [97] true = some (.ok none) ∧
      ospfsDirLookup m 1 [98] true = some (.ok (some 5)) ∧
      ospfsDirLookup m 1 [99] true = some (.ok (some 4)))) = true := by decide +kernel
  obtain ⟨m, hm, hchecks⟩ := (Option.any_eq_true _ _).1 hsome
  obtain ⟨hdir, ha, hb, hc⟩ := of_decide_eq_true hchecks
  have hrun := entered_run (G := fun m c => c.1.Kept m) (fun m c => kept_of_check) hm
  obtain ⟨s, hs⟩ := namings_mapped hrun
  have hag := mapped_agrees hs
  rw [hag.lookup 1 _ hdir (by decide), Option.some.injEq] at ha hb hc
  exact ⟨m, s, hrun, hs, Except.ok.inj ha, Except.ok.inj hb, Except.ok.inj hc⟩

/-- A name of 124 bytes is entered, and with it `b`, in the entry behind, is gone. -/
theorem longName_entered : ∃ m,
    (namings helloOptions).Run (entering (List.replicate 124 99)).reverse m ∧
    ospfsDirLookup m 1 [98] true = some (.ok none) ∧
    ¬ ∃ s, (mapped helloOptions).Run (entering (List.replicate 124 99)).reverse (m, s) := by
  have hsome : (entered (fun _ _ => true) (List.replicate 124 99)).any (fun m => decide (
      ospfsDirLookup m 1 [98] true = some (.ok none))) = true := by decide +kernel
  obtain ⟨m, hm, hgone⟩ := (Option.any_eq_true _ _).1 hsome
  refine ⟨m, entered_run (fun _ _ _ => trivial) hm, of_decide_eq_true hgone, ?_⟩
  rintro ⟨s, hs⟩
  cases hs with
  | step _ _ hs =>
    cases hs.2.1 with
    | make _ hlen _ =>
      have hlong : (List.replicate 124 (99 : UInt8)).length ≤ 123 := hlen
      rw [List.length_replicate] at hlong
      omega

/-- Without an inode of the kernel's the name is entered, and the call fails. -/
theorem noInode_entered : ∃ m,
    (namings helloOptions).Run [(.enter 1 (.create [97] 420 false), .error .eNoMem)] m ∧
    ospfsDirLookup m 1 [97] true = some (.ok (some 4)) ∧
    ¬ ∃ s, (mapped helloOptions).Run
      [(.enter 1 (.create [97] 420 false), .error .eNoMem)] (m, s) := by
  have hsome : (formatted helloOptions).any (fun r => decide (DistinctNames r.2 ∧
      IsDirectory r.2 1 ∧ ospfsDirLookup r.2 1 [97] true = some (.ok none) ∧
      (ospfsCreate r.2 1 [97] 420 false).any fun q => decide (q.1 = .error .eNoMem ∧
        IsDirectory q.2 1 ∧ ospfsDirLookup q.2 1 [97] true = some (.ok (some 4))))) = true := by
    decide +kernel
  obtain ⟨⟨st, m₀⟩, hf, hchecks⟩ := (Option.any_eq_true _ _).1 hsome
  obtain ⟨hn, hdir₀, hnone, hchecks⟩ := of_decide_eq_true hchecks
  obtain ⟨⟨r, m⟩, hrun, hchecks⟩ := (Option.any_eq_true _ _).1 hchecks
  obtain ⟨rfl, hdir, hfound⟩ := of_decide_eq_true hchecks
  refine ⟨m, .step (.init ⟨⟨st, hf⟩, hn⟩) trivial ⟨hdir₀, (by decide : (0 : UInt8) ∉ [97]), hrun⟩,
    hfound, ?_⟩
  rintro ⟨s, hs⟩
  have hnow := mapped_agrees hs
  cases hs with
  | @step _ p _ _ hinit _ hs =>
    have hbefore := mapped_agrees hinit
    have hmem : p.1 = m₀ := by
      cases hinit with
      | init hi =>
        obtain ⟨⟨⟨st', hf'⟩, -⟩, -⟩ := hi
        exact congrArg Prod.snd (Option.some.inj (hf'.symm.trans hf))
    rw [hmem] at hbefore
    rw [hbefore.lookup 1 _ hdir₀ (by decide), Option.some.injEq] at hnone
    rw [hnow.lookup 1 _ hdir (by decide), Option.some.injEq] at hfound
    cases hs.2.1 with
    | fail => cases (Except.ok.inj hnone).symm.trans (Except.ok.inj hfound)

theorem namings_unmapped :
    (∃ m, (namings helloOptions).Run (entering (List.replicate 124 99)).reverse m ∧
      ospfsDirLookup m 1 [98] true = some (.ok none) ∧
      ¬ ∃ s, (mapped helloOptions).Run (entering (List.replicate 124 99)).reverse (m, s)) ∧
    ∃ m, (namings helloOptions).Run [(.enter 1 (.create [97] 420 false), .error .eNoMem)] m ∧
      ospfsDirLookup m 1 [97] true = some (.ok (some 4)) ∧
      ¬ ∃ s, (mapped helloOptions).Run
        [(.enter 1 (.create [97] 420 false), .error .eNoMem)] (m, s) :=
  ⟨longName_entered, noInode_entered⟩

end OsLabs.Ospfs
