import OsLabs.Ospfs.Filetree

/-!
# OSPFS: name creation that fails, in runs

On the disks that the calls lead to the blocks of the directories are in order
(`Settled.directories`). So there a call that fails to enter a name leaves the disk as it was
exactly where it is refused, or is a link to a directory that gets no block (`nameCalls_atomic`).
-/

namespace OsLabs.Ospfs

open Volume

variable {o : Options} {g : Geometry} {m m' : Mem} {t : FileTree} {c : NameCall}

theorem Settled.mounted (h : Settled g m) : g.volume.Mounted m :=
  ⟨h.tidy.super.nblocks, h.tidy.super.ninodes, h.tidy.super.firstinob, h.tidy.low⟩

theorem Settled.owns {j : Nat} (h : Settled g m) (hf : Files g m j) :
    Owns (ptr m (inodeAddr j)) g.volume.IsData ∧ Taken m (inodeAddr j) := by
  have hok (p : Place) (h0 : ptr m (inodeAddr j) p ≠ 0) :
      Allocated g m (ptr m (inodeAddr j) p) := by
    rw [← own_of_mem hf] at h0 ⊢
    exact h.tidy.laid.owns.ok _ h0
  refine ⟨⟨fun p h0 => (hok p h0).1, fun p q h0 he => ?_⟩, fun p h0 => (hok p h0).2⟩
  rw [← own_of_mem hf] at h0
  rw [← own_of_mem hf, ← own_of_mem hf] at he
  exact congrArg Prod.snd (h.tidy.laid.owns.inj _ _ h0 he)

theorem Settled.directories (h : Settled g m) : g.volume.Directories m ∧
    ∀ d, g.volume.Dir m d → fileblks m d + 8 ≤ maxfileblks := by
  have hdir (d : Nat) (hd : g.volume.Dir m d) :
      ∃ j, d = inodeAddr j ∧ IsDir m j ∧ Files g m j := by
    obtain ⟨⟨j, hj, rfl⟩, -, htype⟩ := hd
    have hdirj : IsDir m j := htype
    exact ⟨j, rfl, hdirj, files_of_isDir hdirj hj⟩
  have hsize (d : Nat) (hd : g.volume.Dir m d) : fileblks m d + 8 ≤ maxfileblks := by
    obtain ⟨j, rfl, -, hf⟩ := hdir d hd
    have hblocks := h.fileBlocks hf
    have hsmall := h.tidy.fileBlocks_small hf
    have := g.small
    unfold fileblks maxfileblks
    omega
  refine ⟨⟨h.mounted, h.tidy.boot, fun d hd => by have := hsize d hd; omega, fun d hd => ?_,
    fun d hd => ?_⟩, hsize⟩
  · obtain ⟨j, rfl, -, hf⟩ := hdir d hd
    exact (h.owns hf).1
  · obtain ⟨j, rfl, -, hf⟩ := hdir d hd
    exact (h.owns hf).2

/-- The conditions of `Contained` for the calls that may change the disk. -/
def FileCall.Careful (m : Mem) : FileCall → Prop
  | read _ _ _ _ => True
  | c => c.Contained m

theorem Filed.careful (h : Filed g m t) {c : FileCall} {r : FileRet} (hi : c.Issued m)
    (hc : c.Careful m) (hrun : c.run m = some (r, m')) : ∃ t', Filed g m' t' := by
  by_cases hcont : c.Contained m
  · obtain ⟨r', m'', t', hrun', -, h'⟩ := h.step hi hcont
    rw [hrun] at hrun'
    cases hrun'
    exact ⟨t', h'⟩
  · cases c with
    | read i copyToUser count pos =>
      obtain ⟨oi, -, hr⟩ := Option.bind_eq_some_iff.1 hrun
      obtain ⟨u, -, he⟩ := Option.map_eq_some_iff.1 hr
      cases he
      exact ⟨t, h⟩
    | name c => exact absurd hc hcont
    | write i append buffer count pos => exact absurd hc hcont
    | resize i size => exact absurd hc hcont

/-- The disks that careful calls lead to. -/
theorem run_settled {calls : List (FileCall × FileRet)}
    (h : (fileCalls o).RunIf (fun m c => c.1.Careful m) calls m) : ∃ g, Settled g m := by
  have hinv : ∃ g t, Filed g m t := by
    refine h.inv (I := fun _ m => ∃ g t, Filed g m t) ?_ ?_
    · rintro m ⟨⟨st, hf⟩, hn⟩
      obtain ⟨g, mc, -, himg⟩ := formatted_fits hf
      exact ⟨g, ⟨_, fileMap g m⟩, himg.orderly hn, himg.settled, rfl⟩
    · rintro calls m ⟨c, r⟩ m' ⟨g, t, hfiled⟩ hc ⟨hi, hrun⟩
      obtain ⟨t', h'⟩ := hfiled.careful hi hc hrun
      exact ⟨g, t', h'⟩
  obtain ⟨g, t, hfiled⟩ := hinv
  exact ⟨g, hfiled.settled⟩

/-- **Failed name creation is atomic** in every state that careful calls lead to, exactly where
the call is refused before it claims an inode, or is a link and the free blocks are too few for
the first block that the directory is to get. -/
theorem nameCalls_atomic {calls : List (FileCall × FileRet)} {d oi : Nat} {e : Errno}
    (h : (fileCalls o).RunIf (fun m c => c.1.Careful m) calls m)
    (hoi : ospfsInode m d = some oi) (hdir : oiFtype m oi = ftypeDir) (he : NameError e)
    (hrun : c.run m d = some (.error e, m')) :
    ∃ V : Volume, V.Mounted m ∧ (V.SameState m m' ↔
      c.Refused m oi ∨ (c.IsLink ∧ freeBlocks m < blocksNeeded m oi (fileblks m oi))) := by
  obtain ⟨g, hset⟩ := run_settled h
  obtain ⟨hd, rfl⟩ := hset.tidy.of_ospfsInode hoi
  obtain ⟨hdirs, hsize⟩ := hset.directories
  have hlive : g.volume.Dir m (inodeAddr d) := ⟨⟨d, hd, rfl⟩, (hset.dirs d hd hdir).2, hdir⟩
  obtain ⟨hrefused, hlink, hconv⟩ := nameCall_atomic_iff c hoi he hrun
  refine ⟨g.volume, hset.mounted, fun hsame => ?_, ?_⟩
  · exact hconv hdirs hlive (.inl (hsize _ hlive)) hsame
  · rintro (hr | ⟨hl, hroom⟩)
    · rw [hrefused hr]
      exact .refl
    · exact hlink hdirs hlive hl hroom

theorem FileCall.Contained.careful {c : FileCall} (h : c.Contained m) : c.Careful m := by
  cases c with
  | read i copyToUser count pos => trivial
  | name c => exact h
  | write i append buffer count pos => exact h
  | resize i size => exact h

/-- A second file `a`, after the calls of `greeting`. -/
theorem nameCalls_atomic_greeted : ∃ m m' V,
    (fileCalls (oneLink ⟨[120], by decide⟩)).RunIf (fun m c => c.1.Careful m)
      greeting.reverse m ∧
    ospfsCreate m 1 [97] 420 true = some (.error .eExist, m') ∧ Volume.SameState V m m' := by
  have hsome : greeted.any (fun m => decide ((ospfsInode m 1).any fun oi =>
      decide (oiFtype m oi = ftypeDir ∧ (findDirentry m oi [97]).isSome ∧
        (ospfsCreate m 1 [97] 420 true).map Prod.fst = some (.error .eExist)))) = true := by
    decide +kernel
  obtain ⟨m, hm, hchecks⟩ := (Option.any_eq_true _ _).1 hsome
  obtain ⟨oi, hoi, hchecks⟩ := (Option.any_eq_true _ _).1 (of_decide_eq_true hchecks)
  obtain ⟨hdir, hfind, hret⟩ := of_decide_eq_true hchecks
  obtain ⟨⟨r, m'⟩, hrun, rfl⟩ := Option.map_eq_some_iff.1 hret
  have hruns := (greeted_run hm).mono fun m c hc => FileCall.Contained.careful hc
  obtain ⟨V, -, hiff⟩ :=
    nameCalls_atomic (c := .create [97] 420 true) hruns hoi hdir (.inr (.inl rfl)) hrun
  exact ⟨m, m', V, hruns, hrun, hiff.2 (.inl (.inl hfind))⟩

end OsLabs.Ospfs
