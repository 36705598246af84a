import OsLabs.Lib.CString
import OsLabs.Lib.Offers
import OsLabs.Ospfs.Dir
import OsLabs.Ospfs.Transfer

/-!
# OSPFS: listing a directory

`ospfs_dir_readdir` hands the entries of a directory to a callback that may
refuse. `f_pos` counts the entries that are done, blank ones included, behind the
two pseudo-entries. A call refines one call of an offer of the entries that are left
(`ospfsDirReaddir_offers`), so calls interrupted at any points list the directory
once.
-/

namespace OsLabs.Ospfs

inductive DType where
  | reg
  | dir
  | lnk
  deriving DecidableEq, Repr

structure Filled where
  name : Bytes
  fPos : Nat
  ino : Nat
  dType : DType
  deriving DecidableEq, Repr

/-- An open directory: its `f_pos`, what `filldir` has accepted so far, and how often it has been
called. -/
structure OpenDir where
  fPos : Nat
  accepted : List Filled
  asked : Nat
  deriving DecidableEq, Repr

namespace OpenDir

variable (filp : OpenDir)

/-- A call of `filldir`; its answer number `t` is `filldir t`. -/
def callFilldir (filldir : Nat → Int) (name : Bytes) (ino : Nat) (dType : DType) : Int × OpenDir :=
  (filldir filp.asked,
    { filp with
      accepted := if filldir filp.asked ≥ 0 then filp.accepted ++ [⟨name, filp.fPos, ino, dType⟩]
        else filp.accepted
      asked := filp.asked + 1 })

/-- `if (ok_so_far >= 0) f_pos++`. -/
def advance (okSoFar : Int) : OpenDir :=
  if okSoFar ≥ 0 then { filp with fPos := (filp.fPos + 1) % 2 ^ 32 } else filp

end OpenDir

/-- The type `filldir` is told for an `oi_ftype`; it is not called for other types. -/
def dType (ftype : Nat) : Option DType :=
  if ftype = ftypeReg then some .reg
  else if ftype = ftypeDir then some .dir
  else if ftype = ftypeSymlink then some .lnk
  else none

/-- The position of an entry in the directory's data, on `uint32_t`. -/
def entryOff (fPos : Nat) : Nat := (fPos + (2 ^ 32 - 2)) % 2 ^ 32 * 128 % 2 ^ 32

/-- The loop over the actual entries. -/
def readdirLoop (m : Mem) (dirOi : Nat) (filldir : Nat → Int) :
    (rounds : Nat) → Int → OpenDir → Option (Int × OpenDir)
  | 0, _, _ => none
  | rounds + 1, okSoFar, filp =>
    if okSoFar ≥ 0 ∧ filp.fPos ≥ 2 then
      if ospfsInodeBlockno m dirOi (entryOff filp.fPos) = 0 then some (1, filp)
      else
        let od := ospfsInodeData m dirOi (entryOff filp.fPos)
        if odIno m od = 0 then
          readdirLoop m dirOi filldir rounds okSoFar
            { filp with fPos := (filp.fPos + 1) % 2 ^ 32 }
        else do
          let entryOi ← ospfsInode m (odIno m od)
          let (okSoFar, filp) :=
            match dType (oiFtype m entryOi) with
            | some ty => filp.callFilldir filldir (m.cString (od + 4)) (odIno m od) ty
            | none => (okSoFar, filp)
          readdirLoop m dirOi filldir rounds okSoFar (filp.advance okSoFar)
    else some (0, filp)

def dot : Bytes := [46]
def dotDot : Bytes := [46, 46]

/-- `ospfs_dir_readdir` from the entry `..` on. The loop has more rounds than there are
positions. -/
def readdirDotDot (m : Mem) (dirOi parentIno : Nat) (filldir : Nat → Int) (okSoFar : Int)
    (filp : OpenDir) : Option (Int × OpenDir) :=
  if okSoFar ≥ 0 ∧ filp.fPos = 1 then
    let (okSoFar, filp) := filp.callFilldir filldir dotDot parentIno .dir
    readdirLoop m dirOi filldir (2 ^ 32) okSoFar (filp.advance okSoFar)
  else readdirLoop m dirOi filldir (2 ^ 32) okSoFar filp

/-- `ospfs_dir_readdir` of the directory `ino` in `parentIno`: what it returns, and the open
directory after it. -/
def ospfsDirReaddir (m : Mem) (ino parentIno : Nat) (filldir : Nat → Int) (filp : OpenDir) :
    Option (Int × OpenDir) := do
  let dirOi ← ospfsInode m ino
  if filp.fPos = 0 then
    let (okSoFar, filp) := filp.callFilldir filldir dot ino .dir
    readdirDotDot m dirOi parentIno filldir okSoFar (filp.advance okSoFar)
  else readdirDotDot m dirOi parentIno filldir 0 filp

def opened : OpenDir := ⟨0, [], 0⟩

/-- What the last of `n` calls returned, and the open directory after them. -/
def readdirCalls (m : Mem) (ino parentIno : Nat) (filldir : Nat → Int) :
    Nat → Option (Int × OpenDir)
  | 0 => some (0, opened)
  | n + 1 => do
    let (_, filp) ← readdirCalls m ino parentIno filldir n
    ospfsDirReaddir m ino parentIno filldir filp

/-! ## What is to be listed -/

/-- Entry `k` of a directory; `none` when it is blank. -/
def liveEntry (m : Mem) (dirOi k : Nat) : Option Filled :=
  let od := ospfsInodeData m dirOi (128 * k)
  if odIno m od = 0 then none
  else do
    let entryOi ← ospfsInode m (odIno m od)
    let ty ← dType (oiFtype m entryOi)
    return ⟨m.cString (od + 4), k + 2, odIno m od, ty⟩

def itemAt (m : Mem) (ino parentIno dirOi : Nat) : (fPos : Nat) → Option Filled
  | 0 => some ⟨dot, 0, ino, .dir⟩
  | 1 => some ⟨dotDot, 1, parentIno, .dir⟩
  | k + 2 => liveEntry m dirOi k

/-- What is left to list from a position on. -/
def pending (m : Mem) (ino parentIno dirOi fPos : Nat) : List Filled :=
  (List.range' fPos (direntries m dirOi + 2 - fPos)).filterMap (itemAt m ino parentIno dirOi)

/-- `.`, `..` and the live entries in the order of the directory. -/
def listing (m : Mem) (ino parentIno dirOi : Nat) : List Filled :=
  ⟨dot, 0, ino, .dir⟩ :: ⟨dotDot, 1, parentIno, .dir⟩ ::
    (List.range (direntries m dirOi)).filterMap (liveEntry m dirOi)

/-- A directory whose blocks are mapped and whose live entries name inodes of known types. -/
structure WellFormedDir (m : Mem) (ino dirOi : Nat) : Prop where
  inode : ospfsInode m ino = some dirOi
  dir : oiFtype m dirOi = ftypeDir
  /-- `OSPFS_MAXFILESIZE`. -/
  size : oiSize m dirOi ≤ 1024 * maxfileblks
  mapped : Mapped m dirOi
  live : ∀ k < direntries m dirOi, odIno m (ospfsInodeData m dirOi (128 * k)) ≠ 0 →
    ∃ oi, ospfsInode m (odIno m (ospfsInodeData m dirOi (128 * k))) = some oi ∧
      (dType (oiFtype m oi)).isSome

variable {m : Mem} {ino parentIno dirOi k rounds : Nat} {filldir : Nat → Int} {okSoFar r : Int}
  {filp filp' : OpenDir} {e : Filled}

theorem entryOff_eq (hk : 128 * k < 2 ^ 32) : entryOff (k + 2) = 128 * k := by
  unfold entryOff
  omega

namespace WellFormedDir

theorem direntries_lt (h : WellFormedDir m ino dirOi) : direntries m dirOi < 2 ^ 20 := by
  have := h.size
  unfold direntries
  unfold maxfileblks at this
  omega

theorem blockno_eq_zero_iff (h : WellFormedDir m ino dirOi) :
    ospfsInodeBlockno m dirOi (128 * k) = 0 ↔ direntries m dirOi ≤ k := by
  constructor
  · intro h0
    by_contra hlt
    have hin : 128 * k < oiSize m dirOi := by
      unfold direntries at hlt
      omega
    exact h.mapped.inodeBlockno hin h0
  · intro hle
    have hout : oiSize m dirOi ≤ 128 * k := by
      unfold direntries at hle
      omega
    exact if_pos (.inl hout)

theorem live_entry (h : WellFormedDir m ino dirOi) (hk : k < direntries m dirOi)
    (hne : odIno m (ospfsInodeData m dirOi (128 * k)) ≠ 0) :
    ∃ oi ty, ospfsInode m (odIno m (ospfsInodeData m dirOi (128 * k))) = some oi ∧
      dType (oiFtype m oi) = some ty ∧
      liveEntry m dirOi k = some ⟨m.cString (ospfsInodeData m dirOi (128 * k) + 4), k + 2,
        odIno m (ospfsInodeData m dirOi (128 * k)), ty⟩ := by
  obtain ⟨oi, hoi, hty⟩ := h.live k hk hne
  obtain ⟨ty, hty⟩ := Option.isSome_iff_exists.1 hty
  refine ⟨oi, ty, hoi, hty, ?_⟩
  unfold liveEntry
  rw [if_neg hne, hoi, Option.bind_eq_bind, Option.bind_some, hty]
  rfl

end WellFormedDir

/-! ## Pending items -/

theorem pending_none (hp : filp.fPos < direntries m dirOi + 2)
    (h : itemAt m ino parentIno dirOi filp.fPos = none) :
    pending m ino parentIno dirOi filp.fPos = pending m ino parentIno dirOi (filp.fPos + 1) := by
  unfold pending
  rw [show direntries m dirOi + 2 - filp.fPos = direntries m dirOi + 2 - (filp.fPos + 1) + 1 by
    omega, List.range'_succ, List.filterMap_cons_none h]

theorem pending_some (hp : filp.fPos < direntries m dirOi + 2)
    (h : itemAt m ino parentIno dirOi filp.fPos = some e) :
    pending m ino parentIno dirOi filp.fPos =
      e :: pending m ino parentIno dirOi (filp.fPos + 1) := by
  unfold pending
  rw [show direntries m dirOi + 2 - filp.fPos = direntries m dirOi + 2 - (filp.fPos + 1) + 1 by
    omega, List.range'_succ, List.filterMap_cons_some h]

theorem pending_end (hp : direntries m dirOi + 2 ≤ filp.fPos) :
    pending m ino parentIno dirOi filp.fPos = [] := by
  unfold pending
  rw [Nat.sub_eq_zero_of_le hp]
  rfl

theorem pending_zero (m : Mem) (ino parentIno dirOi : Nat) :
    pending m ino parentIno dirOi 0 = listing m ino parentIno dirOi := by
  have hshift : List.range' 2 (direntries m dirOi) =
      (List.range (direntries m dirOi)).map (· + 2) := by
    rw [List.range'_eq_map_range]
    exact List.map_congr_left fun k _ => Nat.add_comm 2 k
  unfold pending listing
  rw [Nat.sub_zero, List.range'_succ, List.range'_succ,
    List.filterMap_cons_some (f := itemAt m ino parentIno dirOi) rfl,
    List.filterMap_cons_some (f := itemAt m ino parentIno dirOi) rfl, hshift,
    List.filterMap_map]
  rfl

/-! ## One call -/

def accepts (filldir : Nat → Int) (t : Nat) : Bool := decide (filldir t ≥ 0)

/-- A call from `filp` on returns `r` and leaves `filp'`; it has offered what was left. -/
structure Offered (m : Mem) (ino parentIno dirOi : Nat) (filldir : Nat → Int) (filp : OpenDir)
    (r : Int) (filp' : OpenDir) : Prop where
  accepted : filp'.accepted = filp.accepted ++
    (Offers.call (accepts filldir) (pending m ino parentIno dirOi filp.fPos) filp.asked).accepted
  rest : pending m ino parentIno dirOi filp'.fPos =
    (Offers.call (accepts filldir) (pending m ino parentIno dirOi filp.fPos) filp.asked).rest
  asked : filp'.asked =
    (Offers.call (accepts filldir) (pending m ino parentIno dirOi filp.fPos) filp.asked).asked
  le : filp'.fPos ≤ direntries m dirOi + 2
  ret : r = if pending m ino parentIno dirOi filp'.fPos = [] then 1 else 0

namespace Offered

theorem done (h : filp.fPos = direntries m dirOi + 2) :
    Offered m ino parentIno dirOi filldir filp 1 filp := by
  have hend : pending m ino parentIno dirOi filp.fPos = [] := pending_end (Nat.le_of_eq h.symm)
  exact ⟨by rw [hend]; exact (List.append_nil _).symm, by rw [hend]; rfl, by rw [hend]; rfl,
    Nat.le_of_eq h, (if_pos hend).symm⟩

theorem skip (hp : filp.fPos < direntries m dirOi + 2)
    (hitem : itemAt m ino parentIno dirOi filp.fPos = none)
    (h : Offered m ino parentIno dirOi filldir { filp with fPos := filp.fPos + 1 } r filp') :
    Offered m ino parentIno dirOi filldir filp r filp' := by
  have hpend := pending_none hp hitem
  exact ⟨hpend ▸ h.accepted, hpend ▸ h.rest, hpend ▸ h.asked, h.le, h.ret⟩

theorem take (hp : filp.fPos < direntries m dirOi + 2)
    (hitem : itemAt m ino parentIno dirOi filp.fPos = some e) (hok : filldir filp.asked ≥ 0)
    (h : Offered m ino parentIno dirOi filldir
      ⟨filp.fPos + 1, filp.accepted ++ [e], filp.asked + 1⟩ r filp') :
    Offered m ino parentIno dirOi filldir filp r filp' := by
  have hcall := Offers.call_cons_true e (pending m ino parentIno dirOi (filp.fPos + 1))
    (show accepts filldir filp.asked = true from decide_eq_true hok)
  rw [← pending_some hp hitem] at hcall
  refine ⟨?_, ?_, ?_, h.le, h.ret⟩
  · rw [hcall, h.accepted, List.append_assoc]
    rfl
  · rw [hcall]
    exact h.rest
  · rw [hcall]
    exact h.asked

theorem refuse (hp : filp.fPos < direntries m dirOi + 2)
    (hitem : itemAt m ino parentIno dirOi filp.fPos = some e) (hok : ¬ filldir filp.asked ≥ 0) :
    Offered m ino parentIno dirOi filldir filp 0 { filp with asked := filp.asked + 1 } := by
  have hpend := pending_some hp hitem
  have hcall := Offers.call_cons_false e (pending m ino parentIno dirOi (filp.fPos + 1))
    (show accepts filldir filp.asked = false from decide_eq_false hok)
  rw [← hpend] at hcall
  refine ⟨?_, ?_, ?_, Nat.le_of_lt hp, ?_⟩
  · rw [hcall]
    exact (List.append_nil _).symm
  · rw [hcall]
  · rw [hcall]
  · rw [if_neg]
    exact fun h0 => List.cons_ne_nil _ _ (hpend.symm.trans h0)

end Offered

theorem readdirLoop_refused (h : ¬ okSoFar ≥ 0) :
    readdirLoop m dirOi filldir (rounds + 1) okSoFar filp = some (0, filp) :=
  if_neg fun hc => h hc.1

/-- **The loop** from any entry on. -/
theorem readdirLoop_offers (h : WellFormedDir m ino dirOi) (filp : OpenDir) (okSoFar : Int)
    (hlo : 2 ≤ filp.fPos) (hhi : filp.fPos ≤ direntries m dirOi + 2) (hok : okSoFar ≥ 0)
    (hrounds : direntries m dirOi + 2 - filp.fPos + 1 < rounds) :
    ∃ r filp', readdirLoop m dirOi filldir rounds okSoFar filp = some (r, filp') ∧
      Offered m ino parentIno dirOi filldir filp r filp' := by
  have hsmall := h.direntries_lt
  induction rounds generalizing filp okSoFar with
  | zero => omega
  | succ rounds ih =>
    obtain ⟨k, hk⟩ := Nat.exists_eq_add_of_le' hlo
    have hoff : entryOff filp.fPos = 128 * k := by
      rw [hk]
      exact entryOff_eq (by omega)
    have hnext : (filp.fPos + 1) % 2 ^ 32 = filp.fPos + 1 := by omega
    unfold readdirLoop
    rw [if_pos ⟨hok, hlo⟩, hoff, hnext]
    by_cases hend : direntries m dirOi ≤ k
    · rw [if_pos (h.blockno_eq_zero_iff.2 hend)]
      exact ⟨1, filp, rfl, .done (by omega)⟩
    have hlt : filp.fPos < direntries m dirOi + 2 := by omega
    rw [if_neg fun h0 => hend (h.blockno_eq_zero_iff.1 h0)]
    by_cases hblank : odIno m (ospfsInodeData m dirOi (128 * k)) = 0
    · -- a blank entry is passed over without a call of `filldir`
      have hitem : itemAt m ino parentIno dirOi filp.fPos = none := by
        rw [hk]
        exact if_pos hblank
      obtain ⟨r, filp', hrun, hoffered⟩ := ih { filp with fPos := filp.fPos + 1 } okSoFar
        (by show 2 ≤ filp.fPos + 1; omega) hlt hok
        (by show _ - (filp.fPos + 1) + 1 < _; omega)
      exact ⟨r, filp', by rw [← hrun]; exact if_pos hblank, hoffered.skip hlt hitem⟩
    · obtain ⟨oi, ty, hoi, hty, hlive⟩ := h.live_entry (by omega) hblank
      have hitem : itemAt m ino parentIno dirOi filp.fPos = some
          ⟨m.cString (ospfsInodeData m dirOi (128 * k) + 4), filp.fPos,
            odIno m (ospfsInodeData m dirOi (128 * k)), ty⟩ := by
        rw [hk]
        exact hlive
      show ∃ r filp', (if odIno m (ospfsInodeData m dirOi (128 * k)) = 0 then _ else _) = _ ∧ _
      rw [if_neg hblank, hoi, Option.bind_eq_bind, Option.bind_some, hty]
      by_cases hans : filldir filp.asked ≥ 0
      · obtain ⟨r, filp', hrun, hoffered⟩ := ih
          ⟨filp.fPos + 1, filp.accepted ++
            [⟨m.cString (ospfsInodeData m dirOi (128 * k) + 4), filp.fPos,
              odIno m (ospfsInodeData m dirOi (128 * k)), ty⟩], filp.asked + 1⟩ _
          (by show 2 ≤ filp.fPos + 1; omega) hlt hans
          (by show _ - (filp.fPos + 1) + 1 < _; omega)
        refine ⟨r, filp', ?_, hoffered.take hlt hitem hans⟩
        rw [← hrun]
        simp only [OpenDir.callFilldir, OpenDir.advance, if_pos hans, hnext]
      · refine ⟨0, { filp with asked := filp.asked + 1 }, ?_, .refuse hlt hitem hans⟩
        cases rounds with
        | zero => omega
        | succ rounds =>
          simp only [OpenDir.callFilldir, OpenDir.advance, if_neg hans]
          exact readdirLoop_refused hans

/-- The call of `filldir` for one of the pseudo-entries, and what the rest of the call makes of its
answer. -/
theorem pseudo_offers (hp : filp.fPos < direntries m dirOi + 2) (hsmall : filp.fPos < 2)
    {name : Bytes} {i : Nat} {ty : DType}
    (hitem : itemAt m ino parentIno dirOi filp.fPos = some ⟨name, filp.fPos, i, ty⟩)
    {rest : Int → OpenDir → Option (Int × OpenDir)}
    (hrefused : ∀ okSoFar filp, ¬ okSoFar ≥ 0 → rest okSoFar filp = some (0, filp))
    (hrest : ∀ okSoFar filp', okSoFar ≥ 0 → filp'.fPos = filp.fPos + 1 →
      ∃ r filp'', rest okSoFar filp' = some (r, filp'') ∧
        Offered m ino parentIno dirOi filldir filp' r filp'') :
    ∃ r filp', rest (filp.callFilldir filldir name i ty).1
        ((filp.callFilldir filldir name i ty).2.advance (filp.callFilldir filldir name i ty).1) =
          some (r, filp') ∧ Offered m ino parentIno dirOi filldir filp r filp' := by
  have hnext : (filp.fPos + 1) % 2 ^ 32 = filp.fPos + 1 := by omega
  by_cases hans : filldir filp.asked ≥ 0
  · obtain ⟨r, filp', hrun, hoffered⟩ := hrest (filldir filp.asked)
      ⟨filp.fPos + 1, filp.accepted ++ [⟨name, filp.fPos, i, ty⟩], filp.asked + 1⟩ hans rfl
    refine ⟨r, filp', ?_, hoffered.take hp hitem hans⟩
    rw [← hrun]
    simp only [OpenDir.callFilldir, OpenDir.advance, if_pos hans, hnext]
  · refine ⟨0, { filp with asked := filp.asked + 1 }, ?_, .refuse hp hitem hans⟩
    simp only [OpenDir.callFilldir, OpenDir.advance, if_neg hans]
    exact hrefused _ _ hans

theorem readdirDotDot_offers (h : WellFormedDir m ino dirOi) (filp : OpenDir) (okSoFar : Int)
    (hlo : 1 ≤ filp.fPos) (hhi : filp.fPos ≤ direntries m dirOi + 2) (hok : okSoFar ≥ 0) :
    ∃ r filp', readdirDotDot m dirOi parentIno filldir okSoFar filp = some (r, filp') ∧
      Offered m ino parentIno dirOi filldir filp r filp' := by
  have hsmall := h.direntries_lt
  unfold readdirDotDot
  by_cases hone : filp.fPos = 1
  · rw [if_pos ⟨hok, hone⟩]
    exact pseudo_offers (by omega) (by omega) (by rw [hone]; rfl)
      (fun ok filp hneg => readdirLoop_refused hneg) fun ok filp' hok' hpos =>
        readdirLoop_offers h filp' ok (by omega) (by omega) hok' (by omega)
  · rw [if_neg fun hc => hone hc.2]
    exact readdirLoop_offers h filp okSoFar (by omega) hhi hok (by omega)

theorem readdirDotDot_refused (h : ¬ okSoFar ≥ 0) :
    readdirDotDot m dirOi parentIno filldir okSoFar filp = some (0, filp) := by
  unfold readdirDotDot
  rw [if_neg fun hc => h hc.1]
  exact readdirLoop_refused h

/-- **A call** offers what is left, from whatever position the open directory has reached. -/
theorem ospfsDirReaddir_offers (h : WellFormedDir m ino dirOi) (parentIno : Nat)
    (filldir : Nat → Int) (filp : OpenDir) (hpos : filp.fPos ≤ direntries m dirOi + 2) :
    ∃ r filp', ospfsDirReaddir m ino parentIno filldir filp = some (r, filp') ∧
      Offered m ino parentIno dirOi filldir filp r filp' := by
  unfold ospfsDirReaddir
  rw [h.inode, Option.bind_eq_bind, Option.bind_some]
  by_cases hzero : filp.fPos = 0
  · rw [if_pos hzero]
    exact pseudo_offers (by omega) (by omega) (by rw [hzero]; rfl)
      (fun ok filp hneg => readdirDotDot_refused hneg) fun ok filp' hok' hpos' =>
        readdirDotDot_offers h filp' ok (by omega) (by omega) hok'
  · rw [if_neg hzero]
    exact readdirDotDot_offers h filp 0 (by omega) hpos (le_refl 0)

/-! ## All calls on one open file -/

theorem readdirCalls_offers (h : WellFormedDir m ino dirOi) (parentIno : Nat)
    (filldir : Nat → Int) (n : Nat) :
    ∃ r filp, readdirCalls m ino parentIno filldir n = some (r, filp) ∧
      filp.accepted =
        (Offers.calls (accepts filldir) (listing m ino parentIno dirOi) n).accepted ∧
      pending m ino parentIno dirOi filp.fPos =
        (Offers.calls (accepts filldir) (listing m ino parentIno dirOi) n).rest ∧
      filp.asked = (Offers.calls (accepts filldir) (listing m ino parentIno dirOi) n).asked ∧
      filp.fPos ≤ direntries m dirOi + 2 ∧
      (n ≠ 0 → r = if pending m ino parentIno dirOi filp.fPos = [] then 1 else 0) := by
  induction n with
  | zero =>
    exact ⟨0, opened, rfl, rfl, pending_zero m ino parentIno dirOi, rfl, Nat.zero_le _,
      fun h0 => absurd rfl h0⟩
  | succ n ih =>
    obtain ⟨r, filp, hrun, hacc, hrest, hasked, hle, -⟩ := ih
    obtain ⟨r', filp', hrun', hoffered⟩ := ospfsDirReaddir_offers h parentIno filldir filp
      hle
    refine ⟨r', filp', ?_, ?_, ?_, ?_, hoffered.le, fun _ => hoffered.ret⟩
    · unfold readdirCalls
      rw [hrun]
      exact hrun'
    · rw [hoffered.accepted, hacc, hrest, hasked]
      rfl
    · rw [hoffered.rest, hrest, hasked]
      rfl
    · rw [hoffered.asked, hrest, hasked]
      rfl

/-- What call `n + 1` on an open file leaves and returns. -/
structure Listed (m : Mem) (ino parentIno dirOi : Nat) (filldir : Nat → Int) (n : Nat) (r : Int)
    (filp : OpenDir) : Prop where
  /-- Nothing is lost, repeated or out of order. -/
  accepted : filp.accepted <+: listing m ino parentIno dirOi
  ret : r = 1 ∨ r = 0
  /-- The directory is complete. -/
  complete : r = 1 → filp.accepted = listing m ino parentIno dirOi
  /-- The call's last call of `filldir` was refused, and its entry is still to come. -/
  refused : r = 0 → filp.accepted ≠ listing m ino parentIno dirOi ∧
    ∃ r₀ filp₀, readdirCalls m ino parentIno filldir n = some (r₀, filp₀) ∧
      filp₀.asked < filp.asked ∧ filldir (filp.asked - 1) < 0

/-- **Listing a directory under interruption**: for all answers of `filldir` each call returns,
what has been accepted is the listing from its start on, and unless `filldir` refuses for good
some call comes to the end of the directory. -/
theorem readdir_complete (h : WellFormedDir m ino dirOi) (parentIno : Nat) (filldir : Nat → Int) :
    (∀ n, ∃ r filp, readdirCalls m ino parentIno filldir (n + 1) = some (r, filp) ∧
      Listed m ino parentIno dirOi filldir n r filp) ∧
    ((∀ k, ∃ t, k ≤ t ∧ filldir t ≥ 0) →
      ∃ n filp, readdirCalls m ino parentIno filldir (n + 1) = some (1, filp)) := by
  refine ⟨fun n => ?_, fun hans => ?_⟩
  · obtain ⟨r, filp, hrun, hacc, hrest, hasked, -, hret⟩ :=
      readdirCalls_offers h parentIno filldir (n + 1)
    have happ := Offers.calls_append (accepts filldir) (listing m ino parentIno dirOi) (n + 1)
    rw [← hacc, ← hrest] at happ
    have hret := hret (Nat.succ_ne_zero n)
    refine ⟨r, filp, hrun, ⟨_, happ⟩, ?_, fun h1 => ?_, fun h0 => ?_⟩
    · rw [hret]
      exact ite_eq_or_eq _ _ _
    · have hnil : pending m ino parentIno dirOi filp.fPos = [] := by
        by_contra hne
        rw [if_neg hne, h1] at hret
        exact absurd hret (by decide)
      rw [hnil, List.append_nil] at happ
      exact happ
    · have hne : pending m ino parentIno dirOi filp.fPos ≠ [] := by
        intro hnil
        rw [if_pos hnil, h0] at hret
        exact absurd hret (by decide)
      obtain ⟨r₀, filp₀, hrun₀, -, -, hasked₀, -, -⟩ :=
        readdirCalls_offers h parentIno filldir n
      obtain ⟨hlt, hrefused⟩ := Offers.calls_refused (hrest ▸ hne)
      rw [← hasked] at hlt hrefused
      rw [← hasked₀] at hlt
      refine ⟨fun hall => hne ?_, r₀, filp₀, hrun₀, hlt, ?_⟩
      · exact List.append_right_eq_self.1 (happ.trans hall.symm)
      · exact Int.not_le.1 (of_decide_eq_false hrefused)
  · obtain ⟨n, hn⟩ := Offers.calls_end
      (fun k => (hans k).imp fun t ht => ⟨ht.1, decide_eq_true ht.2⟩)
      (listing m ino parentIno dirOi)
    obtain ⟨r, filp, hrun, -, hrest, -, -, hret⟩ :=
      readdirCalls_offers h parentIno filldir n
    cases n with
    | zero => exact absurd hn (List.cons_ne_nil _ _)
    | succ n =>
      have hr := hret (Nat.succ_ne_zero n)
      rw [if_pos (hrest.trans hn)] at hr
      exact ⟨n, filp, hr ▸ hrun⟩

/-- A directory of one block with one entry, the second one of the block. -/
def listedDir : Mem :=
  writeDirentry ((Volume.sampleDisk 1 0).set32 3140 ftypeDir) (4096 + 128) 1 [97]

/-- The answers refuse once. -/
theorem listedDir_complete : WellFormedDir listedDir 1 3136 ∧
    ∃ n filp, readdirCalls listedDir 1 1 (fun t => if t = 1 then -1 else 0) (n + 1) =
      some (1, filp) := by
  have hsize : oiSize listedDir 3136 = 1024 := by decide +kernel
  have hone : odIno listedDir (ospfsInodeData listedDir 3136 128) = 1 := by decide +kernel
  have hblank : ∀ k < 8, k ≠ 1 →
      odIno listedDir (ospfsInodeData listedDir 3136 (128 * k)) = 0 := by decide +kernel
  have hwf : WellFormedDir listedDir 1 3136 := by
    refine ⟨by decide +kernel, by decide +kernel, by rw [hsize]; decide, ?_, ?_⟩
    · intro b hb
      obtain rfl : b = 0 := by omega
      decide +kernel
    · intro k hk hne
      have hk8 : k < 8 := by
        unfold direntries at hk
        omega
      obtain rfl : k = 1 := by
        by_contra hk1
        exact hne (hblank k hk8 hk1)
      rw [Nat.mul_one, hone]
      exact ⟨3136, by decide +kernel, by decide +kernel⟩
  refine ⟨hwf, (readdir_complete hwf 1 _).2 fun k => ⟨k + 2, by omega, ?_⟩⟩
  rw [if_neg (by omega)]

end OsLabs.Ospfs
