import OsLabs.Lib.CString
import OsLabs.Ospfs.Blocks
import OsLabs.Ospfs.Module

/-!
# OSPFS: conditional symbolic links

`ospfs_follow_link` on a link whose stored target is `root?A:B`. It looks the
colon up in the stored text and, for uid 0, stores a NUL over it, so that `A` can
be handed out in place. The text is then `root?A` for every later follower: there
is no colon left to find. `followLink_repeatable_iff` says which sequences of
followers get what they should.
-/

namespace OsLabs.Ospfs

def rootMark : Bytes := [114, 111, 111, 116, 63]

def oiSymlink (oi : Nat) : Nat := oi + 12

/-- `ospfs_follow_link` by a process of this uid: the pointer passed to `nd_set_link`, and the
disk. The pointer is `none` for `strchr(..) + 1` where `strchr` returned NULL; the call does not
come back where it follows a NULL pointer or stores through one. -/
def ospfsFollowLink (m : Mem) (ino uid : Nat) : Option (Option Nat × Mem) := do
  let oi ← ospfsInode m ino
  if m.load (oiSymlink oi) 5 = rootMark then
    let colon := m.strchr (oiSymlink oi) 58
    if uid = 0 then
      let colon ← colon
      let m := m.store colon [0]
      return ((m.strchr (oiSymlink oi) 63).map (· + 1), m)
    else return (colon.map (· + 1), m)
  else return (some (oiSymlink oi), m)

/-- What one follower is handed out, `none` where it gets no string, and the disk after it. -/
def follow (m : Mem) (ino uid : Nat) : Option Bytes × Mem :=
  match ospfsFollowLink m ino uid with
  | none => (none, m)
  | some (link, m) => (link.map m.cString, m)

def afterFollowers (ino : Nat) (m : Mem) (uids : List Nat) : Mem :=
  uids.foldl (fun m uid => (follow m ino uid).2) m

/-! ## Conditional links -/

def conditionalTarget (a b : Bytes) : Bytes := rootMark ++ a ++ 58 :: b

/-- Inode `ino` is a link with the target `root?A:B`. -/
structure Conditional (m : Mem) (ino oi : Nat) (a b : Bytes) : Prop where
  inode : ospfsInode m ino = some oi
  /-- The inodes lie behind the superblock. -/
  behind : 1040 ≤ oi
  target : m.IsString (oiSymlink oi) (conditionalTarget a b)
  /-- `OSPFS_MAXSYMLINKLEN`. -/
  fits : (conditionalTarget a b).length ≤ 51
  colon : 58 ∉ a

def branch (a b : Bytes) (uid : Nat) : Bytes := if uid = 0 then a else b

/-- In a sequence of followers each one is handed out its branch. -/
def Answered (m : Mem) (ino : Nat) (a b : Bytes) (uids : List Nat) : Prop :=
  ∀ before uid later, uids = before ++ uid :: later →
    (follow (afterFollowers ino m before) ino uid).1 = some (branch a b uid)

/-- The stored target stays as it is at every point of the sequence. -/
def TargetKept (m : Mem) (ino oi : Nat) (uids : List Nat) : Prop :=
  ∀ before later, uids = before ++ later →
    (afterFollowers ino m before).cString (oiSymlink oi) = m.cString (oiSymlink oi)

variable {m : Mem} {ino oi : Nat} {a b : Bytes}

theorem rootMark_colon : 58 ∉ rootMark := by decide

theorem Conditional.lt (h : Conditional m ino oi a b) : a.length + b.length < 46 := by
  have := h.fits
  simp only [conditionalTarget, rootMark, List.length_append, List.length_cons, List.length_nil]
    at this
  omega

theorem Conditional.head (h : Conditional m ino oi a b) :
    m.IsString (oiSymlink oi) (rootMark ++ (a ++ 58 :: b)) := by
  have := h.target
  rwa [conditionalTarget, List.append_assoc] at this

theorem Conditional.strchr_colon (h : Conditional m ino oi a b) :
    m.strchr (oiSymlink oi) 58 = some (oiSymlink oi + (rootMark ++ a).length) := by
  have hlt := h.lt
  refine h.target.strchr ?_ ?_
  · exact fun hm => (List.mem_append.1 hm).elim rootMark_colon h.colon
  · simp only [rootMark, List.length_append, List.length_cons, List.length_nil]
    omega

/-- Another uid than 0 gets `B` and changes nothing. -/
theorem Conditional.follow_other (h : Conditional m ino oi a b) {uid : Nat} (hu : uid ≠ 0) :
    follow m ino uid = (some b, m) := by
  have hb : m.IsString (oiSymlink oi + (rootMark ++ a).length + 1) b := by
    have := (h.target.append (s := rootMark ++ a)).2.2
    exact this
  have hlt := h.lt
  have hl : m.load (oiSymlink oi) 5 = rootMark := h.head.load (s := rootMark)
  unfold follow ospfsFollowLink
  simp [h.inode, hl, hu, h.strchr_colon, hb.cString (by omega), -List.length_append]

/-- The disk on which the colon of the link has been overwritten. -/
def cutTarget (m : Mem) (oi : Nat) (a : Bytes) : Mem :=
  m.store (oiSymlink oi + (rootMark ++ a).length) [0]

theorem Conditional.cut (h : Conditional m ino oi a b) :
    (cutTarget m oi a).IsString (oiSymlink oi) (rootMark ++ a) :=
  h.target.cut

/-- Uid 0 gets `A`; the colon is gone. -/
theorem Conditional.follow_root (h : Conditional m ino oi a b) :
    follow m ino 0 = (some a, cutTarget m oi a) := by
  have hlt := h.lt
  have hl : m.load (oiSymlink oi) 5 = rootMark := h.head.load (s := rootMark)
  have hq : (cutTarget m oi a).strchr (oiSymlink oi) 63 = some (oiSymlink oi + 4) :=
    Mem.IsString.strchr (s := [114, 111, 111, 116]) (t := a) h.cut (by decide) (by decide)
  have ha : (cutTarget m oi a).IsString (oiSymlink oi + 4 + 1) a := h.cut.append (s := rootMark)
  unfold cutTarget at hq ha
  unfold follow ospfsFollowLink
  simp [h.inode, hl, h.strchr_colon, cutTarget, hq, ha.cString (by omega), -List.length_append]

/-! ## After uid 0 has followed the link -/

/-- Inode `ino` is a link with a target `root?A` without a colon. -/
structure Cut (m : Mem) (ino oi : Nat) (a : Bytes) : Prop where
  inode : ospfsInode m ino = some oi
  target : m.IsString (oiSymlink oi) (rootMark ++ a)
  colon : 58 ∉ a

theorem Conditional.cutTarget (h : Conditional m ino oi a b) : Cut (cutTarget m oi a) ino oi a := by
  refine ⟨?_, h.cut, h.colon⟩
  have hb := h.behind
  have hsame (x : Nat) (hx : x ≤ 1036) :
      (Ospfs.cutTarget m oi a).get32 x = m.get32 x := by
    unfold Ospfs.cutTarget oiSymlink
    exact Mem.get32_store_ne (by omega)
  have hi := h.inode
  unfold ospfsInode osNinodes osFirstinob at hi ⊢
  rw [hsame _ (by omega), hsame _ (by omega)]
  exact hi

/-- There is no colon left: nobody is handed out a string, and nothing changes. -/
theorem Cut.follow (h : Cut m ino oi a) (uid : Nat) : follow m ino uid = (none, m) := by
  have hl : m.load (oiSymlink oi) 5 = rootMark := h.target.load
  have hno : m.strchr (oiSymlink oi) 58 = none := by
    refine h.target.strchr_none (fun hm => ?_) (by decide)
    exact (List.mem_append.1 hm).elim rootMark_colon h.colon
  unfold Ospfs.follow ospfsFollowLink
  by_cases hu : uid = 0
  · simp [h.inode, hl, hu, hno]
  · simp [h.inode, hl, hu, hno]

/-! ## Sequences of followers -/

theorem afterFollowers_append (m : Mem) (ino : Nat) (before later : List Nat) :
    afterFollowers ino m (before ++ later) =
      afterFollowers ino (afterFollowers ino m before) later :=
  List.foldl_append

theorem Conditional.afterFollowers (h : Conditional m ino oi a b) {uids : List Nat}
    (hu : 0 ∉ uids) : afterFollowers ino m uids = m := by
  induction uids with
  | nil => rfl
  | cons uid uids ih =>
    have hne : uid ≠ 0 := fun he => hu (he ▸ List.mem_cons_self)
    unfold Ospfs.afterFollowers
    rw [List.foldl_cons, h.follow_other hne]
    exact ih fun hm => hu (List.mem_cons_of_mem _ hm)

theorem answered_cons {uid : Nat} {uids : List Nat} : Answered m ino a b (uid :: uids) ↔
    (follow m ino uid).1 = some (branch a b uid) ∧ Answered (follow m ino uid).2 ino a b uids := by
  constructor
  · intro h
    exact ⟨h [] uid uids rfl, fun before uid' later heq =>
      h (uid :: before) uid' later (by rw [heq]; rfl)⟩
  · rintro ⟨h0, h⟩ before uid' later heq
    cases before with
    | nil =>
      cases heq
      exact h0
    | cons u before =>
      cases heq
      exact h before uid' later rfl

theorem Cut.answered_iff (h : Cut m ino oi a) {uids : List Nat} :
    Answered m ino a b uids ↔ uids = [] := by
  cases uids with
  | nil => exact iff_of_true (fun before uid later heq => absurd heq (by simp)) rfl
  | cons uid uids => simp [answered_cons, h.follow]

theorem Conditional.answered_iff (h : Conditional m ino oi a b) {uids : List Nat} :
    Answered m ino a b uids ↔ 0 ∉ uids.dropLast := by
  induction uids with
  | nil => exact iff_of_true (fun before uid later heq => absurd heq (by simp)) (by simp)
  | cons uid uids ih =>
    rw [answered_cons]
    by_cases hu : uid = 0
    · subst hu
      rw [h.follow_root, h.cutTarget.answered_iff]
      cases uids with
      | nil => simp [branch]
      | cons u uids => simp
    · rw [h.follow_other hu, ih]
      cases uids with
      | nil => simp [branch, hu]
      | cons u uids => simp [branch, hu, Ne.symm hu]

theorem Conditional.targetKept_iff (h : Conditional m ino oi a b) {uids : List Nat} :
    TargetKept m ino oi uids ↔ 0 ∉ uids := by
  have hlt := h.lt
  constructor
  · intro hk hm
    obtain ⟨before, later, rfl, hb⟩ := List.eq_append_cons_of_mem hm
    have hkept := hk (before ++ [0]) later (by simp)
    rw [afterFollowers_append, h.afterFollowers hb] at hkept
    unfold Ospfs.afterFollowers at hkept
    rw [List.foldl_cons, List.foldl_nil, h.follow_root] at hkept
    have hfits := h.fits
    rw [h.target.cString (by omega), h.cut.cString] at hkept
    · have := congrArg List.length hkept
      simp [conditionalTarget] at this
    · simp only [rootMark, List.length_append, List.length_cons, List.length_nil]
      omega
  · intro hu before later heq
    rw [h.afterFollowers fun hm => hu (heq ▸ List.mem_append_left _ hm)]

/-- **Following a conditional link is repeatable** exactly in the sequences of calls without
uid 0. The answers alone are right exactly where a call by uid 0 is the last one. -/
theorem followLink_repeatable_iff (h : Conditional m ino oi a b) (uids : List Nat) :
    (Answered m ino a b uids ∧ TargetKept m ino oi uids ↔ 0 ∉ uids) ∧
      (Answered m ino a b uids ↔ 0 ∉ uids.dropLast) := by
  refine ⟨?_, h.answered_iff⟩
  rw [h.answered_iff, h.targetKept_iff]
  exact ⟨fun h => h.2, fun h => ⟨fun hm => h (List.dropLast_subset _ hm), h⟩⟩

/-- A disk with two inodes from block 3 on; inode 1 is a link with the target `root?a:b`. -/
def linkDisk : Mem :=
  ((Mem.set32 (fun _ => 0) 1032 2).set32 1036 3).store (inodeAddr 1 + 12)
    (conditionalTarget [97] [98])

theorem linkDisk_conditional : Conditional linkDisk 1 (inodeAddr 1) [97] [98] := by
  refine ⟨by decide, by decide, ?_, by decide, by decide⟩
  unfold conditionalTarget rootMark
  simp only [List.cons_append, List.nil_append, Mem.IsString]
  decide

theorem followLink_repeatable_linkDisk :
    Answered linkDisk 1 [97] [98] [1000, 1001] ∧ TargetKept linkDisk 1 (inodeAddr 1) [1000, 1001] :=
  (followLink_repeatable_iff linkDisk_conditional [1000, 1001]).1.2 (by decide)

/-- After root has followed the link a user is handed out nothing. -/
theorem user_after_root : Conditional linkDisk 1 (inodeAddr 1) [97] [98] ∧
    ¬ Answered linkDisk 1 [97] [98] [0, 1000] ∧ ¬ TargetKept linkDisk 1 (inodeAddr 1) [0, 1000] :=
  ⟨linkDisk_conditional, fun h => absurd (linkDisk_conditional.answered_iff.1 h) (by decide),
    fun h => absurd (linkDisk_conditional.targetKept_iff.1 h) (by decide)⟩

end OsLabs.Ospfs
