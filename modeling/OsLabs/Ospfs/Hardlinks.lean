import OsLabs.Lib.Numbering
import OsLabs.Ospfs.Format

/-!
# OSPFS: the formatter's hard links

`get_hardlink` and `add_hardlink` without `-c`, as a numbering by the host's inode
numbers: the list `hardlinks` is the table, and it keeps the low 32 bits of a number.
-/

namespace OsLabs.Ospfs

/-- What `host_ino` of a `struct Hardlink` keeps of a number. -/
def hostIno32 (hostIno : Nat) : Nat := hostIno % 2 ^ 32

theorem hostIno32_idem (hostIno : Nat) : hostIno32 (hostIno32 hostIno) = hostIno32 hostIno :=
  Nat.mod_mod hostIno (2 ^ 32)

/-- `host_ino` as a key; 0 stands for a file that no other name links to. -/
def hostKey (hostIno : Nat) : Option Nat := if hostIno ≠ 0 then some hostIno else none

def Globals.numbering (s : Globals) : Numbering Nat :=
  ⟨s.nextinode, s.hardlinks.map fun h => (h.hostIno, h.ospIno)⟩

/-- The inode that a name with this `host_ino` gets, and the numbering after it. -/
def Globals.number (s : Globals) (hostIno : Nat) : Nat × Numbering Nat :=
  s.numbering.number hostIno32 (hostKey hostIno)

variable {hostIno : Nat} {md5 : Option Nat}

theorem find_hardlinks (md5 : Option Nat) (h0 : hostIno ≠ 0) {l : List Hardlink}
    (hl : ∀ c ∈ l, c.ospIno ≠ 0) :
    Numbering.find hostIno (l.map fun h => (h.hostIno, h.ospIno)) =
      if getHardlink false hostIno md5 l = 0 then none
      else some (getHardlink false hostIno md5 l) := by
  induction l with
  | nil => rfl
  | cons c l ih =>
    by_cases hc : c.hostIno = hostIno
    · have hfirst : getHardlink false hostIno md5 (c :: l) = c.ospIno := if_pos (.inl ⟨h0, hc⟩)
      rw [hfirst, if_neg (hl c List.mem_cons_self)]
      exact if_pos hc
    · have hrest : getHardlink false hostIno md5 (c :: l) = getHardlink false hostIno md5 l :=
        if_neg (by simp [hc])
      rw [hrest, ← ih fun c hc => hl c (List.mem_cons_of_mem _ hc)]
      exact if_neg hc

namespace Globals

variable {s : Globals}

theorem number_zero : s.number 0 = (s.nextinode, ⟨s.nextinode + 1, s.numbering.table⟩) := rfl

/-- The first name of a file with links. -/
theorem number_new (h0 : hostIno ≠ 0) (hl : ∀ c ∈ s.hardlinks, c.ospIno ≠ 0)
    (h : getHardlink false hostIno md5 s.hardlinks = 0) : s.number hostIno =
      (s.nextinode, ⟨s.nextinode + 1, (hostIno32 hostIno, s.nextinode) :: s.numbering.table⟩) := by
  have hfind := find_hardlinks md5 h0 hl
  rw [if_pos h] at hfind
  unfold number hostKey Numbering.number numbering
  rw [if_pos h0]
  dsimp only
  rw [hfind]

/-- A further name. -/
theorem number_found (h0 : hostIno ≠ 0) (hl : ∀ c ∈ s.hardlinks, c.ospIno ≠ 0)
    (h : getHardlink false hostIno md5 s.hardlinks ≠ 0) :
    s.number hostIno = (getHardlink false hostIno md5 s.hardlinks, s.numbering) := by
  have hfind := find_hardlinks md5 h0 hl
  rw [if_neg h] at hfind
  unfold number hostKey Numbering.number numbering
  rw [if_pos h0]
  dsimp only
  rw [hfind]

end Globals

end OsLabs.Ospfs
