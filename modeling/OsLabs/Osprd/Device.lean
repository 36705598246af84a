import Mathlib.Data.Finset.Card
import Mathlib.Data.Finset.Filter
import Mathlib.Tactic.Ring
import OsLabs.Lib.CInt

/-!
# The ramdisk lock: device record and critical sections

`OsprdInfo` is the part of `osprd_info_t` that the lock uses. Each
spinlock-protected section of `osprd_ioctl` and `osprd_close_last` is one
function on the device record (and on the set of marked files where it touches
`f_flags`). The interleaving model (`Osprd.Step`) and the call-at-a-time model
(`Osprd.Calls`) are built from these sections.

Ticket counters are `unsigned`, so increments wrap at `2 ^ 32`. The lock counters are `int`: the
interleaving model stores them through `stored`. The sections do not test `n_invalid_pid`, so the
list of invalid tickets may run over the end of its block (`overwrite`).
-/

namespace OsLabs.Osprd

/-- Process IDs (`current->pid`) are positive. -/
abbrev Pid := {p : Int // 0 < p}

/-- An open file of the ramdisk (`struct file`). -/
abbrev File := Nat

/-- Results of `osprd_ioctl`: `0`, `-EDEADLK`, `-EBUSY`, `-EINVAL`, `-ERESTARTSYS`. -/
inductive Ret where
  | ok
  | eDeadlk
  | eBusy
  | eInval
  | eRestartSys
  deriving DecidableEq, Repr

structure OsprdInfo where
  ticketHead : Nat
  ticketTail : Nat
  nWriteLock : Int
  nReadLock : Int
  writeLockPid : Int
  readLockPidList : List Int
  /-- The first `n_invalid_pid` elements, also those behind the end of the block. -/
  invalidPidList : List Nat
  deriving DecidableEq, Repr

/-- `setup_device` clears the record, `osprd_setup` initialises the lock fields. -/
def osprdSetup : OsprdInfo where
  ticketHead := 0
  ticketTail := 0
  nWriteLock := 0
  nReadLock := 0
  writeLockPid := 0
  readLockPidList := []
  invalidPidList := []

/-- The elements that `osprd_setup` allocates for `invalid_pid_list`. -/
def invalidRoom : Nat := 1024

/-- `++` on an `unsigned`. -/
def incr (t : Nat) : Nat := (t + 1) % 2 ^ 32

theorem incr_of_lt {t : Nat} (h : t + 1 < 2 ^ 32) : incr t = t + 1 := Nat.mod_eq_of_lt h

namespace OsprdInfo

variable (d : OsprdInfo)

/-- First section of `OSPRDIOCACQUIRE`, after the RAW/WAW test: `my_ticket = d->ticket_head++`. -/
def drawTicket : OsprdInfo := { d with ticketHead := incr d.ticketHead }

/-- The tests on the lock counters in `CONDITION`; `w` is `filp_writable`. -/
def lockFree (w : Bool) : Bool :=
  if w then d.nReadLock == 0 && d.nWriteLock == 0 else d.nWriteLock == 0

/-- `CONDITION` of the two wait loops. -/
def condition (w : Bool) (myTicket : Nat) : Bool := d.lockFree w && myTicket == d.ticketTail

/-- The section on `-ERESTARTSYS`: step over the own ticket if it is being
served, and record it as invalid. -/
def abandon (myTicket : Nat) : OsprdInfo :=
  { d with
    ticketTail := if d.ticketTail = myTicket then incr d.ticketTail else d.ticketTail
    invalidPidList := d.invalidPidList ++ [myTicket] }

/-- The section that takes the lock (less the mark in `f_flags`). -/
def grant (w : Bool) (pid : Int) : OsprdInfo :=
  if w then { d with nWriteLock := d.nWriteLock + 1, writeLockPid := pid }
  else { d with
    nReadLock := d.nReadLock + 1
    readLockPidList := d.readLockPidList ++ [pid] }

/-- The pass over `invalid_pid_list`: `if (invalid_pid_list[i] == ticket_tail) ticket_tail++`. -/
def skipInvalid : List Nat → Nat → Nat
  | [], tail => tail
  | t :: ts, tail => skipInvalid ts (if t = tail then incr tail else tail)

/-- The last section of `OSPRDIOCACQUIRE`. -/
def finish : OsprdInfo :=
  { d with ticketTail := skipInvalid d.invalidPidList (incr d.ticketTail) }

/-- The test of `OSPRDIOCTRYACQUIRE` that answers `-EBUSY`. -/
def tryBusy (w : Bool) : Bool :=
  if w then 0 < d.nWriteLock || 0 < d.nReadLock || d.ticketTail != d.ticketHead
  else 0 < d.nWriteLock || d.ticketHead != d.ticketTail

/-- The section of `OSPRDIOCTRYACQUIRE` when the lock is granted. -/
def tryGrant (w : Bool) : OsprdInfo :=
  if w then { d with nWriteLock := d.nWriteLock + 1 }
  else { d with nReadLock := d.nReadLock + 1 }

/-- The section of `OSPRDIOCRELEASE`. -/
def release (w : Bool) : OsprdInfo :=
  if w then { d with nWriteLock := d.nWriteLock - 1 }
  else { d with nReadLock := d.nReadLock - 1 }

/-- The search of `osprd_close_last` in `read_lock_pid_list`. `fast` and `slow`
both start at the head, so at the head `slow->m_next = fast->m_next` changes
nothing; later nodes are unlinked. -/
def unlinkReader (pid : Int) : List Int → List Int
  | [] => []
  | p :: ps => if p = pid then p :: ps else p :: ps.erase pid

/-- The section of `osprd_close_last`. -/
def closeSection (w : Bool) (pid : Int) : OsprdInfo :=
  if w then { d with nWriteLock := d.nWriteLock - 1, writeLockPid := -1 }
  else { d with
    nReadLock := d.nReadLock - 1
    readLockPidList := unlinkReader pid d.readLockPidList }

/-- The lock counters as `int`. -/
def stored : OsprdInfo :=
  { d with nWriteLock := CInt.wrap d.nWriteLock, nReadLock := CInt.wrap d.nReadLock }

/-- The owner of the memory behind the block of `invalid_pid_list` writes `ts` there. -/
def overwrite (ts : List Nat) : OsprdInfo :=
  { d with invalidPidList := d.invalidPidList.take invalidRoom ++ ts }

@[simp] theorem stored_ticketHead : d.stored.ticketHead = d.ticketHead := rfl
@[simp] theorem stored_ticketTail : d.stored.ticketTail = d.ticketTail := rfl
@[simp] theorem stored_invalidPidList : d.stored.invalidPidList = d.invalidPidList := rfl

/-! ### Ticket fields of the sections that do not move the queue -/

section
variable (w : Bool) (pid : Int)

@[simp] theorem grant_ticketHead : (d.grant w pid).ticketHead = d.ticketHead := by
  cases w <;> rfl
@[simp] theorem grant_ticketTail : (d.grant w pid).ticketTail = d.ticketTail := by
  cases w <;> rfl
@[simp] theorem grant_invalidPidList : (d.grant w pid).invalidPidList = d.invalidPidList := by
  cases w <;> rfl
@[simp] theorem tryGrant_ticketHead : (d.tryGrant w).ticketHead = d.ticketHead := by
  cases w <;> rfl
@[simp] theorem tryGrant_ticketTail : (d.tryGrant w).ticketTail = d.ticketTail := by
  cases w <;> rfl
@[simp] theorem tryGrant_invalidPidList : (d.tryGrant w).invalidPidList = d.invalidPidList := by
  cases w <;> rfl
@[simp] theorem release_ticketHead : (d.release w).ticketHead = d.ticketHead := by
  cases w <;> rfl
@[simp] theorem release_ticketTail : (d.release w).ticketTail = d.ticketTail := by
  cases w <;> rfl
@[simp] theorem release_invalidPidList : (d.release w).invalidPidList = d.invalidPidList := by
  cases w <;> rfl
@[simp] theorem closeSection_ticketHead : (d.closeSection w pid).ticketHead = d.ticketHead := by
  cases w <;> rfl
@[simp] theorem closeSection_ticketTail : (d.closeSection w pid).ticketTail = d.ticketTail := by
  cases w <;> rfl
@[simp] theorem closeSection_invalidPidList :
    (d.closeSection w pid).invalidPidList = d.invalidPidList := by
  cases w <;> rfl

end

end OsprdInfo

end OsLabs.Osprd
