import OsLabs.Lib.Runs
import OsLabs.Osprd.Device
import Mathlib.Logic.Function.Basic

/-!
# The ramdisk lock: interleaved processes

Every process is idle or somewhere inside one call (`Pc`). One action performs
one atomic step of one process: a spinlock-protected section, or one read of a
shared field or flag made outside the spinlock. The three operands of
`CONDITION` are read one after the other, as `&&` evaluates them. `step` also
gives the value returned by the call that ends with the step.

`wait_event_interruptible(d->blockq, 1)` is kernel code. The model lets it
return `0` (`next`) or `-ERESTARTSYS` (`signal`), whichever the schedule picks. Tickets recorded
behind the end of `invalid_pid_list` stand in memory that others write (`overwrite`).
-/

namespace OsLabs.Osprd

/-- Where a process stands; `f` is the open file, `t` is `my_ticket`. -/
inductive Pc where
  | idle
  /-- Writer with a ticket, before the section that looks for its own read lock. -/
  | warTest (f : File) (t : Nat)
  /-- About to read `d->n_read_lock` (writers only). -/
  | readReadLock (f : File) (t : Nat)
  /-- About to read `d->n_write_lock`. -/
  | readWriteLock (f : File) (t : Nat)
  /-- About to read `d->ticket_tail`. -/
  | readTail (f : File) (t : Nat)
  /-- `CONDITION` was false: in `wait_event_interruptible` or `schedule`. -/
  | blocked (f : File) (t : Nat)
  /-- `CONDITION` was true: before the section that takes the lock. -/
  | granting (f : File) (t : Nat)
  /-- Before the final `ticket_tail` update. -/
  | finishing (f : File) (t : Nat)
  /-- Saw the mark on `f`, before the section of `OSPRDIOCRELEASE`. -/
  | releasing (f : File)
  /-- Saw the mark on `f`, before the section of `osprd_close_last`. -/
  | closing (f : File)
  deriving DecidableEq, Repr

namespace Pc

/-- The file of the call a process is in. -/
def file? : Pc → Option File
  | idle => none
  | warTest f _ | readReadLock f _ | readWriteLock f _ | readTail f _ | blocked f _
  | granting f _ | finishing f _ | releasing f | closing f => some f

/-- The ticket of a process that has drawn one and has not been granted the lock. -/
def waiting? : Pc → Option Nat
  | warTest _ t | readReadLock _ t | readWriteLock _ t | readTail _ t | blocked _ t
  | granting _ t => some t
  | idle | finishing .. | releasing _ | closing _ => none

/-- The ticket of a process inside `OSPRDIOCACQUIRE`. -/
def ticket? : Pc → Option Nat
  | finishing _ t => some t
  | pc => pc.waiting?

end Pc

structure State where
  dev : OsprdInfo
  /-- Open files with `F_OSPRD_LOCKED` in `f_flags`. -/
  locked : Finset File
  /-- Files whose last close has begun. -/
  closed : Finset File
  pc : Pid → Pc
  /-- History: the number of tickets drawn so far. -/
  drawn : Nat

inductive Action where
  | acquire (p : Pid) (f : File)
  | tryAcquire (p : Pid) (f : File)
  | release (p : Pid) (f : File)
  | closeLast (p : Pid) (f : File)
  /-- The next atomic step of the call that `p` is in. -/
  | next (p : Pid)
  /-- `wait_event_interruptible` returns `-ERESTARTSYS` to `p`. -/
  | signal (p : Pid)
  /-- The recorded tickets that stand behind the end of `invalid_pid_list` become `ts`. -/
  | overwrite (ts : List Nat)
  deriving DecidableEq

def initial : State where
  dev := osprdSetup
  locked := ∅
  closed := ∅
  pc := fun _ => .idle
  drawn := 0

namespace State

variable (s : State)

def goto (p : Pid) (c : Pc) : State := { s with pc := Function.update s.pc p c }

def setDev (d : OsprdInfo) : State := { s with dev := d }

def drawTicket : State := { s with dev := s.dev.drawTicket, drawn := s.drawn + 1 }

def mark (f : File) : State := { s with locked := insert f s.locked }

def unmark (f : File) : State := { s with locked := s.locked.erase f }

@[simp] theorem goto_dev (p c) : (s.goto p c).dev = s.dev := rfl
@[simp] theorem goto_locked (p c) : (s.goto p c).locked = s.locked := rfl
@[simp] theorem goto_closed (p c) : (s.goto p c).closed = s.closed := rfl
@[simp] theorem goto_drawn (p c) : (s.goto p c).drawn = s.drawn := rfl
theorem goto_pc (p c q) : (s.goto p c).pc q = if q = p then c else s.pc q :=
  Function.update_apply ..
theorem goto_pc_of_ne {p q : Pid} (c) (h : q ≠ p) : (s.goto p c).pc q = s.pc q :=
  Function.update_of_ne h ..
@[simp] theorem setDev_dev (d) : (s.setDev d).dev = d := rfl
@[simp] theorem setDev_locked (d) : (s.setDev d).locked = s.locked := rfl
@[simp] theorem setDev_closed (d) : (s.setDev d).closed = s.closed := rfl
@[simp] theorem setDev_pc (d) : (s.setDev d).pc = s.pc := rfl
@[simp] theorem setDev_drawn (d) : (s.setDev d).drawn = s.drawn := rfl
@[simp] theorem mark_dev (f) : (s.mark f).dev = s.dev := rfl
@[simp] theorem mark_locked (f) : (s.mark f).locked = insert f s.locked := rfl
@[simp] theorem mark_closed (f) : (s.mark f).closed = s.closed := rfl
@[simp] theorem mark_pc (f) : (s.mark f).pc = s.pc := rfl
@[simp] theorem mark_drawn (f) : (s.mark f).drawn = s.drawn := rfl
@[simp] theorem unmark_dev (f) : (s.unmark f).dev = s.dev := rfl
@[simp] theorem unmark_locked (f) : (s.unmark f).locked = s.locked.erase f := rfl
@[simp] theorem unmark_closed (f) : (s.unmark f).closed = s.closed := rfl
@[simp] theorem unmark_pc (f) : (s.unmark f).pc = s.pc := rfl
@[simp] theorem unmark_drawn (f) : (s.unmark f).drawn = s.drawn := rfl

end State

/-- A call starts in an idle process on a file that is not closed. -/
def canCall (s : State) (p : Pid) (f : File) : Prop := s.pc p = .idle ∧ f ∉ s.closed

instance (s : State) (p : Pid) (f : File) : Decidable (canCall s p f) :=
  inferInstanceAs (Decidable (_ ∧ _))

/-- First section of `OSPRDIOCACQUIRE`. `w f` is `filp_writable` of `f`. -/
def startAcquire (w : File → Bool) (s : State) (p : Pid) (f : File) : State × Option Ret :=
  if (p : Int) = s.dev.writeLockPid then (s, some .eDeadlk)
  else
    let t := s.dev.ticketHead
    (s.drawTicket.goto p (if w f then .warTest f t else .readWriteLock f t), none)

/-- `OSPRDIOCTRYACQUIRE`, one section. -/
def tryAcquire (w : File → Bool) (s : State) (f : File) : State × Option Ret :=
  if s.dev.tryBusy (w f) then (s, some .eBusy)
  else ((s.setDev (s.dev.tryGrant (w f)).stored).mark f, some .ok)

/-- The flag test of `OSPRDIOCRELEASE`, outside the spinlock. -/
def startRelease (s : State) (p : Pid) (f : File) : State × Option Ret :=
  if f ∈ s.locked then (s.goto p (.releasing f), none) else (s, some .eInval)

/-- The flag test of `osprd_close_last`, outside the spinlock. -/
def startClose (s : State) (p : Pid) (f : File) : State × Option Ret :=
  let s' := { s with closed := insert f s.closed }
  if f ∈ s.locked then (s'.goto p (.closing f), none) else (s', some .ok)

/-- The next atomic step of the call that `p` is in. -/
def advance (w : File → Bool) (s : State) (p : Pid) : Option (State × Option Ret) :=
  match s.pc p with
  | .idle => none
  | .warTest f t =>
    if (p : Int) ∈ s.dev.readLockPidList then some (s.goto p .idle, some .eDeadlk)
    else some (s.goto p (.readReadLock f t), none)
  | .readReadLock f t =>
    some (s.goto p (if s.dev.nReadLock = 0 then .readWriteLock f t else .blocked f t), none)
  | .readWriteLock f t =>
    some (s.goto p (if s.dev.nWriteLock = 0 then .readTail f t else .blocked f t), none)
  | .readTail f t =>
    some (s.goto p (if t = s.dev.ticketTail then .granting f t else .blocked f t), none)
  | .blocked f t =>
    some (s.goto p (if w f then .readReadLock f t else .readWriteLock f t), none)
  | .granting f t =>
    some (((s.setDev (s.dev.grant (w f) p).stored).mark f).goto p (.finishing f t), none)
  | .finishing _ _ => some ((s.setDev s.dev.finish).goto p .idle, some .ok)
  | .releasing f =>
    some (((s.setDev (s.dev.release (w f)).stored).unmark f).goto p .idle, some .ok)
  | .closing f =>
    some (((s.setDev (s.dev.closeSection (w f) p).stored).unmark f).goto p .idle, some .ok)

/-- `wait_event_interruptible` returned `-ERESTARTSYS`: the section that abandons the ticket. -/
def interrupt (s : State) (p : Pid) : Option (State × Option Ret) :=
  match s.pc p with
  | .blocked _ t => some ((s.setDev (s.dev.abandon t)).goto p .idle, some .eRestartSys)
  | _ => none

/-- Only what stands behind the end of the block changes. -/
def overwrite (s : State) (ts : List Nat) : Option (State × Option Ret) :=
  if ts.length = (s.dev.invalidPidList.drop invalidRoom).length then
    some (s.setDev (s.dev.overwrite ts), none)
  else none

/-- One atomic step. -/
def step (w : File → Bool) (s : State) : Action → Option (State × Option Ret)
  | .acquire p f => if canCall s p f then some (startAcquire w s p f) else none
  | .tryAcquire p f => if canCall s p f then some (tryAcquire w s f) else none
  | .release p f => if canCall s p f then some (startRelease s p f) else none
  | .closeLast p f => if canCall s p f then some (startClose s p f) else none
  | .next p => advance w s p
  | .signal p => interrupt s p
  | .overwrite ts => overwrite s ts

/-- The kernel calls `osprd_close_last` when the last reference to `f` goes:
no process is in a call on it. -/
def lastReference (s : State) : Action → Prop
  | .closeLast _ f => ∀ q, (s.pc q).file? ≠ some f
  | _ => True

/-- The processes and open files of one ramdisk; `w f` is `filp_writable` of `f`. -/
def lockSystem (w : File → Bool) : System State Action where
  Init s := s = initial
  Step s a s' := lastReference s a ∧ ∃ r, step w s a = some (s', r)

/-! ## Frame and concrete runs -/

/-- The process that takes the step. -/
def Action.actor? : Action → Option Pid
  | acquire p _ | tryAcquire p _ | release p _ | closeLast p _ | next p | signal p => some p
  | overwrite _ => none

theorem advance_pc {w : File → Bool} {s s' : State} {p q : Pid} {r : Option Ret}
    (hs : advance w s p = some (s', r)) (hq : q ≠ p) : s'.pc q = s.pc q := by
  unfold advance at hs
  split at hs
  · cases hs
  · split at hs <;> cases hs <;> simp [State.goto_pc, hq]
  all_goals cases hs; simp [State.goto_pc, hq]

/-- A step moves only the process that takes it. -/
theorem step_pc {w : File → Bool} {s s' : State} {a : Action} {q : Pid} {r : Option Ret}
    (hs : step w s a = some (s', r)) (hq : a.actor? ≠ some q) : s'.pc q = s.pc q := by
  have hne (p : Pid) (ha : a.actor? = some p) : q ≠ p := by
    rintro rfl
    exact hq ha
  cases a with
  | acquire p f =>
    simp only [step, startAcquire] at hs
    split at hs
    · split at hs <;> cases hs
      · rfl
      · exact State.goto_pc_of_ne _ _ (hne p rfl)
    · cases hs
  | tryAcquire p f =>
    simp only [step, tryAcquire] at hs
    split at hs
    · split at hs <;> cases hs <;> rfl
    · cases hs
  | release p f =>
    simp only [step, startRelease] at hs
    split at hs
    · split at hs <;> cases hs
      · exact State.goto_pc_of_ne _ _ (hne p rfl)
      · rfl
    · cases hs
  | closeLast p f =>
    simp only [step, startClose] at hs
    split at hs
    · split at hs <;> cases hs
      · exact State.goto_pc_of_ne _ _ (hne p rfl)
      · rfl
    · cases hs
  | next p => exact advance_pc hs (hne p rfl)
  | signal p =>
    simp only [step, interrupt] at hs
    split at hs <;> cases hs
    exact State.goto_pc_of_ne _ _ (hne p rfl)
  | overwrite ts =>
    simp only [step, overwrite] at hs
    split at hs <;> cases hs
    rfl

/-- A process that has taken no step is idle. -/
theorem run_idle {w : File → Bool} {G : State → Action → Prop} {h : List Action} {s : State}
    (hr : (lockSystem w).RunIf G h s) {q : Pid} (hq : ∀ a ∈ h, a.actor? ≠ some q) :
    s.pc q = .idle := by
  refine hr.inv (I := fun h s => (∀ a ∈ h, a.actor? ≠ some q) → s.pc q = .idle) ?_ ?_ hq
  · rintro s rfl -
    rfl
  · rintro h s a s' ih - ⟨-, r, hs⟩ hq
    rw [step_pc hs (hq a List.mem_cons_self)]
    exact ih fun b hb => hq b (List.mem_cons_of_mem _ hb)

/-- The `n`-th process of a concrete run. -/
abbrev pid (n : Nat) : Pid := ⟨n + 1, by omega⟩

/-- Perform atomic steps, none of them a last close, that pass the check `g`. -/
def lockExec (w : File → Bool) (g : State → Action → Bool) : List Action → Option State :=
  System.execIf (fun s a => g s a && !(a matches .closeLast ..))
    (fun s a => (step w s a).map Prod.fst) initial

/-- A checked step, not a last close, is a step of the system. -/
theorem lockSystem_of_step {w : File → Bool} {g : State → Action → Bool}
    {G : State → Action → Prop} (hg : ∀ s a, g s a = true → G s a) {s s' : State} {a : Action}
    (ha : (g s a && !(a matches .closeLast ..)) = true)
    (hs : (step w s a).map Prod.fst = some s') : G s a ∧ (lockSystem w).Step s a s' := by
  obtain ⟨ha, hc⟩ := Bool.and_eq_true_iff.mp ha
  obtain ⟨⟨t, r⟩, ht, rfl⟩ := Option.map_eq_some_iff.mp hs
  refine ⟨hg s a ha, ?_, r, ht⟩
  cases a with
  | closeLast p f => cases hc
  | _ => trivial

theorem runIf_of_lockExec {w : File → Bool} {g : State → Action → Bool}
    {G : State → Action → Prop} (hg : ∀ s a, g s a = true → G s a) {as : List Action}
    (he : (lockExec w g as).isSome) :
    (lockSystem w).RunIf G as.reverse ((lockExec w g as).get he) :=
  System.runIf_of_execIf (fun _ _ _ => lockSystem_of_step hg) rfl (Option.some_get he).symm

end OsLabs.Osprd
