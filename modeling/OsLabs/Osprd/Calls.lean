import OsLabs.Osprd.Exclusion
import Mathlib.Data.Multiset.MapFold

/-!
# The ramdisk lock: one call at a time

The same sections, put together into whole calls that nothing interleaves
with. An acquire that finds `CONDITION` false keeps its ticket and blocks;
`resume` completes it once `CONDITION` is true. `holder` is history: the process
that took the lock of a marked file.

`Mirrors` says that the counters and the two pid fields describe the holders.
Acquire and the close of a write lock keep it, but a granted try-acquire and a
release leave the pid fields behind, and the close of a read lock does not
unlink the head of the pid list; `keepsBooks` excludes exactly these calls.
-/

namespace OsLabs.Osprd.Calls

open OsLabs.Osprd

structure State where
  dev : OsprdInfo
  locked : Finset File
  /-- The file and ticket of a blocked acquire. -/
  blocked : Pid → Option (File × Nat)
  holder : File → Int

inductive Call where
  | acquire (p : Pid) (f : File)
  /-- A blocked acquire finds `CONDITION` true. -/
  | resume (p : Pid)
  /-- A blocked acquire gets `-ERESTARTSYS`. -/
  | interrupt (p : Pid)
  | tryAcquire (p : Pid) (f : File)
  | release (p : Pid) (f : File)
  | closeLast (p : Pid) (f : File)

def initial : State := ⟨osprdSetup, ∅, fun _ => none, fun _ => 0⟩

variable (w : File → Bool) (s : State)

/-- Take the lock of `f` for `p`; `d` is the device after the section that took it. -/
def State.take (p : Pid) (f : File) (d : OsprdInfo) : State :=
  { s with dev := d, locked := insert f s.locked, holder := Function.update s.holder f p }

/-- The grant section followed by the final one. -/
def grantAndFinish (p : Pid) (f : File) (d : OsprdInfo) : State :=
  s.take p f (d.grant (w f) p).finish

/-- `OSPRDIOCACQUIRE` up to its return or to the first wait. -/
def acquire (p : Pid) (f : File) : State × Option Ret :=
  if (p : Int) = s.dev.writeLockPid then (s, some .eDeadlk)
  else
    let t := s.dev.ticketHead
    let d := s.dev.drawTicket
    if w f = true ∧ (p : Int) ∈ d.readLockPidList then ({ s with dev := d }, some .eDeadlk)
    else if d.condition (w f) t then (grantAndFinish w s p f d, some .ok)
    else ({ s with dev := d, blocked := Function.update s.blocked p (some (f, t)) }, none)

def tryAcquire (p : Pid) (f : File) : State × Option Ret :=
  if s.dev.tryBusy (w f) then (s, some .eBusy)
  else (s.take p f (s.dev.tryGrant (w f)), some .ok)

def release (f : File) : State × Option Ret :=
  if f ∈ s.locked then
    ({ s with dev := s.dev.release (w f), locked := s.locked.erase f }, some .ok)
  else (s, some .eInval)

/-- `osprd_close_last`. -/
def closeLast (p : Pid) (f : File) : State × Option Ret :=
  if f ∈ s.locked then
    ({ s with dev := s.dev.closeSection (w f) p, locked := s.locked.erase f }, some .ok)
  else (s, some .ok)

/-- One call, or the end of a blocked one. -/
def step : Call → Option (State × Option Ret)
  | .acquire p f => if s.blocked p = none then some (acquire w s p f) else none
  | .resume p =>
    match s.blocked p with
    | some (f, t) =>
      if s.dev.condition (w f) t then
        some ({ grantAndFinish w s p f s.dev with
                blocked := Function.update s.blocked p none }, some .ok)
      else none
    | none => none
  | .interrupt p =>
    match s.blocked p with
    | some (_, t) =>
      some ({ s with dev := s.dev.abandon t, blocked := Function.update s.blocked p none },
        some .eRestartSys)
    | none => none
  | .tryAcquire p f => if s.blocked p = none then some (tryAcquire w s p f) else none
  | .release p f => if s.blocked p = none then some (release w s f) else none
  | .closeLast p f => if s.blocked p = none then some (closeLast w s p f) else none

def callSystem (w : File → Bool) : System State Call where
  Init s := s = initial
  Step s a s' := ∃ r, step w s a = some (s', r)

/-! ## The books and the holders -/

/-- The record describes the marked files and the processes that locked them. -/
structure Mirrors (w : File → Bool) (s : State) : Prop where
  writers : s.dev.nWriteLock = holders w true s.locked
  readers : s.dev.nReadLock = holders w false s.locked
  write_pid : ∀ f ∈ s.locked, w f = true → s.dev.writeLockPid = s.holder f
  no_write_pid : (∀ f ∈ s.locked, w f = false) → s.dev.writeLockPid ≤ 0
  read_pids : (s.dev.readLockPidList : Multiset Int) =
    (s.locked.filter (w · = false)).val.map s.holder
  exclusive : Exclusive w s.locked

/-- The calls that keep the books: no reader locks a file that is marked
already, no try-acquire is granted, no marked file is released, and a read lock
is closed by the process that took it, when its pid is not at the head of the list. -/
def keepsBooks (w : File → Bool) (s : State) : Call → Bool
  | .acquire _ f =>
    w f || f ∉ s.locked || !s.dev.drawTicket.condition (w f) s.dev.ticketHead
  | .resume p =>
    match s.blocked p with
    | some (f, _) => w f || f ∉ s.locked
    | none => true
  | .interrupt _ => true
  | .tryAcquire _ f => s.dev.tryBusy (w f)
  | .release _ f => f ∉ s.locked
  | .closeLast p f =>
    f ∉ s.locked || w f || (s.holder f == p && s.dev.readLockPidList.head? != some (p : Int))

variable {w : File → Bool} {s : State}

theorem Mirrors.congr {s' : State} (h : Mirrors w s)
    (h1 : s'.dev.nWriteLock = s.dev.nWriteLock) (h2 : s'.dev.nReadLock = s.dev.nReadLock)
    (h3 : s'.dev.writeLockPid = s.dev.writeLockPid)
    (h4 : s'.dev.readLockPidList = s.dev.readLockPidList) (h5 : s'.locked = s.locked)
    (h6 : s'.holder = s.holder) : Mirrors w s' :=
  ⟨by rw [h1, h5]; exact h.writers, by rw [h2, h5]; exact h.readers,
    by rw [h3, h5, h6]; exact h.write_pid, by rw [h3, h5]; exact h.no_write_pid,
    by rw [h4, h5, h6]; exact h.read_pids, by rw [h5]; exact h.exclusive⟩

/-- Every reader in the pid list holds a read lock. -/
theorem Mirrors.mem_read_pids (h : Mirrors w s) {p : Int} :
    p ∈ s.dev.readLockPidList ↔ ∃ f ∈ s.locked, w f = false ∧ s.holder f = p := by
  rw [← Multiset.mem_coe, h.read_pids, Multiset.mem_map]
  simp only [Finset.mem_val, Finset.mem_filter, and_assoc]

theorem holders_insert (b : Bool) {l : Finset File} {f : File} (hf : f ∉ l) :
    holders w b (insert f l) = holders w b l + if w f = b then 1 else 0 := by
  have := holders_erase (w := w) (Finset.mem_insert_self f l) b
  rw [Finset.erase_insert hf] at this
  omega

/-- The lock is taken for writing when the counters are zero. -/
theorem Mirrors.take_writer (h : Mirrors w s) {p : Pid} {f : File} {d : OsprdInfo}
    (hf : w f = true) (hw : s.dev.nWriteLock = 0) (hr : s.dev.nReadLock = 0)
    (h1 : d.nWriteLock = 1) (h2 : d.nReadLock = 0) (h3 : d.writeLockPid = p)
    (h4 : d.readLockPidList = s.dev.readLockPidList) : Mirrors w (s.take p f d) := by
  have hl : s.locked = ∅ := by
    refine Finset.eq_empty_of_forall_notMem fun g hg => ?_
    have h1 := not_mem_of_holders (w := w) (h.writers.symm.trans hw).le hg
    have h2 := not_mem_of_holders (w := w) (h.readers.symm.trans hr).le hg
    cases hb : w g <;> simp_all
  have hnil : s.dev.readLockPidList = [] := by
    have := h.read_pids
    rw [hl] at this
    simpa using this
  have hlock : (s.take p f d).locked = {f} := by simp only [State.take, hl, insert_empty_eq]
  refine ⟨?_, ?_, ?_, ?_, ?_, ?_⟩
  · rw [hlock, ← insert_empty_eq, holders_insert _ (Finset.notMem_empty f)]
    simp [State.take, h1, hf, holders]
  · rw [hlock, ← insert_empty_eq, holders_insert _ (Finset.notMem_empty f)]
    simp [State.take, h2, hf, holders]
  · intro g hg _
    rw [hlock, Finset.mem_singleton] at hg
    subst hg
    simp [State.take, h3]
  · intro hno
    have := hno f (by rw [hlock]; exact Finset.mem_singleton_self f)
    rw [hf] at this
    cases this
  · rw [hlock, Finset.filter_singleton]
    simp [State.take, h4, hnil, hf]
  · intro g hg _ k hk
    rw [hlock, Finset.mem_singleton] at hg hk
    rw [hg, hk]

/-- The lock is taken for reading by an unmarked file when no writer holds it. -/
theorem Mirrors.take_reader (h : Mirrors w s) {p : Pid} {f : File} {d : OsprdInfo}
    (hf : w f = false) (hm : f ∉ s.locked) (hw : s.dev.nWriteLock = 0)
    (h1 : d.nWriteLock = 0) (h2 : d.nReadLock = s.dev.nReadLock + 1)
    (h3 : d.writeLockPid = s.dev.writeLockPid)
    (h4 : d.readLockPidList = s.dev.readLockPidList ++ [(p : Int)]) :
    Mirrors w (s.take p f d) := by
  have hnone : ∀ g ∈ s.locked, w g = false := fun g hg => by
    simpa using not_mem_of_holders (w := w) (h.writers.symm.trans hw).le hg
  have hnone' : ∀ g ∈ (s.take p f d).locked, w g = false := fun g hg =>
    (Finset.mem_insert.mp hg).elim (fun e => e ▸ hf) (hnone g)
  refine ⟨?_, ?_, ?_, ?_, ?_, ?_⟩
  · have := h.writers
    simp only [State.take, holders_insert _ hm, hf, h1]
    simp
    omega
  · have := h.readers
    simp only [State.take, holders_insert _ hm, hf, h2]
    simp
    omega
  · intro g hg hwg
    rw [hnone' g hg] at hwg
    cases hwg
  · intro _
    simp only [State.take, h3]
    exact h.no_write_pid hnone
  · simp only [State.take, h4, Finset.filter_insert, hf, if_true]
    rw [Finset.insert_val_of_notMem fun hx => hm (Finset.mem_filter.mp hx).1, Multiset.map_cons,
      Function.update_self, ← Multiset.coe_add, h.read_pids, Multiset.add_comm, Multiset.coe_singleton,
      Multiset.singleton_add]
    congr 1
    refine Multiset.map_congr rfl fun g hg => (Function.update_of_ne ?_ ..).symm
    rintro rfl
    exact hm (Finset.mem_filter.mp hg).1
  · intro g hg hwg
    rw [hnone' g hg] at hwg
    cases hwg

theorem Mirrors.grantAndFinish (h : Mirrors w s) {p : Pid} {f : File} {d : OsprdInfo}
    (hg : w f = true ∨ f ∉ s.locked) (hc : d.lockFree (w f) = true)
    (h1 : d.nWriteLock = s.dev.nWriteLock) (h2 : d.nReadLock = s.dev.nReadLock)
    (h3 : d.writeLockPid = s.dev.writeLockPid)
    (h4 : d.readLockPidList = s.dev.readLockPidList) : Mirrors w (grantAndFinish w s p f d) := by
  unfold Calls.grantAndFinish
  cases hf : w f
  · have hm := hg.resolve_left (by simp [hf])
    simp [OsprdInfo.lockFree, hf] at hc
    exact h.take_reader hf hm (h1 ▸ hc) hc (by rw [← h2]; rfl) h3 (by rw [← h4]; rfl)
  · simp [OsprdInfo.lockFree, hf] at hc
    exact h.take_writer hf (h1 ▸ hc.2) (h2 ▸ hc.1) (by simp [OsprdInfo.finish, OsprdInfo.grant, hc])
      hc.1 rfl h4

theorem Mirrors.acquire (h : Mirrors w s) {p : Pid} {f : File}
    (hg : keepsBooks w s (.acquire p f) = true) : Mirrors w (acquire w s p f).1 := by
  unfold Calls.acquire
  split
  · exact h
  · dsimp only
    split
    · exact h.congr rfl rfl rfl rfl rfl rfl
    · split
      · next hc =>
        have hg : w f = true ∨ f ∉ s.locked := by simpa [keepsBooks, hc] using hg
        refine h.grantAndFinish hg ?_ rfl rfl rfl rfl
        exact (Bool.and_eq_true_iff.mp hc).1
      · exact h.congr rfl rfl rfl rfl rfl rfl

theorem erase_of_head?_ne {l : List Int} {p : Int} (h : l.head? ≠ some p) :
    OsprdInfo.unlinkReader p l = l.erase p := by
  cases l with
  | nil => rfl
  | cons x xs =>
    have hx : x ≠ p := fun e => h (by rw [e]; rfl)
    simp only [OsprdInfo.unlinkReader, if_neg hx]
    rw [List.erase_cons_tail (by simpa using hx)]

theorem Mirrors.closeLast (h : Mirrors w s) {p : Pid} {f : File}
    (hg : keepsBooks w s (.closeLast p f) = true) : Mirrors w (closeLast w s p f).1 := by
  unfold Calls.closeLast
  split
  · next hl =>
    have hex : Exclusive w (s.locked.erase f) := fun g hg hwg k hk =>
      h.exclusive g (Finset.mem_of_mem_erase hg) hwg k (Finset.mem_of_mem_erase hk)
    cases hf : w f
    · -- a reader: its pid is unlinked once
      have hh : s.holder f = p ∧ s.dev.readLockPidList.head? ≠ some (p : Int) := by
        simpa [keepsBooks, hl, hf] using hg
      refine ⟨?_, ?_, fun g hg => h.write_pid g (Finset.mem_of_mem_erase hg), fun hno => ?_, ?_,
        hex⟩
      · have := h.writers
        simp only [OsprdInfo.closeSection, holders_erase hl, hf]
        simpa using this
      · have := h.readers
        simp only [OsprdInfo.closeSection, holders_erase hl, hf]
        simpa using this
      · refine h.no_write_pid fun g hg => ?_
        by_cases e : g = f
        · exact e ▸ hf
        · exact hno g (Finset.mem_erase.mpr ⟨e, hg⟩)
      · have hmem : f ∈ (s.locked.filter (w · = false)).val := Finset.mem_filter.mpr ⟨hl, hf⟩
        simp only [OsprdInfo.closeSection, Bool.false_eq_true, if_false]
        rw [erase_of_head?_ne hh.2, ← Multiset.coe_erase, h.read_pids, Finset.filter_erase,
          Finset.erase_val, Multiset.map_erase_of_mem _ _ hmem, hh.1]
    · -- the writer: nobody is left
      have hnil : ∀ g ∈ s.locked.erase f, False := fun g hg =>
        (Finset.mem_erase.mp hg).1 (h.exclusive f hl hf g (Finset.mem_of_mem_erase hg))
      refine ⟨?_, ?_, fun g hg => (hnil g hg).elim, fun _ => by simp [OsprdInfo.closeSection], ?_,
        hex⟩
      · have := h.writers
        simp only [OsprdInfo.closeSection, holders_erase hl, hf]
        simpa using this
      · have := h.readers
        simp only [OsprdInfo.closeSection, holders_erase hl, hf]
        simpa using this
      · have hnot : f ∉ s.locked.filter (w · = false) := fun hx => by
          have := (Finset.mem_filter.mp hx).2
          rw [hf] at this
          cases this
        simp only [OsprdInfo.closeSection, if_true]
        rw [h.read_pids, Finset.filter_erase, Finset.erase_eq_of_notMem hnot]
  · exact h

/-- **One call keeps the books.** -/
theorem Mirrors.step {s' : State} {c : Call} {r : Option Ret} (h : Mirrors w s)
    (hg : keepsBooks w s c = true) (hs : step w s c = some (s', r)) : Mirrors w s' := by
  cases c with
  | acquire p f =>
    simp only [Calls.step] at hs
    split at hs
    · have e : (Calls.acquire w s p f).1 = s' := congrArg Prod.fst (Option.some.inj hs)
      exact e ▸ h.acquire hg
    · cases hs
  | resume p =>
    simp only [Calls.step] at hs
    split at hs
    · next f t hb =>
      split at hs <;> cases hs
      next hc =>
      have hg : w f = true ∨ f ∉ s.locked := by simpa [keepsBooks, hb] using hg
      refine Mirrors.congr (h.grantAndFinish hg (Bool.and_eq_true_iff.mp hc).1 rfl rfl rfl rfl)
        rfl rfl rfl rfl rfl rfl
    · cases hs
  | interrupt p =>
    simp only [Calls.step] at hs
    split at hs <;> cases hs
    exact h.congr rfl rfl rfl rfl rfl rfl
  | tryAcquire p f =>
    simp only [Calls.step, Calls.tryAcquire] at hs
    rw [if_pos (show s.dev.tryBusy (w f) = true from hg)] at hs
    split at hs <;> cases hs
    exact h
  | release p f =>
    simp only [Calls.step, Calls.release] at hs
    rw [if_neg (of_decide_eq_true hg)] at hs
    split at hs <;> cases hs
    exact h
  | closeLast p f =>
    simp only [Calls.step] at hs
    split at hs
    · have e : (Calls.closeLast w s p f).1 = s' := congrArg Prod.fst (Option.some.inj hs)
      exact e ▸ h.closeLast hg
    · cases hs

/-- Under the invariant only holders of a conflicting lock get `-EDEADLK`. -/
theorem Mirrors.deadlk (h : Mirrors w s) {p : Pid} {f : File} {s' : State}
    (hs : Calls.step w s (.acquire p f) = some (s', some .eDeadlk)) :
    ∃ g ∈ s.locked, s.holder g = p ∧ (w g = true ∨ w f = true) := by
  simp only [Calls.step, Calls.acquire] at hs
  split at hs
  · split at hs
    · next hp =>
      by_contra hno
      have := h.no_write_pid fun g hg => by
        by_contra hwg
        have hwg : w g = true := by simpa using hwg
        exact hno ⟨g, hg, (h.write_pid g hg hwg).symm.trans hp.symm, .inl hwg⟩
      have := p.2
      omega
    · split at hs
      · next hp =>
        obtain ⟨g, hg, -, hh⟩ := h.mem_read_pids.mp hp.2
        exact ⟨g, hg, hh, .inr hp.1⟩
      · split at hs <;> cases hs
  · cases hs

/-- **Lock bookkeeping mirrors the holders** in runs whose calls keep the books:
the counters count the marked files, the pid fields name the processes that
locked them, and `-EDEADLK` goes to holders of a conflicting lock only. -/
theorem run_mirrors {h : List Call} {s : State}
    (hr : (callSystem w).RunIf (fun s c => keepsBooks w s c = true) h s) :
    Mirrors w s ∧ ∀ p f s', Calls.step w s (.acquire p f) = some (s', some .eDeadlk) →
      ∃ g ∈ s.locked, s.holder g = p ∧ (w g = true ∨ w f = true) := by
  have hm : Mirrors w s := by
    refine hr.inv (I := fun _ s => Mirrors w s) ?_ ?_
    · rintro s rfl
      exact ⟨rfl, rfl, nofun, fun _ => le_rfl, rfl, nofun⟩
    · rintro h s c s' ih hg ⟨r, hs⟩
      exact ih.step hg hs
  exact ⟨hm, fun p f s' => hm.deadlk⟩

/-- Perform calls that pass the check `g`. -/
def callExec (w : File → Bool) (g : State → Call → Bool) : List Call → Option State :=
  System.execIf g (fun s c => (Calls.step w s c).map Prod.fst) initial

theorem runIf_of_callExec {g : State → Call → Bool} {G : State → Call → Prop}
    (hg : ∀ s c, g s c = true → G s c) {cs : List Call} (he : (callExec w g cs).isSome) :
    (callSystem w).RunIf G cs.reverse ((callExec w g cs).get he) := by
  refine System.runIf_of_execIf (fun s c s' hc hs => ⟨hg s c hc, ?_⟩) rfl
    (Option.some_get he).symm
  obtain ⟨⟨t, r⟩, ht, rfl⟩ := Option.map_eq_some_iff.mp hs
  exact ⟨r, ht⟩

/-- A writer locks and closes; then two readers lock and the second one closes. -/
def lockAndClose : List Call :=
  [.acquire (pid 0) 1, .closeLast (pid 0) 1, .acquire (pid 1) 0, .acquire (pid 2) 2,
    .closeLast (pid 2) 2]

theorem run_mirrors_lockAndClose : ∃ s, (callSystem fun f => f == 1).RunIf
    (fun s c => keepsBooks (fun f => f == 1) s c = true) lockAndClose.reverse s ∧
    s.locked = {0} ∧ s.dev.readLockPidList = [2] ∧ Mirrors (fun f => f == 1) s := by
  have he : (callExec (fun f => f == 1) (keepsBooks fun f => f == 1) lockAndClose).isSome := by
    decide
  have hr := runIf_of_callExec (G := fun s c => keepsBooks (fun f => f == 1) s c = true)
    (fun _ _ h => h) he
  exact ⟨_, hr, rfl, rfl, (run_mirrors hr).1⟩

/-- A process locks for writing and releases. -/
def lockAndRelease : List Call := [.acquire (pid 0) 0, .release (pid 0) 0]

/-- After a release `write_lock_pid` still names the process, and its next
acquire returns `-EDEADLK` though nobody holds a lock. -/
theorem stale_write_pid : ∃ s, (callSystem fun _ => true).Run lockAndRelease.reverse s ∧
    s.locked = ∅ ∧ s.dev.writeLockPid = pid 0 ∧
    ∃ s', Calls.step (fun _ => true) s (.acquire (pid 0) 0) = some (s', some .eDeadlk) := by
  have he : (callExec (fun _ => true) (fun _ _ => true) lockAndRelease).isSome := by decide
  have hr := runIf_of_callExec (G := fun _ _ => True) (fun _ _ _ => trivial) he
  exact ⟨_, hr, rfl, rfl, _, rfl⟩

end OsLabs.Osprd.Calls
