import OsLabs.Lib.Select
import OsLabs.Lib.Runs

/-!
# SchedOS: scheduling

The kernel of `schedos-kern.c`: `interrupt` handles a system call or a clock
interrupt, and `schedule` picks the process to run next. `run` does not return, so
no case of `interrupt` falls through. Registers are left out, but for the value of
`%eax` that a call passes.
-/

namespace OsLabs.Weensy.Schedos

open Select

def nprocs : Nat := 5

inductive ProcState where
  | empty
  | runnable
  | blocked
  | zombie
  deriving DecidableEq, Repr

structure Process where
  pState : ProcState := .empty
  pExitStatus : Int := 0
  pPriority : Int := 0
  deriving DecidableEq, Repr

structure Kernel where
  procArray : Nat → Process
  current : Nat
  schedulingAlgorithm : Int

namespace Kernel

variable (s : Kernel)

def isRunnable (pid : Nat) : Bool := (s.procArray pid).pState = .runnable

def priority (pid : Nat) : Int := (s.procArray pid).pPriority

def setCurrent (f : Process → Process) : Kernel :=
  { s with procArray := fun pid => if pid = s.current then f (s.procArray pid) else s.procArray pid }

end Kernel

/-- The interrupts, with the value of `%eax`. -/
inductive Interrupt where
  | sysYield
  | sysExit (eax : Int)
  | sysUser1 (eax : Int)
  | sysUser2
  | clock
  deriving DecidableEq, Repr

/-- `interrupt` up to its call of `schedule` (`true`) or of `run(current)`. -/
def interrupt (s : Kernel) : Interrupt → Kernel × Bool
  | .sysYield => (s, true)
  | .sysExit eax =>
    (s.setCurrent fun p => { p with pState := .zombie, pExitStatus := eax }, true)
  | .sysUser1 eax => (s.setCurrent fun p => { p with pPriority := eax }, false)
  | .sysUser2 => (s, false)
  | .clock => (s, true)

/-- The loop for algorithm 2 from process `pid` on; the source repeats it without bound. -/
def priorityLoop (s : Kernel) : (rounds pid : Nat) → Option Nat
  | 0, _ => none
  | rounds + 1, pid =>
    let (min, found) := scanMin s.isRunnable s.priority (s.priority pid) nprocs
    if found ≠ 0 then some found
    else
      match cyclic nprocs (fun j => s.isRunnable j && s.priority j == min) nprocs pid with
      | some j => some j
      | none =>
        if s.isRunnable ((pid + 1) % nprocs) then some ((pid + 1) % nprocs)
        else priorityLoop s rounds ((pid + 1) % nprocs)

/-- `schedule`: the process it runs, `none` when it spins. Each loop visits every
process within `NPROCS` rounds. -/
def schedule (s : Kernel) : Option Nat :=
  if s.schedulingAlgorithm = 0 then cyclic nprocs s.isRunnable nprocs s.current
  else if s.schedulingAlgorithm = 1 then cyclic nprocs s.isRunnable nprocs 0
  else if s.schedulingAlgorithm = 2 then priorityLoop s nprocs s.current
  else none

/-- `start`, with the scheduling algorithm it sets. -/
def start (schedulingAlgorithm : Int) : Kernel where
  procArray := fun pid =>
    { pState := if 1 ≤ pid ∧ pid < nprocs then .runnable else .empty
      pPriority := if pid = 1 ∨ pid = 4 then 3 else if pid = 2 then 2 else if pid = 3 then 1 else 0 }
  current := 1
  schedulingAlgorithm := schedulingAlgorithm

inductive Event where
  | interrupt (i : Interrupt)
  | schedule
  deriving DecidableEq, Repr

/-- The kernel with the flag that it is about to call `schedule`. -/
abbrev State := Kernel × Bool

def step (s : State) : Event → Option State
  | .interrupt i => if s.2 then none else some (interrupt s.1 i)
  | .schedule =>
    if s.2 then (Schedos.schedule s.1).map fun pid => ({ s.1 with current := pid }, false) else none

def system (schedulingAlgorithm : Int) : System State Event where
  Init s := s = (start schedulingAlgorithm, false)
  Step s e s' := step s e = some s'

/-! ## What `schedule` runs -/

/-- Process `q` stands between `pid` and the next runnable one; `pid` itself counts. -/
def Passed (s : Kernel) (pid q : Nat) : Prop :=
  ∃ j, q = (pid + j) % nprocs ∧ ∀ k < j, s.isRunnable ((pid + k + 1) % nprocs) = false

/-- No runnable process has a smaller priority. -/
def Smallest (s : Kernel) (p : Nat) : Prop :=
  ∀ r < nprocs, s.isRunnable r = true → s.priority p ≤ s.priority r

/-- One of the processes passed has no better priority than some runnable process. -/
def Reaches (s : Kernel) (pid : Nat) : Prop :=
  ∃ q r, Passed s pid q ∧ r < nprocs ∧ s.isRunnable r = true ∧ s.priority r ≤ s.priority q

variable {s : Kernel} {pid : Nat}

theorem Passed.self (h : pid < nprocs) : Passed s pid pid :=
  ⟨0, (Nat.mod_eq_of_lt h).symm, by simp⟩

/-- Past a process that is not runnable the walk goes on. -/
theorem passed_step (h : pid < nprocs) (hnext : s.isRunnable ((pid + 1) % nprocs) = false)
    {q : Nat} : Passed s pid q ↔ q = pid ∨ Passed s ((pid + 1) % nprocs) q := by
  have hmod (j : Nat) : ((pid + 1) % nprocs + j) % nprocs = (pid + (j + 1)) % nprocs := by
    rw [Nat.mod_add_mod]
    congr 1
    omega
  constructor
  · rintro ⟨j, rfl, hno⟩
    rcases j with _ | j
    · exact .inl (Nat.mod_eq_of_lt h)
    · refine .inr ⟨j, (hmod j).symm, fun k hk => ?_⟩
      rw [mod_add_mod]
      exact hno (k + 1) (by omega)
  · rintro (rfl | ⟨j, rfl, hno⟩)
    · exact .self h
    · refine ⟨j + 1, hmod j, fun k hk => ?_⟩
      rcases k with _ | k
      · exact hnext
      · rw [← mod_add_mod]
        exact hno k (by omega)

/-- The loop runs a runnable process: one of the smallest priority if the walk reaches
a process that is no better, else the next runnable one. The induction is on the rounds,
of which there are as many as steps to the next runnable process. -/
theorem priorityLoop_spec (h0 : s.isRunnable 0 = false) : ∀ (rounds pid : Nat), pid < nprocs →
    (∃ k < rounds, s.isRunnable ((pid + k + 1) % nprocs) = true) →
    ∃ p < nprocs, priorityLoop s rounds pid = some p ∧ s.isRunnable p = true ∧
      (Reaches s pid → Smallest s p) ∧
      (¬ Reaches s pid → Next nprocs s.isRunnable pid p) := by
  intro rounds
  induction rounds with
  | zero =>
    rintro pid - ⟨k, hk, -⟩
    omega
  | succ rounds ih =>
    rintro pid hpid ⟨k, hk, hrun⟩
    rw [priorityLoop]
    have hreach {r : Nat} (hr : r < nprocs) (hP : s.isRunnable r = true)
        (hle : s.priority r ≤ s.priority pid) : Reaches s pid :=
      ⟨pid, r, .self hpid, hr, hP, hle⟩
    rcases scanMin_spec s.isRunnable s.priority (s.priority pid) nprocs with
      ⟨hlt, hP, hv, hb, hmin⟩ | ⟨he, hmin⟩
    · have hne : (scanMin s.isRunnable s.priority (s.priority pid) nprocs).2 ≠ 0 := by
        intro he
        rw [he, h0] at hP
        cases hP
      refine ⟨_, hlt, by dsimp only; rw [if_pos hne], hP, fun _ r hr hPr => ?_, fun hno => ?_⟩
      · rw [hv]
        exact hmin r hr hPr
      · exact absurd (hreach hlt hP (by omega)) hno
    · simp only [he, ne_eq, not_true_eq_false, if_false]
      split
      · next j hj =>
        obtain ⟨i, hq, hP, -⟩ := next_of_cyclic hj
        simp only [Bool.and_eq_true, beq_iff_eq] at hP
        have hjlt : j < nprocs := hq ▸ Nat.mod_lt _ (by decide)
        refine ⟨j, hjlt, rfl, hP.1, fun _ r hr hPr => ?_, fun hno => ?_⟩
        · rw [hP.2]
          exact hmin r hr hPr
        · exact absurd (hreach hjlt hP.1 (by omega)) hno
      · next hnone =>
        -- every runnable process has a greater priority than pid
        have hgt (r : Nat) (hr : r < nprocs) (hPr : s.isRunnable r = true) :
            s.priority pid < s.priority r := by
          obtain ⟨j, hj, hjr⟩ := exists_offset (i := pid) hr
          have hne := cyclic_none hnone j hj
          rw [hjr, hPr] at hne
          have hle := hmin r hr hPr
          simp only [Bool.true_and, beq_eq_false_iff_ne] at hne
          omega
        split
        · next hnext =>
          refine ⟨_, Nat.mod_lt _ (by decide), rfl, hnext, ?_, fun _ => ⟨0, rfl, hnext, by simp⟩⟩
          rintro ⟨q, r, ⟨j, rfl, hno⟩, hr, hPr, hle⟩
          rcases j with _ | j
          · rw [Nat.add_zero, Nat.mod_eq_of_lt hpid] at hle
            have := hgt r hr hPr
            omega
          · have := hno 0 (by omega)
            rw [hnext] at this
            cases this
        · next hnext =>
          have hnext : s.isRunnable ((pid + 1) % nprocs) = false := by simpa using hnext
          rcases k with _ | k
          · rw [Nat.add_zero, hnext] at hrun
            cases hrun
          obtain ⟨p, hp, heq, hP, hsm, hnx⟩ := ih ((pid + 1) % nprocs) (Nat.mod_lt _ (by decide))
            ⟨k, by omega, by rw [mod_add_mod]; exact hrun⟩
          refine ⟨p, hp, heq, hP, ?_, fun hno => (hnx fun hr => hno ?_).step hnext⟩
          · rintro ⟨q, r, hq, hr, hPr, hle⟩
            rcases (passed_step hpid hnext).1 hq with rfl | hq
            · have := hgt r hr hPr
              omega
            · exact hsm ⟨q, r, hq, hr, hPr, hle⟩
          · obtain ⟨q, r, hq, hrest⟩ := hr
            exact ⟨q, r, (passed_step hpid hnext).2 (.inr hq), hrest⟩

/-! ## Every reachable state -/

theorem priorityLoop_lt {rounds : Nat} : ∀ {pid p : Nat}, priorityLoop s rounds pid = some p →
    p < nprocs := by
  induction rounds with
  | zero => intro pid p h; cases h
  | succ rounds ih =>
    intro pid p h
    rw [priorityLoop] at h
    rcases scanMin_spec s.isRunnable s.priority (s.priority pid) nprocs with ⟨hlt, -⟩ | ⟨he, -⟩
    · dsimp only at h
      split at h
      · obtain rfl := Option.some.inj h
        exact hlt
      · next hz =>
        split at h
        · next j hj =>
          obtain rfl := Option.some.inj h
          obtain ⟨i, rfl, -⟩ := next_of_cyclic hj
          exact Nat.mod_lt _ (by decide)
        · split at h
          · obtain rfl := Option.some.inj h
            exact Nat.mod_lt _ (by decide)
          · exact ih h
    · simp only [he, ne_eq, not_true_eq_false, if_false] at h
      split at h
      · next j hj =>
        obtain rfl := Option.some.inj h
        obtain ⟨i, rfl, -⟩ := next_of_cyclic hj
        exact Nat.mod_lt _ (by decide)
      · split at h
        · obtain rfl := Option.some.inj h
          exact Nat.mod_lt _ (by decide)
        · exact ih h

theorem schedule_two (h : s.schedulingAlgorithm = 2) :
    schedule s = priorityLoop s nprocs s.current := by
  unfold schedule
  rw [h]
  rfl

/-- Descriptor 0 is never used. -/
structure Inv (s : Kernel) : Prop where
  algorithm : s.schedulingAlgorithm = 2
  current : s.current < nprocs
  unused : s.isRunnable 0 = false

/-- A change to the current process that does not make it runnable. -/
theorem Inv.setCurrent (h : Inv s) {f : Process → Process}
    (hf : ∀ p, (f p).pState = .runnable → p.pState = .runnable) : Inv (s.setCurrent f) := by
  refine ⟨h.algorithm, h.current, ?_⟩
  have h0 := h.unused
  unfold Kernel.isRunnable Kernel.setCurrent at *
  simp only [decide_eq_false_iff_not] at h0 ⊢
  split
  · exact fun h => h0 (hf _ h)
  · exact h0

theorem Inv.step {t t' : State} (h : Inv t.1) {e : Event} (hs : step t e = some t') :
    Inv t'.1 := by
  rcases e with i | _
  · unfold Schedos.step at hs
    dsimp only at hs
    split at hs
    · cases hs
    · obtain rfl := Option.some.inj hs
      rcases i with _ | eax | eax | _ | _
      · exact h
      · exact h.setCurrent (f := fun p => { p with pState := .zombie, pExitStatus := eax })
          fun _ hp => by cases hp
      · exact h.setCurrent (f := fun p => { p with pPriority := eax }) fun _ hp => hp
      · exact h
      · exact h
  · unfold Schedos.step at hs
    dsimp only at hs
    split at hs
    · obtain ⟨p, hp, rfl⟩ := Option.map_eq_some_iff.1 hs
      rw [schedule_two h.algorithm] at hp
      exact ⟨h.algorithm, priorityLoop_lt hp, h.unused⟩
    · cases hs

theorem run_inv {h : List Event} {t : State} (hr : (system 2).Run h t) : Inv t.1 :=
  hr.inv (I := fun _ t => Inv t.1)
    (fun _ hi => by obtain rfl := hi; exact ⟨rfl, by decide, by decide⟩)
    fun _ _ _ _ hi _ hs => hi.step hs

/-- **What `schedule` runs.** With algorithm 2, in every reachable state with a runnable
process, `schedule` runs a runnable process. It has the smallest priority when the current
process is runnable, and whenever one of the processes from the current one up to the next
runnable one has no better priority than some runnable process; else it is the next
runnable process. -/
theorem schedule_runs {h : List Event} {t : State} (hr : (system 2).Run h t)
    (hex : ∃ r < nprocs, t.1.isRunnable r = true) :
    ∃ p < nprocs, schedule t.1 = some p ∧ t.1.isRunnable p = true ∧
      (t.1.isRunnable t.1.current = true → Smallest t.1 p) ∧
      (Reaches t.1 t.1.current → Smallest t.1 p) ∧
      (¬ Reaches t.1 t.1.current → Next nprocs t.1.isRunnable t.1.current p) := by
  have hinv := run_inv hr
  obtain ⟨r, hlt, hrun⟩ := hex
  obtain ⟨k, hk, hkr⟩ := exists_offset (i := t.1.current) hlt
  obtain ⟨p, hp, heq, hP, hsm, hnx⟩ := priorityLoop_spec hinv.unused nprocs t.1.current
    hinv.current ⟨k, hk, by rw [hkr]; exact hrun⟩
  refine ⟨p, hp, ?_, hP, fun hc => hsm ?_, hsm, hnx⟩
  · rw [schedule_two hinv.algorithm, heq]
  · exact ⟨_, _, .self hinv.current, hinv.current, hc, Int.le_refl _⟩

/-- Process 1 makes its priority 5 and yields to process 3, which exits; process 4 yields to
process 2. -/
def yieldExitYield : List Event :=
  [.interrupt (.sysUser1 5), .interrupt .sysYield, .schedule, .interrupt (.sysExit 0), .schedule,
    .interrupt .sysYield, .schedule, .interrupt .clock]

theorem schedule_runs_yields : ∃ t, (system 2).Run yieldExitYield.reverse t ∧
    t.1.current = 2 ∧ t.1.isRunnable 3 = false ∧ t.1.priority 1 = 5 ∧
    ∃ p < nprocs, schedule t.1 = some p ∧ t.1.isRunnable p = true ∧ Smallest t.1 p := by
  have he : System.execIf (fun _ _ => true) step (start 2, false) yieldExitYield = some _ := rfl
  have hr : (system 2).Run yieldExitYield.reverse _ :=
    System.runIf_of_execIf (fun _ _ _ _ h => ⟨trivial, h⟩) rfl he
  obtain ⟨p, hp, hsched, hrun, hsmall, -⟩ := schedule_runs hr ⟨2, by decide, by decide⟩
  exact ⟨_, hr, by decide, by decide, by decide, p, hp, hsched, hrun, hsmall (by decide)⟩

/-- Process 1 yields to process 3, which exits: process 4 is run, though process 2 is
runnable and has a smaller priority. -/
theorem exit_runs_neighbour : ∃ h t, (system 2).Run h t ∧ t.1.isRunnable 2 = true ∧
    ∃ p, schedule t.1 = some p ∧ t.1.priority 2 < t.1.priority p := by
  have he : System.execIf (fun _ _ => true) step (start 2, false)
      [.interrupt .sysYield, .schedule, .interrupt (.sysExit 0)] = some _ := rfl
  refine ⟨_, _, System.runIf_of_execIf (fun _ _ _ _ h => ⟨trivial, h⟩) rfl he, ?_, 4, ?_, ?_⟩ <;>
    decide

end OsLabs.Weensy.Schedos
