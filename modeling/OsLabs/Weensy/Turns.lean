import OsLabs.Weensy.Apps

/-!
# SchedOS: the applications take turns

What the scheduling algorithms make of the applications' loops. Algorithm 0 brings
every run to its end when the clock leaves each turn between one and `k` instructions
(`turns_end`). Algorithm 1 prints the characters in the order of the processes
(`apps_in_order`). With algorithm 2 a clock interrupt in a critical section can leave a
process of smaller priority waiting for one that is never run again (`inversion`).
-/

namespace OsLabs.Weensy.Schedos

open Select

/-! ## Algorithm 1 -/

variable {m m' : Machine} {log : List Nat} {lock : Nat} {console : Nat → Nat}

/-- Nobody before the current process is runnable, and nobody behind it has printed. -/
structure InOrder (m : Machine) (log : List Nat) : Prop where
  algorithm : m.kernel.1.schedulingAlgorithm = 1
  first : ∀ p, m.kernel.1.isRunnable p = true → m.pid ≤ p
  printed : ∀ p ∈ log, p ≤ m.pid
  sorted : log.Pairwise fun p q => q ≤ p

/-- A system call of the current process makes no process runnable. -/
theorem perform_kernel_cases (m : Machine) (bump : Bool) :
    (m.perform bump).pid = m.pid ∧
      (m.perform bump).kernel.1.schedulingAlgorithm = m.kernel.1.schedulingAlgorithm ∧
      ∀ p, (m.perform bump).kernel.1.isRunnable p = true → m.kernel.1.isRunnable p = true := by
  unfold Machine.pid
  rw [perform_kernel]
  rcases @call_cases (m.app m.pid) with ⟨hc, -⟩ | ⟨hc, -⟩ | ⟨hc, -⟩
  · rw [hc]
    exact ⟨rfl, rfl, fun _ => id⟩
  · rw [hc]
    exact ⟨rfl, rfl, fun _ => id⟩
  · rw [hc]
    exact ⟨rfl, rfl, fun p hp => (isRunnable_exit.1 hp).2⟩

/-- The first runnable process from the start is the one with the least number. -/
theorem next_le {P : Nat → Bool} {p q : Nat} (h : Next nprocs P 0 p) (h0 : 1 ≤ p) (hq : P q = true)
    (hq1 : 1 ≤ q) (hq2 : q < nprocs) : p ≤ q := by
  obtain ⟨j, hj, hp, -, hno⟩ := h.offset (by decide)
  by_contra hlt
  have hn : nprocs = 5 := rfl
  rw [hn] at hp hj hq2
  have hfalse := hno (q - 1) (by omega)
  rw [hn, show (0 + (q - 1) + 1) % 5 = q by omega, hq] at hfalse
  cases hfalse

theorem schedule_one {s : Kernel} (h : s.schedulingAlgorithm = 1) :
    schedule s = cyclic nprocs s.isRunnable nprocs 0 := by
  unfold schedule
  rw [h]
  rfl

theorem InOrder.step (h : InOrder m log) (hinv : AppsInv lock console m log) {e : Tick}
    (hs : m.step e = some m') {log' : List Nat} (hlog : log' = log ∨ log' = m.pid :: log) :
    InOrder m' log' := by
  have hcons : (∀ p ∈ log', p ≤ m.pid) ∧ log'.Pairwise fun p q => q ≤ p := by
    rcases hlog with rfl | rfl
    · exact ⟨h.printed, h.sorted⟩
    · exact ⟨List.forall_mem_cons.2 ⟨Nat.le_refl _, h.printed⟩,
        List.pairwise_cons.2 ⟨h.printed, h.sorted⟩⟩
  rcases machineStep_cases hs with ⟨bump, -, -, rfl⟩ | ⟨-, -, rfl⟩ | ⟨-, -, p, hp, rfl⟩
  · obtain ⟨hpid, halg, hrun⟩ := perform_kernel_cases m bump
    refine ⟨halg.trans h.algorithm, fun p hp => ?_, fun p hp => ?_, hcons.2⟩
    · rw [hpid]
      exact h.first p (hrun p hp)
    · rw [hpid]
      exact hcons.1 p hp
  · exact ⟨h.algorithm, h.first, hcons.1, hcons.2⟩
  · have hrun := schedule_runnable hp
    rw [schedule_one h.algorithm] at hp
    refine ⟨h.algorithm, fun q hq => ?_, fun q hq => ?_, hcons.2⟩
    · obtain ⟨h1, h2⟩ := hinv.runnable q hq
      exact next_le (next_of_cyclic hp) (hinv.runnable p hrun).1 hq h1 h2
    · exact Nat.le_trans (hcons.1 q hq) (h.first p hrun)

/-- **Algorithm 1 prints in the order of the processes.** Wherever the clock interrupts,
no character of a process stands behind one of a process with a greater number. -/
theorem apps_in_order {h : List Tick} (hr : (apps 1 lock console).Run h m) :
    ∃ log : List Nat, (∀ j p, log[j]? = some p →
        m.shared.console (consoleBegin + 2 * j) = printchar p) ∧
      (∀ p, log.count p = (m.app p).printed) ∧ log.Pairwise fun p q => p ≤ q := by
  obtain ⟨log, hinv, hord⟩ := hr.inv
    (I := fun _ m => ∃ log, AppsInv lock console m log ∧ InOrder m log)
    (by
      rintro _ rfl
      exact ⟨[], appsInv_boot 1 lock console, rfl,
        fun p hp => ((isRunnable_start 1).1 hp).1, by simp, .nil⟩)
    (by
      rintro _ _ _ _ ⟨log, hinv, hord⟩ _ hs
      obtain ⟨log', hlog, hinv'⟩ := hinv.step hs
      exact ⟨log', hinv', hord.step hinv hs hlog⟩)
  refine ⟨log.reverse, fun j p hj => ?_, fun p => ?_, List.pairwise_reverse.2 hord.sorted⟩
  · rw [hinv.painted]
    exact painted_cell hj
  · rw [List.count_reverse]
    exact hinv.count p

theorem apps_in_order_one : ∃ m, (apps 1 0 fun _ => 0).Run (List.replicate 6 (.instr true)) m ∧
    ∃ log : List Nat, log.count 1 = 1 ∧ log.Pairwise fun p q => p ≤ q := by
  have he : System.execIf (fun _ _ => true) Machine.step (boot 1 0 fun _ => 0)
      (List.replicate 6 (.instr true)) = some _ := rfl
  have hr : (apps 1 0 fun _ => 0).Run (List.replicate 6 (.instr true)).reverse _ :=
    System.runIf_of_execIf (fun _ _ _ _ h => ⟨trivial, h⟩) rfl he
  obtain ⟨log, -, hcount, hsorted⟩ := apps_in_order hr
  exact ⟨_, hr, log, hcount 1, hsorted⟩

/-! ## Algorithm 2 -/

/-- Process 1 has the lock, and process 3 has been scheduled. -/
structure Inverted (m : Machine) : Prop where
  procs : m.kernel.1 = { start 2 with current := 3 }
  lock : m.shared.lock = 1
  spinning : m.app 3 = {}

theorem Inverted.step (h : Inverted m) {e : Tick} (hs : m.step e = some m') :
    Inverted m' ∧ m'.shared.console = m.shared.console ∧ m'.app = m.app := by
  have hpid : m.pid = 3 := congrArg Kernel.current h.procs
  rcases machineStep_cases hs with ⟨bump, -, -, rfl⟩ | ⟨-, -, rfl⟩ | ⟨-, -, p, hp, rfl⟩
  · have happ : (m.app m.pid).step m.pid m.shared bump = ({}, m.shared.setLock 1, none) := by
      rw [hpid, h.spinning]
      unfold App.step
      dsimp only
      rw [h.lock]
      rfl
    unfold Machine.perform
    rw [happ]
    have hsame : Function.update m.app m.pid {} = m.app := by
      rw [hpid, ← h.spinning, Function.update_eq_self]
    exact ⟨⟨h.procs, rfl, (congrFun hsame 3).trans h.spinning⟩, rfl, hsame⟩
  · exact ⟨⟨h.procs, h.lock, h.spinning⟩, rfl, rfl⟩
  · have hthree : schedule m.kernel.1 = some 3 := by
      rw [h.procs]
      decide
    obtain rfl := Option.some.inj (hp.symm.trans hthree)
    refine ⟨⟨?_, h.lock, h.spinning⟩, rfl, rfl⟩
    show ({ m.kernel.1 with current := 3 } : Kernel) = _
    rw [h.procs]

/-- **Algorithm 2 can starve the holder of the lock.** The clock interrupts process 1
between its swaps: then process 3, which has a smaller priority number, spins for ever, all
processes stay runnable and nothing is printed any more. -/
theorem inversion (console : Nat → Nat) : ∃ h m, (apps 2 0 console).Run h m ∧
    ∀ h' m', System.Run { Init := (· = m), Step := (apps 2 0 console).Step } h' m' →
      (∀ p, 1 ≤ p → p < nprocs → m'.kernel.1.isRunnable p = true) ∧
      (m'.app 1).pc = .load ∧ m'.shared.console = console := by
  have he : System.execIf (fun _ _ => true) Machine.step (boot 2 0 console)
      [.instr true, .clock, .schedule] = some _ := rfl
  refine ⟨_, _, System.runIf_of_execIf (fun _ _ _ _ h => ⟨trivial, h⟩) rfl he, fun h' m' hr => ?_⟩
  obtain ⟨hinv, happ, hcon⟩ := hr.inv
    (I := fun _ m' => Inverted m' ∧ (m'.app 1).pc = .load ∧ m'.shared.console = console)
    (by
      rintro _ rfl
      exact ⟨⟨rfl, rfl, rfl⟩, rfl, rfl⟩)
    (by
      rintro _ _ _ _ ⟨hinv, happ, hcon⟩ _ hs
      obtain ⟨hinv', hc, ha⟩ := hinv.step hs
      exact ⟨hinv', by rw [ha, happ], by rw [hc, hcon]⟩)
  refine ⟨fun p h1 h2 => ?_, happ, hcon⟩
  rw [hinv.procs]
  exact (isRunnable_start 2).2 ⟨h1, h2⟩

/-! ## Algorithm 0 -/

/-- The machine with the number of instructions since the last `schedule`. -/
def turns (lock : Nat) (console : Nat → Nat) : System (Machine × Nat) Tick where
  Init s := s = (boot 0 lock console, 0)
  Step s e s' := s.1.step e = some s'.1 ∧ s'.2 =
    match e with
    | .instr _ => s.2 + 1
    | .clock => s.2
    | .schedule => 0

/-- The clock leaves each turn between one and `k` instructions. -/
def Quantum (k : Nat) (s : Machine × Nat) : Tick → Prop
  | .instr _ => s.2 < k
  | .clock => 1 ≤ s.2
  | .schedule => True

/-- The instructions that a process still has to perform, a failed `atomic_swap` not
counted. -/
def App.rest (a : App) : Nat :=
  match a.pc with
  | .swap => 6 * (runcount - a.i) + 1
  | .load => 6 * (runcount - a.i)
  | .loaded _ => 6 * (runcount - a.i) - 1
  | .bumped _ | .stored _ => 6 * (runcount - a.i) - 2
  | .unlock => 6 * (runcount - a.i) - 3
  | .yield => 6 * (runcount - a.i) - 4
  | .exit => 1

def Machine.work (m : Machine) (p : Nat) : Nat :=
  if m.kernel.1.isRunnable p then (m.app p).rest else 0

def Machine.totalWork (m : Machine) : Nat := m.work 1 + m.work 2 + m.work 3 + m.work 4

instance : DecidablePred Pc.Holds := fun pc =>
  match pc with
  | .load | .loaded _ | .bumped _ | .stored _ | .unlock => isTrue trivial
  | .swap | .yield | .exit => isFalse id

def Machine.holder (m : Machine) : Option Nat :=
  (List.range nprocs).find? fun p => (m.app p).pc.Holds

/-- How far process `q` is behind process `p`; a process is behind itself by a round. -/
def behind (p q : Nat) : Nat := if q = p then nprocs else (q + nprocs - p) % nprocs

/-- The events before the next instruction of use: the holder's turn has to come, or
without a holder any turn. -/
def waiting (k : Nat) (s : Machine × Nat) : Nat :=
  match s.1.holder with
  | none => if s.1.kernel.2 then 1 else if s.2 = 0 then 0 else 2
  | some q =>
    if s.1.kernel.2 then behind s.1.pid q * (k + 3) + 1
    else if s.1.pid = q then if s.2 = 0 then 0 else nprocs * (k + 3) + 2
    else behind s.1.pid q * (k + 3) + (k + 2 - s.2)

def toGo (k : Nat) (s : Machine × Nat) : Nat :=
  s.1.totalWork * (nprocs * (k + 3) + k + 3) + waiting k s

structure TurnInv (k : Nat) (console : Nat → Nat) (s : Machine × Nat) : Prop where
  inv : ∃ log, AppsInv 0 console s.1 log
  algorithm : s.1.kernel.1.schedulingAlgorithm = 0
  pid : s.1.pid < nprocs
  outside : ∀ p, ¬ (1 ≤ p ∧ p < nprocs) → s.1.app p = {}
  taken : s.1.shared.lock ≠ 0 → ∃ p, (s.1.app p).pc.Holds
  count : s.2 ≤ k

variable {k : Nat} {s s' : Machine × Nat}

theorem App.Ok.rest_pos {a : App} {sh : Shared} {n : Nat} (h : a.Ok sh n) : 1 ≤ a.rest := by
  unfold App.Ok at h
  unfold App.rest
  cases hpc : a.pc <;> simp only [hpc] at h ⊢ <;> omega

/-- An instruction other than a failed swap takes one off. -/
theorem rest_step {a : App} {sh : Shared} {n : Nat} (pid : Nat) (bump : Bool) (h : a.Ok sh n)
    (hpc : a.pc ≠ .exit) (hswap : a.pc = .swap → sh.lock = 0) :
    (a.step pid sh bump).1.rest + 1 ≤ a.rest := by
  unfold App.Ok at h
  unfold App.step
  cases hc : a.pc <;> simp only [hc] at h hswap hpc ⊢
  case swap => simp [App.rest, hc, hswap]
  case load => simp [App.rest, hc]; omega
  case loaded p =>
    split
    · simp [App.rest, hc]; omega
    · simp [App.rest, hc]; omega
  case bumped p => simp [App.rest, hc]; omega
  case stored p => simp [App.rest, hc]; omega
  case unlock => simp [App.rest, hc]; omega
  case yield =>
    unfold App.next App.rest
    rw [hc]
    by_cases hi : a.i + 1 < runcount
    · simp [hi]; omega
    · simp [hi]; omega
  case exit => exact absurd rfl hpc

theorem totalWork_lt (h1 : 1 ≤ m.pid) (h2 : m.pid < nprocs)
    (hpid : m'.work m.pid < m.work m.pid) (hle : ∀ p, p ≠ m.pid → m'.work p ≤ m.work p) :
    m'.totalWork < m.totalWork := by
  have hn : nprocs = 5 := rfl
  have hw := hle 1
  have hw2 := hle 2
  have hw3 := hle 3
  have hw4 := hle 4
  unfold Machine.totalWork
  obtain he | he | he | he : m.pid = 1 ∨ m.pid = 2 ∨ m.pid = 3 ∨ m.pid = 4 := by omega
  all_goals
    rw [he] at hpid hw hw2 hw3 hw4
    omega

/-- An instruction of use leaves less work. -/
theorem work_perform (hinv : AppsInv 0 console m log) (hcur : m.kernel.2 = false) {bump : Bool}
    (huse : (m.app m.pid).pc = .swap → m.shared.lock = 0) :
    (m.perform bump).totalWork < m.totalWork := by
  have hrun := hinv.current hcur
  obtain ⟨h1, h2⟩ := hinv.runnable _ hrun
  have hpos := (hinv.ok m.pid).rest_pos
  refine totalWork_lt h1 h2 ?_ fun p hne => ?_
  · unfold Machine.work
    rw [if_pos hrun, perform_self, perform_kernel]
    by_cases hpc : (m.app m.pid).pc = .exit
    · have hcall : (m.app m.pid).call = some (.sysExit 0) := by
        unfold App.call
        rw [hpc]
      have hgone : ¬ (Machine.trap m.kernel (some (.sysExit 0))).1.isRunnable m.pid = true :=
        fun hp => (isRunnable_exit.1 hp).1 rfl
      rw [hcall, if_neg hgone]
      exact hpos
    · have hstep := rest_step m.pid bump (hinv.ok m.pid) hpc huse
      split <;> omega
  · unfold Machine.work
    rw [perform_of_ne m bump hne]
    split
    · next hp => rw [if_pos ((perform_kernel_cases m bump).2.2 p hp)]
    · exact Nat.zero_le _

/-! ### Whose turn it is -/

theorem holder_none (h : m.holder = none) {p : Nat} (hp : p < nprocs) : ¬ (m.app p).pc.Holds := by
  have := List.find?_eq_none.1 h p (List.mem_range.2 hp)
  simpa using this

theorem holder_holds {q : Nat} (h : m.holder = some q) : (m.app q).pc.Holds ∧ q < nprocs := by
  have hp := List.find?_some h
  exact ⟨by simpa using hp, List.mem_range.1 (List.mem_of_find?_eq_some h)⟩

theorem holder_congr (h : m'.app = m.app) : m'.holder = m.holder := by
  unfold Machine.holder
  rw [h]

theorem behind_le {p q : Nat} : behind p q ≤ nprocs := by
  unfold behind
  split
  · exact Nat.le_refl _
  · exact Nat.le_of_lt (Nat.mod_lt _ (by decide))

theorem waiting_lt : waiting k s < nprocs * (k + 3) + k + 3 := by
  unfold waiting
  split
  · split
    · omega
    · split <;> omega
  · next q hq =>
    have hle : behind s.1.pid q * (k + 3) ≤ nprocs * (k + 3) := Nat.mul_le_mul_right _ behind_le
    split
    · omega
    · split
      · split <;> omega
      · omega

theorem schedule_zero {s : Kernel} (h : s.schedulingAlgorithm = 0) :
    schedule s = cyclic nprocs s.isRunnable nprocs s.current := by
  unfold schedule
  rw [h]
  rfl

/-- The next runnable process is the holder, or nearer to it. -/
theorem behind_next {P : Nat → Bool} {c p q : Nat} (h : Next nprocs P c p) (hq : P q = true)
    (hc : c < nprocs) (hqn : q < nprocs) : p = q ∨ behind p q + 1 ≤ behind c q := by
  obtain ⟨j, hj, hp, -, hno⟩ := h.offset (by decide)
  have hn : nprocs = 5 := rfl
  rw [hn] at hp hj hc hqn hno
  obtain ⟨hpos, hback⟩ : 1 ≤ behind c q ∧ (c + behind c q) % 5 = q := by
    unfold behind
    rw [hn]
    split <;> omega
  have hnear : j + 1 ≤ behind c q := by
    by_contra hlt
    have hfalse := hno (behind c q - 1) (by omega)
    rw [show c + (behind c q - 1) + 1 = c + behind c q by omega, hback, hq] at hfalse
    cases hfalse
  rcases eq_or_ne p q with he | hne
  · exact .inl he
  · refine .inr ?_
    generalize behind c q = d at *
    unfold behind
    rw [hn, if_neg hne.symm]
    omega

/-! ### Every event brings the end nearer -/

/-- Where the lock is taken behind an instruction, the process has it or did not give it up. -/
theorem step_taken {a : App} {sh : Shared} {pid : Nat} {bump : Bool}
    (h : (a.step pid sh bump).2.1.lock ≠ 0) :
    (a.step pid sh bump).1.pc.Holds ∨ sh.lock ≠ 0 ∧ ¬ a.pc.Holds := by
  unfold App.step at h ⊢
  cases hpc : a.pc <;> simp only [hpc] at h ⊢
  case swap =>
    by_cases hl : sh.lock = 0
    · exact .inl (by simp [hl, Pc.Holds])
    · exact .inr ⟨hl, id⟩
  case load => exact .inl trivial
  case loaded p => exact .inl (by split <;> trivial)
  case bumped p => exact .inl trivial
  case stored p => exact .inl trivial
  case unlock => exact absurd rfl h
  case yield => exact .inr ⟨h, id⟩
  case exit => exact .inr ⟨h, id⟩

/-- A failed swap changes nothing. -/
theorem perform_failed (hpc : (m.app m.pid).pc = .swap) (hl : m.shared.lock ≠ 0) (bump : Bool) :
    (m.perform bump).kernel = m.kernel ∧ (m.perform bump).app = m.app := by
  have hcall : (m.app m.pid).call = none := by
    unfold App.call
    rw [hpc]
  refine ⟨by rw [perform_kernel, hcall]; rfl, ?_⟩
  have hsame : ((m.app m.pid).step m.pid m.shared bump).1 = m.app m.pid := by
    unfold App.step
    rw [hpc]
    dsimp only
    rw [if_pos hl, ← hpc]
  funext p
  rcases eq_or_ne p m.pid with rfl | hne
  · rw [perform_self, hsame]
  · exact perform_of_ne m bump hne

theorem TurnInv.current_lt (h : TurnInv k console s) (hcur : s.1.kernel.2 = false) :
    1 ≤ s.1.pid ∧ s.1.pid < nprocs := by
  obtain ⟨log, hinv⟩ := h.inv
  exact hinv.runnable _ (hinv.current hcur)

theorem TurnInv.holder_runnable (h : TurnInv k console s) {q : Nat} (hq : (s.1.app q).pc.Holds) :
    q < nprocs ∧ s.1.kernel.1.isRunnable q = true := by
  obtain ⟨log, hinv⟩ := h.inv
  have hin : 1 ≤ q ∧ q < nprocs := by
    by_contra hout
    rw [h.outside q hout] at hq
    exact hq
  refine ⟨hin.2, ?_⟩
  rcases hr : s.1.kernel.1.isRunnable q with _ | _
  · rw [hinv.exited q hin.1 hin.2 hr] at hq
    exact absurd hq id
  · rfl

theorem TurnInv.step (h : TurnInv k console s) {e : Tick} (hg : Quantum k s e)
    (hs : (turns 0 console).Step s e s') : TurnInv k console s' := by
  obtain ⟨hstep, hcount⟩ := hs
  obtain ⟨log, hinv⟩ := h.inv
  obtain ⟨log', -, hinv'⟩ := hinv.step hstep
  rcases s with ⟨m, t⟩
  rcases s' with ⟨m', t'⟩
  dsimp only at hstep hcount hinv hinv'
  rcases machineStep_cases hstep with ⟨bump, rfl, hcur, rfl⟩ | ⟨rfl, hcur, rfl⟩ |
    ⟨rfl, -, p, hp, rfl⟩
  · have hin := h.current_lt hcur
    obtain ⟨hpid, halg, -⟩ := perform_kernel_cases m bump
    refine ⟨⟨log', hinv'⟩, halg.trans h.algorithm, hpid ▸ h.pid, fun p hp => ?_,
      fun hl => ?_, ?_⟩
    · have hne : p ≠ m.pid := by
        rintro rfl
        exact hp hin
      exact (perform_of_ne m bump hne).trans (h.outside p hp)
    · rcases step_taken hl with hholds | ⟨hl, hno⟩
      · exact ⟨m.pid, by rw [perform_self]; exact hholds⟩
      · obtain ⟨p, hp⟩ := h.taken hl
        refine ⟨p, ?_⟩
        rw [perform_of_ne m bump (by rintro rfl; exact hno hp)]
        exact hp
    · rw [hcount]
      exact hg
  · exact ⟨⟨log', hinv'⟩, h.algorithm, h.pid, h.outside, h.taken,
      Nat.le_trans (Nat.le_of_eq hcount) h.count⟩
  · exact ⟨⟨log', hinv'⟩, h.algorithm, (hinv.runnable p (schedule_runnable hp)).2, h.outside,
      h.taken, Nat.le_trans (Nat.le_of_eq hcount) (Nat.zero_le k)⟩

theorem waiting_none {t : Nat} (h : m.holder = none) :
    waiting k (m, t) = if m.kernel.2 then 1 else if t = 0 then 0 else 2 := by
  unfold waiting
  rw [h]

theorem waiting_some {t q : Nat} (h : m.holder = some q) :
    waiting k (m, t) = if m.kernel.2 then behind m.pid q * (k + 3) + 1
      else if m.pid = q then if t = 0 then 0 else nprocs * (k + 3) + 2
      else behind m.pid q * (k + 3) + (k + 2 - t) := by
  unfold waiting
  rw [h]

theorem toGo_of_work (h : s'.1.totalWork < s.1.totalWork) : toGo k s' < toGo k s := by
  have hw := @waiting_lt k s'
  have hmul := Nat.mul_le_mul_right (nprocs * (k + 3) + k + 3) (Nat.succ_le_of_lt h)
  unfold toGo
  rw [Nat.succ_mul] at hmul
  omega

theorem toGo_of_waiting (h : s'.1.totalWork = s.1.totalWork) (hw : waiting k s' < waiting k s) :
    toGo k s' < toGo k s := by
  unfold toGo
  rw [h]
  omega

/-- A process that finds the lock taken uses up its turn. -/
theorem TurnInv.waiting_failed {t : Nat} (h : TurnInv k console (m, t))
    (hpc : (m.app m.pid).pc = .swap) (hl : m.shared.lock ≠ 0) (hcur : m.kernel.2 = false)
    (ht : t < k) (bump : Bool) : toGo k (m.perform bump, t + 1) < toGo k (m, t) := by
  obtain ⟨hk, ha⟩ := perform_failed hpc hl bump
  obtain ⟨q, hq⟩ := h.taken hl
  have hne : m.pid ≠ q := by
    rintro rfl
    rw [hpc] at hq
    exact hq
  have hpid : (m.perform bump).pid = m.pid := congrArg (fun s : State => s.1.current) hk
  obtain ⟨q', hh⟩ : ∃ q', m.holder = some q' := by
    rcases hh : m.holder with _ | q'
    · exact absurd hq (holder_none hh (h.holder_runnable hq).1)
    · exact ⟨q', rfl⟩
  obtain ⟨log, hinv⟩ := h.inv
  obtain rfl := hinv.held.single q' q (holder_holds hh).1 hq
  refine toGo_of_waiting ?_ ?_
  · unfold Machine.totalWork Machine.work
    rw [hk, ha]
  · rw [waiting_some hh, waiting_some ((holder_congr ha).trans hh), hk, hcur, hpid]
    simp only [Bool.false_eq_true, if_false, if_neg hne]
    omega

/-- The clock ends a turn. -/
theorem waiting_clock {t : Nat} (hcur : m.kernel.2 = false) (ht : 1 ≤ t) (htk : t ≤ k) :
    toGo k ({ m with kernel := (m.kernel.1, true) }, t) < toGo k (m, t) := by
  refine toGo_of_waiting rfl ?_
  have hsame : Machine.holder { m with kernel := (m.kernel.1, true) } = m.holder := holder_congr rfl
  rcases hh : m.holder with _ | q
  · rw [waiting_none hh, waiting_none (hsame.trans hh), hcur]
    simp only [if_true, Bool.false_eq_true, if_false]
    rw [if_neg (by omega)]
    omega
  · rw [waiting_some hh, waiting_some (hsame.trans hh), hcur]
    simp only [if_true, Bool.false_eq_true, if_false]
    show behind m.pid q * (k + 3) + 1 < _
    have hle : behind m.pid q * (k + 3) ≤ nprocs * (k + 3) := Nat.mul_le_mul_right _ behind_le
    split
    · rw [if_neg (by omega)]
      omega
    · omega

/-- A new turn is the holder's, or one nearer to it. -/
theorem TurnInv.waiting_schedule {t p : Nat} (h : TurnInv k console (m, t))
    (hflag : m.kernel.2 = true) (hp : schedule m.kernel.1 = some p) :
    toGo k ({ m with kernel := ({ m.kernel.1 with current := p }, false) }, 0) < toGo k (m, t) := by
  refine toGo_of_waiting rfl ?_
  have hsame : Machine.holder { m with kernel := ({ m.kernel.1 with current := p }, false) } =
      m.holder := holder_congr rfl
  rcases hh : m.holder with _ | q
  · rw [waiting_none hh, waiting_none (hsame.trans hh), hflag]
    simp
  · obtain ⟨hqn, hrun⟩ := h.holder_runnable (holder_holds hh).1
    rw [schedule_zero h.algorithm] at hp
    rw [waiting_some hh, waiting_some (hsame.trans hh), hflag]
    simp only [if_true, Bool.false_eq_true, if_false]
    show (if p = q then 0 else behind p q * (k + 3) + (k + 2 - 0)) < _
    rcases behind_next (next_of_cyclic hp) hrun h.pid hqn with rfl | hnear
    · rw [if_pos rfl]
      omega
    · split
      · omega
      · have hnear : behind p q + 1 ≤ behind m.pid q := hnear
        have hmul := Nat.mul_le_mul_right (k + 3) hnear
        rw [Nat.succ_mul] at hmul
        omega

theorem TurnInv.toGo_lt (h : TurnInv k console s) {e : Tick} (hg : Quantum k s e)
    (hs : (turns 0 console).Step s e s') : toGo k s' < toGo k s := by
  obtain ⟨hstep, hcount⟩ := hs
  obtain ⟨log, hinv⟩ := h.inv
  rcases s with ⟨m, t⟩
  rcases s' with ⟨m', t'⟩
  dsimp only at hstep hcount hinv
  rcases machineStep_cases hstep with ⟨bump, rfl, hcur, rfl⟩ | ⟨rfl, hcur, rfl⟩ |
    ⟨rfl, hflag, p, hp, rfl⟩
  · by_cases huse : (m.app m.pid).pc = .swap → m.shared.lock = 0
    · exact toGo_of_work (work_perform hinv hcur huse)
    · push Not at huse
      rw [hcount]
      exact h.waiting_failed huse.1 huse.2 hcur hg bump
  · rw [hcount]
    exact waiting_clock hcur hg h.count
  · rw [hcount]
    exact h.waiting_schedule hflag hp

theorem turnInv_boot (k : Nat) (console : Nat → Nat) : TurnInv k console (boot 0 0 console, 0) :=
  ⟨⟨[], appsInv_boot 0 0 console⟩, rfl, (by decide : 1 < nprocs), fun _ _ => rfl,
    fun hl => absurd rfl hl, Nat.zero_le k⟩

/-- Only when every process has exited no event is possible. -/
theorem TurnInv.exited (h : TurnInv k console s) (hk : 1 ≤ k)
    (hno : ∀ e s', Quantum k s e → ¬ (turns 0 console).Step s e s') (p : Nat) :
    s.1.kernel.1.isRunnable p = false := by
  obtain ⟨log, hinv⟩ := h.inv
  rcases hflag : s.1.kernel.2 with _ | _
  · exfalso
    rcases Nat.lt_or_ge s.2 k with hlt | hge
    · refine hno (.instr true) (s.1.perform true, s.2 + 1) hlt ⟨?_, rfl⟩
      unfold Machine.step
      dsimp only
      rw [hflag]
      rfl
    · refine hno .clock ({ s.1 with kernel := (s.1.kernel.1, true) }, s.2) (by
        show 1 ≤ s.2
        omega) ⟨?_, rfl⟩
      unfold Machine.step Schedos.step
      dsimp only
      rw [hflag]
      rfl
  · rcases hrun : s.1.kernel.1.isRunnable p with _ | _
    · rfl
    · obtain ⟨q, hq⟩ := cyclic_exists (i := s.1.kernel.1.current) (hinv.runnable p hrun).2 hrun
      rw [← schedule_zero h.algorithm] at hq
      refine absurd ⟨?_, rfl⟩ (hno .schedule
        ({ s.1 with kernel := ({ s.1.kernel.1 with current := q }, false) }, 0) trivial)
      unfold Machine.step Schedos.step
      dsimp only
      rw [hflag, hq]
      rfl

/-- **Algorithm 0 lets every application finish.** When the clock leaves each turn between
one and `k` instructions, no run goes on for ever; where a run cannot go on, every process has
exited, and the console has 320 characters of each. -/
theorem turns_end (k : Nat) (hk : 1 ≤ k) (console : Nat → Nat) :
    (∃ n, ∀ h s, (turns 0 console).RunIf (Quantum k) h s → h.length ≤ n) ∧
    ∀ h s, (turns 0 console).RunIf (Quantum k) h s →
      (∀ e s', Quantum k s e → ¬ (turns 0 console).Step s e s') →
      (∀ p, s.1.kernel.1.isRunnable p = false) ∧
      ∃ log : List Nat, log.length = 4 * runcount ∧
        (∀ p, 1 ≤ p → p < nprocs → log.count p = runcount) ∧
        ∀ j p, log[j]? = some p → s.1.shared.console (consoleBegin + 2 * j) = printchar p := by
  have hinv {h : List Tick} {s : Machine × Nat} (hr : (turns 0 console).RunIf (Quantum k) h s) :=
    hr.strengthen (I := TurnInv k console) (fun _ hi => by cases hi; exact turnInv_boot k console)
      fun _ _ _ hi hg hs => hi.step hg hs
  refine ⟨⟨toGo k (boot 0 0 console, 0), fun h s hr => ?_⟩, fun h s hr hno => ?_⟩
  · obtain ⟨s0, rfl, hle⟩ := (hinv hr).2.length_add_le (m := toGo k)
      fun s e s' hg hs => hg.1.toGo_lt hg.2 hs
    omega
  · have hs := (hinv hr).1
    have hexit := hs.exited hk hno
    obtain ⟨log, happ⟩ := hs.inv
    have hcount (p : Nat) (h1 : 1 ≤ p) (h2 : p < nprocs) : log.count p = runcount := by
      have hok := happ.ok p
      have hpc := happ.exited p h1 h2 (hexit p)
      simp only [App.Ok, hpc] at hok
      rw [happ.count, App.printed, hpc]
      exact hok
    refine ⟨hexit, log.reverse, ?_, fun p h1 h2 => ?_, fun j p hj => ?_⟩
    · have hn : nprocs = 5 := rfl
      rw [List.length_reverse, length_eq_count happ.pids, hcount 1 (by omega) (by omega),
        hcount 2 (by omega) (by omega), hcount 3 (by omega) (by omega),
        hcount 4 (by omega) (by omega)]
      omega
    · rw [List.count_reverse]
      exact hcount p h1 h2
    · rw [happ.painted]
      exact painted_cell hj

/-- With at most three instructions a turn some run comes to its end. -/
theorem turns_end_three : ∃ h s, (turns 0 fun _ => 0).RunIf (Quantum 3) h s ∧
    (∀ p, s.1.kernel.1.isRunnable p = false) ∧
    ∃ log : List Nat, log.length = 1280 ∧ (∀ p, 1 ≤ p → p < nprocs → log.count p = 320) ∧
      ∀ j p, log[j]? = some p → s.1.shared.console (consoleBegin + 2 * j) = printchar p := by
  obtain ⟨⟨n, hn⟩, hend⟩ := turns_end 3 (by decide) fun _ => 0
  obtain ⟨h, s, hr, hno⟩ := System.RunIf.exists_last hn rfl
  exact ⟨h, s, hr, hend h s hr hno⟩

end OsLabs.Weensy.Schedos
