import OsLabs.Weensy.Schedos
import OsLabs.Lib.Mutex

/-!
# SchedOS: the applications

`schedos-1.c` to `schedos-4.c` under the kernel of `schedos-kern.c`. One event is one
instruction of the current process, a clock interrupt between two instructions, or a
`schedule`. `*cursorpos++ = PRINTCHAR` loads the pointer and then performs its two
stores in either order. The kernel never writes `lock`: its `lock = 0` stands behind
`run`, so the word holds what the memory held.
-/

namespace OsLabs.Weensy.Schedos

open Select

def runcount : Nat := 320

def consoleBegin : Nat := 0xB8000

/-- `PRINTCHAR` of schedos-1 to schedos-4. -/
def printchar : Nat → Nat
  | 1 => 0x31 ||| 0x0C00
  | 2 => 0x32 ||| 0x0A00
  | 3 => 0x33 ||| 0x0900
  | _ => 0x34 ||| 0x0E00

/-- The instruction that an application performs next. -/
inductive Pc where
  /-- `atomic_swap(&lock, 1)` and its test. -/
  | swap
  | load
  /-- `cursorpos` was read and nothing stored. -/
  | loaded (p : Nat)
  /-- The character is still to be stored. -/
  | bumped (p : Nat)
  /-- The cursor is still to be moved. -/
  | stored (p : Nat)
  | unlock
  | yield
  | exit
  deriving DecidableEq, Repr

structure App where
  pc : Pc := .swap
  i : Nat := 0
  deriving DecidableEq, Repr

/-- The variables that the applications share, and the 16-bit cells of the console. -/
structure Shared where
  lock : Nat
  cursorpos : Nat
  console : Nat → Nat

namespace Shared

def setLock (sh : Shared) (lock : Nat) : Shared := { sh with lock := lock }

def setCursorpos (sh : Shared) (p : Nat) : Shared := { sh with cursorpos := p }

def setCell (sh : Shared) (p c : Nat) : Shared :=
  { sh with console := fun a => if a = p then c else sh.console a }

end Shared

/-- The pc behind `sys_yield()` and `i++`. -/
def App.next (a : App) : App := ⟨if a.i + 1 < runcount then .swap else .exit, a.i + 1⟩

/-- One instruction of process `pid`; `bump`: the cursor is stored before the character. -/
def App.step (pid : Nat) (a : App) (sh : Shared) (bump : Bool) : App × Shared × Option Interrupt :=
  match a.pc with
  | .swap => ({ a with pc := if sh.lock ≠ 0 then .swap else .load }, sh.setLock 1, none)
  | .load => ({ a with pc := .loaded sh.cursorpos }, sh, none)
  | .loaded p =>
    if bump then ({ a with pc := .bumped p }, sh.setCursorpos (p + 2), none)
    else ({ a with pc := .stored p }, sh.setCell p (printchar pid), none)
  | .bumped p => ({ a with pc := .unlock }, sh.setCell p (printchar pid), none)
  | .stored p => ({ a with pc := .unlock }, sh.setCursorpos (p + 2), none)
  | .unlock => ({ a with pc := .yield }, sh.setLock 0, none)
  | .yield => (a.next, sh, some .sysYield)
  | .exit => (a, sh, some (.sysExit 0))

/-- The interrupt that the next instruction causes, if it does. -/
def App.call (a : App) : Option Interrupt :=
  match a.pc with
  | .yield => some .sysYield
  | .exit => some (.sysExit 0)
  | _ => none

/-- The kernel with the applications. -/
structure Machine where
  kernel : State
  app : Nat → App
  shared : Shared

inductive Tick where
  | instr (bump : Bool)
  | clock
  | schedule
  deriving DecidableEq, Repr

namespace Machine

def pid (m : Machine) : Nat := m.kernel.1.current

/-- The interrupt that an instruction causes, if it does. -/
def trap (s : State) : Option Interrupt → State
  | none => s
  | some i => interrupt s.1 i

/-- The current process has performed an instruction. -/
def perform (m : Machine) (bump : Bool) : Machine :=
  let (a, sh, i) := (m.app m.pid).step m.pid m.shared bump
  ⟨trap m.kernel i, Function.update m.app m.pid a, sh⟩

def step (m : Machine) : Tick → Option Machine
  | .instr bump => if m.kernel.2 then none else some (m.perform bump)
  | .clock => (Schedos.step m.kernel (.interrupt .clock)).map fun s => { m with kernel := s }
  | .schedule => (Schedos.step m.kernel .schedule).map fun s => { m with kernel := s }

end Machine

/-- The machine when `start` calls `run`. -/
def boot (schedulingAlgorithm : Int) (lock : Nat) (console : Nat → Nat) : Machine where
  kernel := (start schedulingAlgorithm, false)
  app := fun _ => {}
  shared := ⟨lock, consoleBegin, console⟩

def apps (schedulingAlgorithm : Int) (lock : Nat) (console : Nat → Nat) : System Machine Tick where
  Init m := m = boot schedulingAlgorithm lock console
  Step m e m' := m.step e = some m'

/-! ## What is on the console -/

/-- The console after processes printed; the log has the last one first. -/
def painted (console : Nat → Nat) : List Nat → Nat → Nat
  | [], a => console a
  | pid :: log, a =>
    if a = consoleBegin + 2 * log.length then printchar pid else painted console log a

/-- The process is between its two swaps. -/
def Pc.Holds : Pc → Prop
  | .load | .loaded _ | .bumped _ | .stored _ | .unlock => True
  | .swap | .yield | .exit => False

/-- The characters that the process has stored. -/
def App.printed (a : App) : Nat :=
  match a.pc with
  | .stored _ | .unlock | .yield => a.i + 1
  | _ => a.i

theorem painted_cell {console : Nat → Nat} {log : List Nat} {j pid : Nat}
    (h : log.reverse[j]? = some pid) : painted console log (consoleBegin + 2 * j) = printchar pid := by
  induction log with
  | nil => cases h
  | cons q log ih =>
    rw [List.reverse_cons] at h
    rw [painted]
    rcases Nat.lt_trichotomy j log.length with hj | rfl | hj
    · rw [if_neg (by omega)]
      exact ih (by rwa [List.getElem?_append_left (by simpa using hj)] at h)
    · rw [List.getElem?_append_right (by simp)] at h
      simp only [List.length_reverse, Nat.sub_self, List.getElem?_cons_zero, Option.some.injEq] at h
      rw [if_pos rfl, h]
    · rw [List.getElem?_eq_none (by simp; omega)] at h
      cases h

theorem painted_other {console : Nat → Nat} {log : List Nat} {a : Nat}
    (h : ∀ j < log.length, a ≠ consoleBegin + 2 * j) : painted console log a = console a := by
  induction log with
  | nil => rfl
  | cons q log ih =>
    rw [painted, if_neg (h log.length (by simp))]
    exact ih fun j hj => h j (by rw [List.length_cons]; omega)

theorem length_eq_count {log : List Nat} (h : ∀ p ∈ log, 1 ≤ p ∧ p < nprocs) :
    log.length = log.count 1 + log.count 2 + log.count 3 + log.count 4 := by
  induction log with
  | nil => rfl
  | cons p log ih =>
    obtain ⟨hp, hlog⟩ := List.forall_mem_cons.1 h
    have hlen := ih hlog
    obtain rfl | rfl | rfl | rfl : p = 1 ∨ p = 2 ∨ p = 3 ∨ p = 4 := by
      have : p < 5 := hp.2
      omega
    all_goals
      simp only [List.length_cons, List.count_cons]
      simp
      omega

/-! ## The kernel's part -/

variable {s : Kernel} {m m' : Machine} {log : List Nat}

theorem priorityLoop_runnable {rounds pid p : Nat} (h : priorityLoop s rounds pid = some p) :
    s.isRunnable p = true := by
  induction rounds generalizing pid with
  | zero => cases h
  | succ rounds ih =>
    rw [priorityLoop] at h
    dsimp only at h
    split at h
    · next hne =>
      obtain rfl := Option.some.inj h
      rcases scanMin_spec s.isRunnable s.priority (s.priority pid) nprocs with ⟨-, hP, -⟩ | ⟨he, -⟩
      · exact hP
      · exact absurd (congrArg Prod.snd he) hne
    · split at h
      · next j hj =>
        obtain rfl := Option.some.inj h
        obtain ⟨-, -, hP, -⟩ := next_of_cyclic hj
        simp only [Bool.and_eq_true] at hP
        exact hP.1
      · split at h
        · next hnext =>
          obtain rfl := Option.some.inj h
          exact hnext
        · exact ih h

/-- With every algorithm the process that `schedule` runs is runnable. -/
theorem schedule_runnable {p : Nat} (h : schedule s = some p) : s.isRunnable p = true := by
  unfold schedule at h
  split at h
  · obtain ⟨-, -, hP, -⟩ := next_of_cyclic h
    exact hP
  · split at h
    · obtain ⟨-, -, hP, -⟩ := next_of_cyclic h
      exact hP
    · split at h
      · exact priorityLoop_runnable h
      · cases h

theorem isRunnable_start (alg : Int) {p : Nat} :
    (start alg).isRunnable p = true ↔ 1 ≤ p ∧ p < nprocs := by
  unfold Kernel.isRunnable start
  by_cases hp : 1 ≤ p ∧ p < nprocs <;> simp [hp]

theorem isRunnable_exit {eax : Int} {p : Nat} :
    (interrupt s (.sysExit eax)).1.isRunnable p = true ↔ p ≠ s.current ∧ s.isRunnable p = true := by
  unfold Kernel.isRunnable interrupt Kernel.setCurrent
  by_cases hp : p = s.current <;> simp [hp]

/-! ## The invariant -/

/-- What a process knows of the shared variables when `n` characters are stored: a holder
of the lock knows the cursor. -/
def App.Ok (sh : Shared) (n : Nat) (a : App) : Prop :=
  match a.pc with
  | .swap | .yield => a.i < runcount
  | .load | .unlock => a.i < runcount ∧ sh.cursorpos = consoleBegin + 2 * n
  | .loaded p => a.i < runcount ∧ sh.cursorpos = consoleBegin + 2 * n ∧ p = consoleBegin + 2 * n
  | .bumped p =>
    a.i < runcount ∧ sh.cursorpos = consoleBegin + 2 * n + 2 ∧ p = consoleBegin + 2 * n
  | .stored p => a.i < runcount ∧ sh.cursorpos + 2 = consoleBegin + 2 * n ∧ p = sh.cursorpos
  | .exit => a.i = runcount

structure AppsInv (lock : Nat) (console : Nat → Nat) (m : Machine) (log : List Nat) : Prop where
  runnable : ∀ p, m.kernel.1.isRunnable p = true → 1 ≤ p ∧ p < nprocs
  current : m.kernel.2 = false → m.kernel.1.isRunnable m.pid = true
  exited : ∀ p, 1 ≤ p → p < nprocs → m.kernel.1.isRunnable p = false → (m.app p).pc = .exit
  ok : ∀ p, (m.app p).Ok m.shared log.length
  cursor : (∀ p, ¬ (m.app p).pc.Holds) → m.shared.cursorpos = consoleBegin + 2 * log.length
  held : Held m.shared.lock fun p => (m.app p).pc.Holds
  count : ∀ p, log.count p = (m.app p).printed
  pids : ∀ p ∈ log, 1 ≤ p ∧ p < nprocs
  painted : m.shared.console = painted console log
  /-- A lock word that was not 0 at the start keeps everyone out. -/
  never : lock ≠ 0 → m.shared.lock ≠ 0 ∧ ∀ p, m.app p = {}

variable {lock : Nat} {console : Nat → Nat} {a : App} {sh sh' : Shared} {n n' : Nat}

/-- A process that does not hold the lock knows nothing of the cursor. -/
theorem App.Ok.congr (h : a.Ok sh n) (hno : ¬ a.pc.Holds) : a.Ok sh' n' := by
  unfold App.Ok at *
  cases hpc : a.pc <;> simp only [hpc, Pc.Holds, not_true_eq_false] at hno h ⊢
  all_goals exact h

/-- The kernel goes on: the processes that it may run are still those that have not exited. -/
theorem AppsInv.setKernel (h : AppsInv lock console m log) {k : State}
    (hrun : ∀ p, k.1.isRunnable p = true → m.kernel.1.isRunnable p = true)
    (hcur : k.2 = false → k.1.isRunnable k.1.current = true)
    (hexit : ∀ p, m.kernel.1.isRunnable p = true → k.1.isRunnable p = false →
      (m.app p).pc = .exit) : AppsInv lock console { m with kernel := k } log := by
  refine ⟨fun p hp => h.runnable p (hrun p hp), hcur, fun p h1 h2 hp => ?_, h.ok, h.cursor, h.held,
    h.count, h.pids, h.painted, h.never⟩
  rcases hr : m.kernel.1.isRunnable p with _ | _
  · exact h.exited p h1 h2 hr
  · exact hexit p hr hp

theorem App.Ok.of_cursor (h : a.Ok sh n) (hc : sh'.cursorpos = sh.cursorpos) : a.Ok sh' n := by
  unfold App.Ok at *
  cases hpc : a.pc <;> simp only [hpc, hc] at h ⊢
  all_goals exact h

theorem holds_update {app : Nat → App} {pid : Nat} {a' : App} (j : Nat) :
    (Function.update app pid a' j).pc.Holds ↔
      (j = pid ∧ a'.pc.Holds) ∨ (j ≠ pid ∧ (app j).pc.Holds) := by
  rcases eq_or_ne j pid with rfl | hj
  · simp
  · simp [hj]

theorem AppsInv.never_pc (h : AppsInv lock console m log) {pc : Pc} (hpc : (m.app m.pid).pc = pc)
    (hne : pc ≠ .swap) {P : Prop} : lock ≠ 0 → P := fun hl => by
  rw [(h.never hl).2 m.pid] at hpc
  exact absurd hpc.symm hne

/-- One instruction of the current process. -/
theorem AppsInv.setApp (h : AppsInv lock console m log) (hcur : m.kernel.2 = false) {a' : App}
    {log' : List Nat} (hok : a'.Ok sh' log'.length)
    (hothers : sh'.cursorpos = m.shared.cursorpos ∧ log' = log ∨ (m.app m.pid).pc.Holds)
    (hfree : ¬ a'.pc.Holds → (∀ p, p ≠ m.pid → ¬ (m.app p).pc.Holds) →
      sh'.cursorpos = consoleBegin + 2 * log'.length)
    (hheld : Held sh'.lock fun p => (Function.update m.app m.pid a' p).pc.Holds)
    (hlog : log' = log ∧ a'.printed = (m.app m.pid).printed ∨
      log' = m.pid :: log ∧ a'.printed = (m.app m.pid).printed + 1)
    (hconsole : sh'.console = Schedos.painted console log')
    (hnever : lock ≠ 0 → sh'.lock ≠ 0 ∧ a' = {}) :
    AppsInv lock console ⟨m.kernel, Function.update m.app m.pid a', sh'⟩ log' := by
  have hrun := h.current hcur
  refine ⟨h.runnable, h.current, fun p h1 h2 hp => ?_, fun p => ?_, fun hno => ?_, hheld,
    fun p => ?_, fun p hp => ?_, hconsole, fun hl => ⟨(hnever hl).1, fun p => ?_⟩⟩
  · have hne : p ≠ m.pid := by
      rintro rfl
      rw [hrun] at hp
      cases hp
    exact (congrArg App.pc (Function.update_of_ne hne ..)).trans (h.exited p h1 h2 hp)
  · rcases eq_or_ne p m.pid with rfl | hne
    · simpa using hok
    · simp only [Function.update_of_ne hne]
      rcases hothers with ⟨hc, rfl⟩ | hholds
      · exact (h.ok p).of_cursor hc
      · exact (h.ok p).congr fun hp => hne (h.held.single p m.pid hp hholds)
  · refine hfree ?_ fun p hne hp => hno p ((holds_update p).2 (.inr ⟨hne, hp⟩))
    exact fun ha => hno m.pid ((holds_update m.pid).2 (.inl ⟨rfl, ha⟩))
  · have hcount := h.count p
    rcases eq_or_ne p m.pid with rfl | hne
    · rcases hlog with ⟨rfl, hp⟩ | ⟨rfl, hp⟩
      · simpa [hp] using hcount
      · simpa [hp] using hcount
    · rcases hlog with ⟨rfl, -⟩ | ⟨rfl, -⟩
      · simpa [Function.update_of_ne hne] using hcount
      · simpa [Function.update_of_ne hne, List.count_cons_of_ne hne.symm] using hcount
  · rcases hlog with ⟨rfl, -⟩ | ⟨rfl, -⟩
    · exact h.pids p hp
    · rcases List.mem_cons.1 hp with rfl | hp
      · exact h.runnable _ hrun
      · exact h.pids p hp
  · rcases eq_or_ne p m.pid with rfl | hne
    · simpa using (hnever hl).2
    · simpa [Function.update_of_ne hne] using (h.never hl).2 p

theorem holds_same {app : Nat → App} {pid : Nat} {a' : App} (h : a'.pc.Holds ↔ (app pid).pc.Holds)
    (j : Nat) : (Function.update app pid a' j).pc.Holds ↔ (app j).pc.Holds := by
  rw [holds_update]
  rcases eq_or_ne j pid with rfl | hj
  · simp [h]
  · simp [hj]

theorem painted_cons (h : sh.console = painted console log) {pid : Nat} :
    (sh.setCell (consoleBegin + 2 * log.length) (printchar pid)).console =
      painted console (pid :: log) := by
  funext x
  rw [painted, ← h]
  rfl

theorem next_ok (hi : a.i < runcount) : a.next.Ok sh n := by
  unfold App.next App.Ok
  by_cases h : a.i + 1 < runcount
  · simp [h]
  · simp only [h, if_false]
    omega

theorem next_printed : a.next.printed = a.i + 1 := by
  unfold App.next App.printed
  by_cases h : a.i + 1 < runcount <;> simp [h]

/-- The instruction keeps the invariant; a character stored is a new entry of the log. -/
theorem AppsInv.instr (h : AppsInv lock console m log) (hcur : m.kernel.2 = false) (bump : Bool) :
    let r := (m.app m.pid).step m.pid m.shared bump
    ∃ log', (log' = log ∨ log' = m.pid :: log) ∧
      AppsInv lock console ⟨m.kernel, Function.update m.app m.pid r.1, r.2.1⟩ log' := by
  dsimp only
  have hok := h.ok m.pid
  unfold App.Ok at hok
  unfold App.step
  cases hpc : (m.app m.pid).pc with
  | swap =>
    simp only [hpc] at hok
    have hfree (hno : ∀ p, p ≠ m.pid → ¬ (m.app p).pc.Holds) :
        m.shared.cursorpos = consoleBegin + 2 * log.length := by
      refine h.cursor fun p => ?_
      rcases eq_or_ne p m.pid with rfl | hne
      · rw [hpc]
        exact id
      · exact hno p hne
    refine ⟨log, .inl rfl, ?_⟩
    dsimp only
    by_cases hl : m.shared.lock = 0
    · have hheld := h.held
      rw [hl] at hheld
      refine h.setApp hcur ?_ (.inl ⟨rfl, rfl⟩) (fun _ => hfree) ?_ (.inl ⟨rfl, ?_⟩) h.painted
        fun hl' => absurd hl (h.never hl').1
      · rw [if_neg (by simpa using hl)]
        refine ⟨hok, hfree fun p _ => hheld.free rfl p⟩
      · refine hheld.acquire (i := m.pid) Nat.one_ne_zero fun j => ?_
        rw [holds_update, if_neg (by simpa using hl)]
        rcases eq_or_ne j m.pid with rfl | hj
        · simp [Pc.Holds]
        · simp [hj]
      · simp [App.printed, hpc, hl]
    · refine h.setApp hcur ?_ (.inl ⟨rfl, rfl⟩) (fun _ => hfree) ?_ (.inl ⟨rfl, ?_⟩) h.painted
        fun hl' => ⟨Nat.one_ne_zero, ?_⟩
      · rw [if_pos hl]
        exact hok
      · refine (h.held.spin Nat.one_ne_zero).congr (holds_same ?_)
        rw [if_pos hl, hpc]
      · simp [App.printed, hpc, hl]
      · rw [if_pos hl, (h.never hl').2 m.pid]
  | load =>
    simp only [hpc] at hok
    refine ⟨log, .inl rfl, h.setApp hcur ⟨hok.1, hok.2, hok.2⟩ (.inl ⟨rfl, rfl⟩) (fun hno => absurd trivial hno)
      (h.held.congr (holds_same ?_)) (.inl ⟨rfl, ?_⟩) h.painted (h.never_pc hpc (by simp))⟩
    · rw [hpc]
      exact Iff.rfl
    · simp [App.printed, hpc]
  | loaded p =>
    simp only [hpc] at hok
    obtain ⟨hi, hcursor, rfl⟩ := hok
    have hholds : (m.app m.pid).pc.Holds := by
      rw [hpc]
      trivial
    dsimp only
    split
    · refine ⟨log, .inl rfl, h.setApp hcur ⟨hi, rfl, rfl⟩ (.inr hholds) (fun hno => absurd trivial hno)
        (h.held.congr (holds_same ⟨fun _ => hholds, fun _ => trivial⟩)) (.inl ⟨rfl, ?_⟩) h.painted
        (h.never_pc hpc (by simp))⟩
      simp [App.printed, hpc]
    · refine ⟨m.pid :: log, .inr rfl, h.setApp hcur ⟨hi, ?_, hcursor.symm⟩ (.inr hholds)
        (fun hno => absurd trivial hno)
        (h.held.congr (holds_same ⟨fun _ => hholds, fun _ => trivial⟩)) (.inr ⟨rfl, ?_⟩) ?_
        (h.never_pc hpc (by simp))⟩
      · rw [List.length_cons]
        show m.shared.cursorpos + 2 = _
        omega
      · simp [App.printed, hpc]
      · exact painted_cons h.painted
  | bumped p =>
    simp only [hpc] at hok
    obtain ⟨hi, hcursor, rfl⟩ := hok
    have hholds : (m.app m.pid).pc.Holds := by
      rw [hpc]
      trivial
    have hcursor' : m.shared.cursorpos = consoleBegin + 2 * (m.pid :: log).length := by
      rw [List.length_cons]
      omega
    refine ⟨m.pid :: log, .inr rfl, h.setApp hcur ⟨hi, hcursor'⟩ (.inr hholds) (fun hno => absurd trivial hno)
      (h.held.congr (holds_same ⟨fun _ => hholds, fun _ => trivial⟩)) (.inr ⟨rfl, ?_⟩)
      (painted_cons h.painted) (h.never_pc hpc (by simp))⟩
    simp [App.printed, hpc]
  | stored p =>
    simp only [hpc] at hok
    obtain ⟨hi, hcursor, rfl⟩ := hok
    have hholds : (m.app m.pid).pc.Holds := by
      rw [hpc]
      trivial
    refine ⟨log, .inl rfl, h.setApp hcur ⟨hi, hcursor⟩ (.inr hholds) (fun hno => absurd trivial hno)
      (h.held.congr (holds_same ⟨fun _ => hholds, fun _ => trivial⟩)) (.inl ⟨rfl, ?_⟩) h.painted
      (h.never_pc hpc (by simp))⟩
    simp [App.printed, hpc]
  | unlock =>
    simp only [hpc] at hok
    have hholds : (m.app m.pid).pc.Holds := by
      rw [hpc]
      trivial
    refine ⟨log, .inl rfl, h.setApp hcur hok.1 (.inr hholds) (fun _ _ => hok.2) (h.held.release hholds ?_)
      (.inl ⟨rfl, ?_⟩) h.painted (h.never_pc hpc (by simp))⟩
    · intro j hj
      rcases (holds_update j).1 hj with ⟨-, hj⟩ | ⟨hne, hj⟩
      · exact absurd hj id
      · exact ⟨hj, hne⟩
    · simp [App.printed, hpc]
  | yield =>
    simp only [hpc] at hok
    have hnot : ¬ (m.app m.pid).pc.Holds := by
      rw [hpc]
      exact id
    have hnext : ¬ (m.app m.pid).next.pc.Holds := by
      unfold App.next
      split <;> exact id
    refine ⟨log, .inl rfl, h.setApp hcur (next_ok hok) (.inl ⟨rfl, rfl⟩) (fun _ hno => h.cursor fun p => ?_)
      (h.held.congr (holds_same (iff_of_false hnext hnot))) (.inl ⟨rfl, ?_⟩) h.painted
      (h.never_pc hpc (by simp))⟩
    · rcases eq_or_ne p m.pid with rfl | hne
      · exact hnot
      · exact hno p hne
    · rw [next_printed, App.printed, hpc]
  | exit =>
    refine ⟨log, .inl rfl, ?_⟩
    dsimp only
    rwa [Function.update_eq_self]

theorem step_call {pid : Nat} {bump : Bool} : (a.step pid sh bump).2.2 = a.call := by
  unfold App.step App.call
  cases a.pc <;> try rfl
  dsimp only
  split <;> rfl

theorem App.Ok.printed_le (h : a.Ok sh n) : a.printed ≤ runcount := by
  unfold App.Ok at h
  unfold App.printed
  cases hpc : a.pc <;> simp only [hpc] at h ⊢ <;> omega

theorem perform_kernel (m : Machine) (bump : Bool) :
    (m.perform bump).kernel = Machine.trap m.kernel (m.app m.pid).call :=
  congrArg (Machine.trap m.kernel) step_call

theorem perform_self (m : Machine) (bump : Bool) :
    (m.perform bump).app m.pid = ((m.app m.pid).step m.pid m.shared bump).1 :=
  Function.update_self ..

theorem perform_of_ne (m : Machine) (bump : Bool) {p : Nat} (h : p ≠ m.pid) :
    (m.perform bump).app p = m.app p :=
  Function.update_of_ne h ..

/-- What one event does. -/
theorem machineStep_cases {e : Tick} (hs : m.step e = some m') :
    (∃ bump, e = .instr bump ∧ m.kernel.2 = false ∧ m' = m.perform bump) ∨
    (e = .clock ∧ m.kernel.2 = false ∧ m' = { m with kernel := (m.kernel.1, true) }) ∨
    (e = .schedule ∧ m.kernel.2 = true ∧ ∃ p, schedule m.kernel.1 = some p ∧
      m' = { m with kernel := ({ m.kernel.1 with current := p }, false) }) := by
  unfold Machine.step at hs
  rcases e with bump | _ | _
  · dsimp only at hs
    split at hs
    · cases hs
    · next hflag =>
      obtain rfl := Option.some.inj hs
      exact .inl ⟨bump, rfl, by simpa using hflag, rfl⟩
  · dsimp only [Schedos.step] at hs
    split at hs
    · cases hs
    · next hflag =>
      obtain rfl := Option.some.inj hs
      exact .inr (.inl ⟨rfl, by simpa using hflag, rfl⟩)
  · dsimp only [Schedos.step] at hs
    split at hs
    · next hflag =>
      obtain ⟨t, ht, rfl⟩ := Option.map_eq_some_iff.1 hs
      obtain ⟨p, hp, rfl⟩ := Option.map_eq_some_iff.1 ht
      exact .inr (.inr ⟨rfl, hflag, p, hp, rfl⟩)
    · cases hs

theorem call_cases : a.call = none ∧ a.pc ≠ .yield ∧ a.pc ≠ .exit ∨
    a.call = some .sysYield ∧ a.pc = .yield ∨ a.call = some (.sysExit 0) ∧ a.pc = .exit := by
  unfold App.call
  cases a.pc <;> simp

theorem AppsInv.step (h : AppsInv lock console m log) {e : Tick} (hs : m.step e = some m') :
    ∃ log', (log' = log ∨ log' = m.pid :: log) ∧ AppsInv lock console m' log' := by
  rcases machineStep_cases hs with ⟨bump, rfl, hcur, rfl⟩ | ⟨rfl, hcur, rfl⟩ |
    ⟨rfl, -, p, hp, rfl⟩
  · obtain ⟨log', hlog, h'⟩ := h.instr hcur bump
    refine ⟨log', hlog, ?_⟩
    have hk := perform_kernel m bump
    unfold Machine.perform at hk ⊢
    dsimp only at hk ⊢
    rw [hk]
    rcases @call_cases (m.app m.pid) with ⟨hc, -⟩ | ⟨hc, -⟩ | ⟨hc, hpc⟩
    · rwa [hc]
    · rw [hc]
      refine h'.setKernel (fun _ => id) (fun hf => by cases hf) fun p hp hp' => ?_
      exact absurd (hp.symm.trans hp') (by simp)
    · rw [hc]
      refine h'.setKernel (fun p hp => (isRunnable_exit.1 hp).2) (fun hf => by cases hf)
        fun p hp hp' => ?_
      -- only the process that exits is no longer runnable
      have hpid : p = m.pid := by
        by_contra hne
        rw [Machine.trap, isRunnable_exit.2 ⟨hne, hp⟩] at hp'
        cases hp'
      subst hpid
      simp [App.step, hpc]
  · exact ⟨log, .inl rfl, h.setKernel (fun _ => id) (fun hf => by cases hf)
      fun p hp hp' => absurd (hp.symm.trans hp') (by simp)⟩
  · have hrun : m.kernel.1.isRunnable p = true := schedule_runnable hp
    exact ⟨log, .inl rfl, h.setKernel (fun _ => id) (fun _ => hrun)
      fun q hq hq' => absurd (hq.symm.trans hq') (by simp)⟩

theorem appsInv_boot (alg : Int) (lock : Nat) (console : Nat → Nat) :
    AppsInv lock console (boot alg lock console) [] where
  runnable _ hp := (isRunnable_start alg).1 hp
  current _ := (isRunnable_start alg).2 ⟨Nat.le_refl 1, (by decide : 1 < nprocs)⟩
  exited p h1 h2 hp := absurd (((isRunnable_start alg).2 ⟨h1, h2⟩).symm.trans hp) (by simp)
  ok _ := (by decide : 0 < runcount)
  cursor _ := rfl
  held := ⟨fun _ _ => id, fun _ _ h => absurd h id⟩
  count _ := rfl
  pids := by simp
  painted := rfl
  never hl := ⟨hl, fun _ => rfl⟩

theorem run_appsInv {alg : Int} {h : List Tick} (hr : (apps alg lock console).Run h m) :
    ∃ log, AppsInv lock console m log :=
  hr.inv (I := fun _ m => ∃ log, AppsInv lock console m log)
    (fun _ hi => by obtain rfl := hi; exact ⟨[], appsInv_boot alg lock console⟩)
    fun _ _ _ _ ⟨_, hi⟩ _ hs => (hi.step hs).imp fun _ h => h.2

/-- **No character is lost.** With every scheduling algorithm and wherever the clock
interrupts, at most one application is between its swaps, and the characters stored stand one
after another from the start of the console, each application's as often as it
went through its loop; the rest of memory is unchanged. When all have exited there are 320
of each. If the memory of `lock` was not 0 at the start, nothing is ever printed. -/
theorem apps_print {alg : Int} {h : List Tick} (hr : (apps alg lock console).Run h m) :
    (∀ p q, (m.app p).pc.Holds → (m.app q).pc.Holds → p = q) ∧
    ∃ log : List Nat, (∀ j p, log[j]? = some p →
        m.shared.console (consoleBegin + 2 * j) = printchar p) ∧
      (∀ x, (∀ j < log.length, x ≠ consoleBegin + 2 * j) → m.shared.console x = console x) ∧
      (∀ p, log.count p = (m.app p).printed) ∧ log.length ≤ 4 * runcount ∧
      ((∀ p, m.kernel.1.isRunnable p = false) → ∀ p, 1 ≤ p → p < nprocs → log.count p = runcount) ∧
      (lock ≠ 0 → log = []) := by
  obtain ⟨log, hinv⟩ := run_appsInv hr
  have hle (p : Nat) : log.count p ≤ runcount := by
    rw [hinv.count]
    exact (hinv.ok p).printed_le
  refine ⟨hinv.held.single, log.reverse, fun j p hj => ?_, fun x hx => ?_, fun p => ?_, ?_,
    fun hno p h1 h2 => ?_, fun hl => ?_⟩
  · rw [hinv.painted]
    exact painted_cell hj
  · rw [hinv.painted]
    exact painted_other (by simpa using hx)
  · rw [List.count_reverse]
    exact hinv.count p
  · have h1 := hle 1
    have h2 := hle 2
    have h3 := hle 3
    have h4 := hle 4
    rw [List.length_reverse, length_eq_count hinv.pids]
    omega
  · rw [List.count_reverse, hinv.count]
    have hpc := hinv.exited p h1 h2 (hno p)
    have hok := hinv.ok p
    simp only [App.Ok, hpc] at hok
    rw [App.printed, hpc]
    exact hok
  · refine List.reverse_eq_nil_iff.2 (List.eq_nil_iff_forall_not_mem.2 fun p hp => ?_)
    have hcount := hinv.count p
    rw [(hinv.never hl).2 p] at hcount
    exact absurd hp (List.count_eq_zero.1 hcount)

/-- Process 1 goes through its loop once, up to its call of `sys_yield`. -/
theorem apps_print_one : ∃ m, (apps 0 0 fun _ => 0).Run (List.replicate 6 (.instr true)) m ∧
    m.shared.console consoleBegin = printchar 1 ∧
    ∀ p q, (m.app p).pc.Holds → (m.app q).pc.Holds → p = q := by
  have he : System.execIf (fun _ _ => true) Machine.step (boot 0 0 fun _ => 0)
      (List.replicate 6 (.instr true)) = some _ := rfl
  have hr : (apps 0 0 fun _ => 0).Run (List.replicate 6 (.instr true)).reverse _ :=
    System.runIf_of_execIf (fun _ _ _ _ h => ⟨trivial, h⟩) rfl he
  exact ⟨_, hr, rfl, (apps_print hr).1⟩

end OsLabs.Weensy.Schedos
