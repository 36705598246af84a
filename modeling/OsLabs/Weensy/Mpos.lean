import OsLabs.Lib.Select
import OsLabs.Lib.Runs

/-!
# MiniprocOS: processes waiting for one another

The kernel of `mpos-kern.c`. `interrupt` handles the system calls, `schedule` picks the
process to run next; neither `run` nor `schedule` returns, so no case of `interrupt` falls
through. Of a process's registers only `%eax` is kept: it passes the argument of a call and
its result. A process blocked in `sys_wait` still has the process ID it waits for there.
-/

namespace OsLabs.Weensy.Mpos

open Select

def nprocs : Nat := 16

inductive ProcState where
  | empty
  | runnable
  | blocked
  | zombie
  deriving DecidableEq, Repr

structure Process where
  eax : Int := 0
  pState : ProcState := .empty
  pExitStatus : Int := 0
  queue : Option Nat := none
  deriving DecidableEq, Repr

/-- `beyond` is the word that a read of `proc_array[NPROCS].p_state` finds, past the end of
the array. -/
structure Kernel where
  procArray : Nat → Process
  current : Nat
  beyond : ProcState

namespace Kernel

def set (s : Kernel) (pid : Nat) (f : Process → Process) : Kernel :=
  { s with procArray := fun i => if i = pid then f (s.procArray i) else s.procArray i }

def pState (s : Kernel) (pid : Nat) : ProcState :=
  if pid = nprocs then s.beyond else (s.procArray pid).pState

variable (s : Kernel) (pid : Nat) (f g : Process → Process)

@[simp] theorem set_current : (s.set pid f).current = s.current := rfl

@[simp] theorem set_beyond : (s.set pid f).beyond = s.beyond := rfl

@[simp] theorem set_self : (s.set pid f).procArray pid = f (s.procArray pid) := if_pos rfl

@[simp] theorem set_ne {i : Nat} (h : i ≠ pid) :
    (s.set pid f).procArray i = s.procArray i := if_neg h

@[simp] theorem set_set : (s.set pid f).set pid g = s.set pid fun p => g (f p) := by
  unfold set
  congr 1
  funext i
  dsimp only
  split <;> rfl

theorem set_comm {i j : Nat} (h : i ≠ j) : (s.set i f).set j g = (s.set j g).set i f := by
  unfold set
  congr 1
  funext k
  dsimp only
  split <;> split <;> simp_all

/-- The calls end by answering the caller. -/
def answer (eax : Int) : Kernel := s.set s.current fun p => { p with eax := eax }

@[simp] theorem answer_current (v : Int) : (s.answer v).current = s.current := rfl

@[simp] theorem answer_self (v : Int) :
    (s.answer v).procArray s.current = { s.procArray s.current with eax := v } := set_self _ _ _

@[simp] theorem answer_ne (v : Int) {i : Nat} (h : i ≠ s.current) :
    (s.answer v).procArray i = s.procArray i := set_ne _ _ _ h

@[simp] theorem answer_pState (v : Int) (i : Nat) :
    ((s.answer v).procArray i).pState = (s.procArray i).pState := by
  by_cases h : i = s.current
  · rw [h, answer_self]
  · rw [answer_ne _ _ h]

@[simp] theorem answer_queue (v : Int) (i : Nat) :
    ((s.answer v).procArray i).queue = (s.procArray i).queue := by
  by_cases h : i = s.current
  · rw [h, answer_self]
  · rw [answer_ne _ _ h]

end Kernel

/-! ## The system calls -/

/-- The search of `do_fork` for a process descriptor, from `childpid` on. -/
def findChild (s : Kernel) (parent : Nat) : (fuel childpid : Nat) → Option Nat
  | 0, _ => none
  | fuel + 1, childpid =>
    if (s.pState childpid ≠ .empty ∧ childpid ≠ parent) ∨ childpid = 0 then
      findChild s parent fuel ((childpid + 1) % nprocs)
    else some childpid

/-- `do_fork`, with the value it returns. `none`: it writes past the end of `proc_array`, which
only a fork by the last process can do. -/
def doFork (s : Kernel) (parent : Nat) : Option (Kernel × Int) :=
  match findChild s parent (nprocs + 1) (parent + 1) with
  | none => none
  | some childpid =>
    if childpid = parent then some (s, -1)
    else if childpid = nprocs then none
    else
      some (s.set childpid fun p =>
        { p with eax := 0, pState := .runnable }, childpid)

inductive Call where
  | getpid
  | fork
  | yield
  | exit
  | wait
  deriving DecidableEq, Repr

/-- `interrupt` up to its call of `schedule` (`true`) or of `run(current)`, for a call made
with the value `eax` in `%eax`. -/
def interrupt (s : Kernel) (call : Call) (eax : Int) : Option (Kernel × Bool) :=
  let s := s.set s.current fun p => { p with eax := eax }
  match call with
  | .getpid => some (s.set s.current fun p => { p with eax := s.current }, false)
  | .fork =>
    (doFork s s.current).map fun (s', childpid) =>
      (s'.set s.current fun p => { p with eax := childpid }, false)
  | .yield => some (s, true)
  | .exit =>
    let s := s.set s.current fun p => { p with pState := .zombie, pExitStatus := p.eax }
    let s := match (s.procArray s.current).queue with
      | some w => s.set w fun p =>
          { p with pState := .runnable, eax := (s.procArray s.current).pExitStatus }
      | none => s
    some (s.set s.current fun p => { p with pState := .empty }, true)
  | .wait =>
    let p := (s.procArray s.current).eax
    if p ≤ 0 ∨ nprocs ≤ p ∨ p = s.current ∨ (s.procArray p.toNat).pState = .empty then
      some (s.set s.current fun p => { p with eax := -1 }, true)
    else if (s.procArray p.toNat).pState = .zombie then
      some (s.set s.current fun p' =>
        { p' with eax := (s.procArray p.toNat).pExitStatus }, true)
    else
      let s := s.set s.current fun p => { p with pState := .blocked }
      some (s.set p.toNat fun p => { p with queue := some s.current }, true)

/-- `schedule`: the process it runs, `none` when it spins. -/
def schedule (s : Kernel) : Option Nat :=
  cyclic nprocs (fun pid => (s.procArray pid).pState = .runnable) nprocs s.current

/-- `start`, up to running the first process. -/
def start (beyond : ProcState) : Kernel where
  procArray := fun pid => if pid = 1 then { pState := .runnable } else {}
  current := 1
  beyond := beyond

inductive Event where
  | interrupt (call : Call) (eax : Int)
  | schedule
  deriving DecidableEq, Repr

/-- The kernel with the flag that it is about to call `schedule`. -/
abbrev State := Kernel × Bool

def step (s : State) : Event → Option State
  | .interrupt call eax => if s.2 then none else interrupt s.1 call eax
  | .schedule =>
    if s.2 then (Mpos.schedule s.1).map fun pid => ({ s.1 with current := pid }, false) else none

/-- Any program: every call may come with every value. -/
def system : System State Event where
  Init s := ∃ beyond, s = (start beyond, false)
  Step s e s' := step s e = some s'

/-! ## What one step does -/

variable {s s' : Kernel}

/-- Holds in every reachable state. -/
structure Inv (s : State) : Prop where
  current_pos : 1 ≤ s.1.current
  current_lt : s.1.current < nprocs
  running : s.2 = false → (s.1.procArray s.1.current).pState = .runnable
  unused : (s.1.procArray 0).pState = .empty
  noZombie : ∀ q, (s.1.procArray q).pState ≠ .zombie
  queue : ∀ q w, (s.1.procArray q).queue = some w → 1 ≤ w ∧ w < nprocs ∧ w ≠ q

theorem findChild_spec {parent fuel c c' : Nat} (h : findChild s parent fuel c = some c')
    (hc : c ≤ nprocs) :
    1 ≤ c' ∧ c' ≤ nprocs ∧ (s.pState c' = .empty ∨ c' = parent) := by
  induction fuel generalizing c with
  | zero => cases h
  | succ fuel ih =>
    rw [findChild] at h
    split at h
    · exact ih h (Nat.le_of_lt (Nat.mod_lt _ (by decide)))
    · next hstop =>
      obtain rfl := Option.some.inj h
      push Not at hstop
      refine ⟨Nat.pos_of_ne_zero hstop.2, hc, ?_⟩
      by_cases he : s.pState c = .empty
      · exact .inl he
      · exact .inr (hstop.1 he)

theorem doFork_cases {parent : Nat} {childpid : Int}
    (h : doFork s parent = some (s', childpid)) (hp : parent < nprocs) :
    s' = s ∧ childpid = -1 ∨
    ∃ c : Nat, 1 ≤ c ∧ c < nprocs ∧ c ≠ parent ∧ (s.procArray c).pState = .empty ∧
      s' = s.set c (fun p => { p with eax := 0, pState := .runnable }) ∧ childpid = c := by
  unfold doFork at h
  split at h
  · cases h
  · next c hc =>
    obtain ⟨h1, hle, hemp⟩ := findChild_spec hc hp
    split at h
    · cases h
      exact .inl ⟨rfl, rfl⟩
    · next hne =>
      split at h
      · cases h
      · next hlt =>
        cases h
        have hemp := hemp.resolve_right hne
        rw [Kernel.pState, if_neg hlt] at hemp
        exact .inr ⟨c, h1, Nat.lt_of_le_of_ne hle hlt, hne, hemp, rfl, rfl⟩

/-- What a system call does to the kernel when the current process runs, and whether
`schedule` comes next. -/
inductive Effect (s : Kernel) : Call → Int → Kernel → Bool → Prop where
  | getpid (eax : Int) : Effect s .getpid eax (s.answer s.current) false
  | noChild (eax : Int) : Effect s .fork eax (s.answer (-1)) false
  | fork (eax : Int) {c : Nat} : 1 ≤ c → c < nprocs → c ≠ s.current →
      (s.procArray c).pState = .empty →
      Effect s .fork eax
        ((s.set c fun p => { p with eax := 0, pState := .runnable }).answer c) false
  | yield (eax : Int) : Effect s .yield eax (s.answer eax) true
  | exit (eax : Int) : (s.procArray s.current).queue = none →
      Effect s .exit eax (s.set s.current fun p =>
        { p with eax := eax, pState := .empty, pExitStatus := eax }) true
  | exitWake (eax : Int) {w : Nat} : (s.procArray s.current).queue = some w → w ≠ s.current →
      Effect s .exit eax ((s.set s.current fun p =>
        { p with eax := eax, pState := .empty, pExitStatus := eax }).set w fun p =>
          { p with eax := eax, pState := .runnable }) true
  | noWait {p : Int} :
      p ≤ 0 ∨ nprocs ≤ p ∨ p = s.current ∨ (s.procArray p.toNat).pState = .empty →
      Effect s .wait p (s.answer (-1)) true
  | wait {q : Nat} : 1 ≤ q → q < nprocs → q ≠ s.current → (s.procArray q).pState ≠ .empty →
      Effect s .wait q ((s.set s.current fun p =>
        { p with eax := q, pState := .blocked }).set q fun p =>
          { p with queue := some s.current }) true

theorem interrupt_effect {call : Call} {eax : Int} {b : Bool}
    (h : interrupt s call eax = some (s', b)) (hinv : Inv (s, false)) : Effect s call eax s' b := by
  obtain ⟨h1, hlt, hrun, h0, hz, hq⟩ := hinv
  dsimp only at h1 hlt hrun h0 hz hq
  have hset (f : Process → Process) (q : Nat) (hq : q ≠ s.current) :
      (s.set s.current f).procArray q = s.procArray q := Kernel.set_ne _ _ _ hq
  rcases call with _ | _ | _ | _ | _ <;> unfold interrupt at h <;> dsimp only at h
  case getpid =>
    simp only [Kernel.set_current, Kernel.set_set] at h
    cases h
    exact .getpid eax
  case fork =>
    obtain ⟨⟨t, childpid⟩, hf, he⟩ := Option.map_eq_some_iff.1 h
    cases he
    rcases doFork_cases hf hlt with ⟨rfl, rfl⟩ | ⟨c, hc1, hcn, hne, hemp, rfl, rfl⟩
    · rw [Kernel.set_current, Kernel.set_set]
      exact .noChild eax
    · rw [Kernel.set_current] at hne
      rw [hset _ _ hne] at hemp
      dsimp only [Kernel.set_current]
      rw [Kernel.set_comm _ _ _ hne.symm, Kernel.set_set]
      exact .fork eax hc1 hcn hne hemp
  case yield =>
    cases h
    exact .yield eax
  case exit =>
    simp only [Kernel.set_set, Kernel.set_current, Kernel.set_self] at h
    cases hqc : (s.procArray s.current).queue with
    | none =>
      simp only [hqc, Kernel.set_set, Kernel.set_current] at h
      cases h
      exact .exit eax hqc
    | some w =>
      have hw := (hq _ _ hqc).2.2
      simp only [hqc, Kernel.set_current] at h
      rw [Kernel.set_comm _ _ _ hw, Kernel.set_set] at h
      cases h
      exact .exitWake eax hqc hw
  case wait =>
    simp only [Kernel.set_self, Kernel.set_current] at h
    have hst : ∀ i, ((s.set s.current fun p => { p with eax := eax }).procArray i).pState =
        (s.procArray i).pState := by
      intro i
      unfold Kernel.set
      dsimp only
      split <;> rfl
    simp only [hst, Kernel.set_set] at h
    split at h
    · next hbad =>
      cases h
      exact .noWait hbad
    · next hgood =>
      rw [if_neg (hz _)] at h
      cases h
      simp only [not_or] at hgood
      obtain ⟨hpos, hltn, hcur, hlive⟩ := hgood
      obtain ⟨q, rfl⟩ := Int.eq_ofNat_of_zero_le (show 0 ≤ eax by omega)
      exact .wait (by omega) (by omega) (by omega) hlive

theorem step_cases {s s' : State} {e : Event} (hs : step s e = some s') (hinv : Inv s) :
    (∃ call eax, e = .interrupt call eax ∧ s.2 = false ∧ Effect s.1 call eax s'.1 s'.2) ∨
    ∃ pid < nprocs, e = .schedule ∧ (s.1.procArray pid).pState = .runnable ∧
      s' = ({ s.1 with current := pid }, false) := by
  obtain ⟨s, b⟩ := s
  rcases e with ⟨call, eax⟩ | _
  · rcases b with _ | _
    · exact .inl ⟨call, eax, rfl, rfl, interrupt_effect hs hinv⟩
    · cases hs
  · rcases b with _ | _
    · cases hs
    · obtain ⟨pid, hp, rfl⟩ := Option.map_eq_some_iff.1 hs
      obtain ⟨j, hj, hrun, -⟩ := next_of_cyclic hp
      exact .inr ⟨pid, hj ▸ Nat.mod_lt _ (by decide), rfl, by simpa using hrun, rfl⟩

theorem inv_start (beyond : ProcState) : Inv (start beyond, false) := by
  have hst (q : Nat) : (start beyond).procArray q = if q = 1 then { pState := .runnable } else {} :=
    rfl
  refine ⟨Nat.le_refl _, show 1 < nprocs by decide, fun _ => rfl, rfl, fun q => ?_,
    fun q w h => ?_⟩
  · dsimp only
    rw [hst]
    split <;> decide
  · dsimp only at h
    rw [hst] at h
    split at h <;> cases h

/-- A change to one descriptor in use. -/
theorem Inv.set {b b' : Bool} (h : Inv (s, b)) {pid : Nat} {f : Process → Process}
    (hpid : 1 ≤ pid) (hz : (f (s.procArray pid)).pState ≠ .zombie)
    (hq : ∀ w, (f (s.procArray pid)).queue = some w → 1 ≤ w ∧ w < nprocs ∧ w ≠ pid)
    (hrun : b' = false → ((s.set pid f).procArray s.current).pState = .runnable) :
    Inv (s.set pid f, b') := by
  refine ⟨h.current_pos, h.current_lt, hrun, ?_, fun q => ?_, fun q w hw => ?_⟩
  · dsimp only
    rw [Kernel.set_ne _ _ _ (by omega)]
    exact h.unused
  · by_cases hqp : q = pid
    · subst hqp
      dsimp only
      rw [Kernel.set_self]
      exact hz
    · dsimp only
      rw [Kernel.set_ne _ _ _ hqp]
      exact h.noZombie q
  · dsimp only at hw
    by_cases hqp : q = pid
    · subst hqp
      rw [Kernel.set_self] at hw
      exact hq w hw
    · rw [Kernel.set_ne _ _ _ hqp] at hw
      exact h.queue q w hw

theorem Inv.answer {b : Bool} (h : Inv (s, false)) (v : Int) : Inv (s.answer v, b) := by
  refine h.set h.current_pos (h.noZombie _) (h.queue _) fun _ => ?_
  rw [Kernel.set_self]
  exact h.running rfl

theorem Effect.inv {call : Call} {eax : Int} {b : Bool} (he : Effect s call eax s' b)
    (hinv : Inv (s, false)) : Inv (s', b) := by
  cases he with
  | getpid => exact hinv.answer _
  | noChild => exact hinv.answer _
  | fork _ h1 hlt hne hemp =>
    apply Inv.answer
    refine hinv.set h1 (by simp) (hinv.queue _) fun _ => ?_
    rw [Kernel.set_ne _ _ _ hne.symm]
    exact hinv.running rfl
  | yield => exact hinv.answer _
  | exit _ hq => exact hinv.set hinv.current_pos (by simp) (hinv.queue _) (by simp)
  | exitWake _ hq hne =>
    have hcur : Inv (s.set s.current fun p =>
        { p with eax := eax, pState := .empty, pExitStatus := eax }, true) :=
      hinv.set hinv.current_pos (by simp) (hinv.queue _) (by simp)
    exact hcur.set (hinv.queue _ _ hq).1 (by simp) (hcur.queue _) (by simp)
  | noWait => exact hinv.answer _
  | @wait q h1 hlt hne hlive =>
    have hcur : Inv (s.set s.current fun p => { p with eax := q, pState := .blocked }, true) :=
      hinv.set hinv.current_pos (by simp) (hinv.queue _) (by simp)
    refine hcur.set h1 (hcur.noZombie _) (fun w hw => ?_) (by simp)
    obtain rfl := Option.some.inj hw
    exact ⟨hinv.current_pos, hinv.current_lt, hne.symm⟩

theorem Inv.step {s s' : State} {e : Event} (hinv : Inv s) (hs : step s e = some s') :
    Inv s' := by
  rcases step_cases hs hinv with ⟨call, eax, rfl, hb, he⟩ | ⟨pid, hlt, rfl, hrun, rfl⟩
  · obtain ⟨s, b⟩ := s
    obtain rfl : b = false := hb
    exact he.inv hinv
  · refine ⟨?_, hlt, fun _ => hrun, hinv.unused, hinv.noZombie, hinv.queue⟩
    refine Nat.pos_of_ne_zero fun h0 => ?_
    obtain rfl : pid = 0 := h0
    rw [hinv.unused] at hrun
    cases hrun

theorem run_inv {G : State → Event → Prop} {h : List Event} {t : State}
    (hr : system.RunIf G h t) : Inv t :=
  hr.inv (I := fun _ t => Inv t)
    (fun _ hi => by obtain ⟨beyond, rfl⟩ := hi; exact inv_start beyond)
    fun _ _ _ _ hi _ hs => hi.step hs

/-! ## The wait queues -/

namespace Kernel

def Live (s : Kernel) (q : Nat) : Prop :=
  (s.procArray q).pState = .runnable ∨ (s.procArray q).pState = .blocked

/-- Process `w` is blocked in a `sys_wait` on `q`. -/
def WaitsFor (s : Kernel) (w q : Nat) : Prop :=
  (s.procArray w).pState = .blocked ∧ (s.procArray w).eax = q

instance (s : Kernel) (q : Nat) : Decidable (s.Live q) :=
  inferInstanceAs (Decidable (_ ∨ _))

instance (s : Kernel) (w q : Nat) : Decidable (s.WaitsFor w q) :=
  inferInstanceAs (Decidable (_ ∧ _))

end Kernel

theorem Inv.live {s : State} (h : Inv s) {q : Nat} (hq : (s.1.procArray q).pState ≠ .empty) :
    s.1.Live q := by
  have hz := h.noZombie q
  unfold Kernel.Live
  cases hst : (s.1.procArray q).pState with
  | empty => exact absurd hst hq
  | runnable => exact .inl rfl
  | blocked => exact .inr rfl
  | zombie => exact absurd hst hz

/-- A queue pointer leads from a live process to one that waits for it, and every blocked
process has exactly one live process pointing to it. -/
structure WaitInv (s : Kernel) : Prop where
  queued : ∀ q < nprocs, ∀ w, (s.procArray q).queue = some w →
    s.Live q ∧ w < nprocs ∧ s.WaitsFor w q
  pointed : ∀ w < nprocs, (s.procArray w).pState = .blocked →
    ∃! q, q < nprocs ∧ s.Live q ∧ (s.procArray q).queue = some w

/-- No process exits that another waits for, and none waits for a live process that
another waits for. -/
def Undisturbed (s : State) : Event → Prop
  | .interrupt .exit _ => (s.1.procArray s.1.current).queue = none
  | .interrupt .wait p => ∀ q < nprocs, p = q → q ≠ s.1.current → s.1.Live q →
      (s.1.procArray q).queue = none
  | _ => True

instance : ∀ (s : State) (e : Event), Decidable (Undisturbed s e)
  | _, .interrupt .exit _ => inferInstanceAs (Decidable (_ = none))
  | s, .interrupt .wait p => inferInstanceAs (Decidable (∀ q < nprocs, p = q →
      q ≠ s.1.current → s.1.Live q → (s.1.procArray q).queue = none))
  | _, .interrupt .getpid _ => isTrue trivial
  | _, .interrupt .fork _ => isTrue trivial
  | _, .interrupt .yield _ => isTrue trivial
  | _, .schedule => isTrue trivial

/-- The last process does not fork: its search starts behind `proc_array`. -/
def ForksInside (s : State) : Event → Prop
  | .interrupt .fork _ => s.1.current + 1 < nprocs
  | _ => True

instance : ∀ (s : State) (e : Event), Decidable (ForksInside s e)
  | s, .interrupt .fork _ => inferInstanceAs (Decidable (s.1.current + 1 < nprocs))
  | _, .interrupt .getpid _ => isTrue trivial
  | _, .interrupt .yield _ => isTrue trivial
  | _, .interrupt .exit _ => isTrue trivial
  | _, .interrupt .wait _ => isTrue trivial
  | _, .schedule => isTrue trivial

/-- The wait queues do not depend on `%eax` of a process that is not blocked. -/
theorem WaitInv.congr (h : WaitInv s)
    (hst : ∀ q, (s'.procArray q).pState = (s.procArray q).pState)
    (hq : ∀ q, (s'.procArray q).queue = (s.procArray q).queue)
    (he : ∀ w, (s.procArray w).pState = .blocked → (s'.procArray w).eax = (s.procArray w).eax) :
    WaitInv s' := by
  have hlive (q : Nat) : s'.Live q ↔ s.Live q := by
    unfold Kernel.Live
    rw [hst]
  refine ⟨fun q hqn w hw => ?_, fun w hw hb => ?_⟩
  · rw [hq] at hw
    obtain ⟨hl, hwn, hb, hwe⟩ := h.queued q hqn w hw
    exact ⟨(hlive q).2 hl, hwn, (hst w).trans hb, (he w hb).trans hwe⟩
  · simp only [hlive, hq]
    exact h.pointed w hw ((hst w).symm.trans hb)

theorem WaitInv.answer (h : WaitInv s) (hrun : (s.procArray s.current).pState = .runnable)
    (v : Int) : WaitInv (s.answer v) := by
  refine h.congr (s.answer_pState v) (s.answer_queue v) fun w hb => ?_
  rw [Kernel.answer_ne]
  rintro rfl
  rw [hrun] at hb
  cases hb

theorem WaitInv.queue_empty (h : WaitInv s) {c : Nat} (hc : c < nprocs)
    (hemp : (s.procArray c).pState = .empty) : (s.procArray c).queue = none := by
  cases hq : (s.procArray c).queue with
  | none => rfl
  | some w =>
    obtain ⟨hl | hl, -⟩ := h.queued c hc w hq <;> rw [hemp] at hl <;> cases hl

/-- A process that is not waited for starts or ends. -/
theorem WaitInv.setIdle (h : WaitInv s) {c : Nat} {f : Process → Process}
    (hb : (s.procArray c).pState ≠ .blocked) (hq : (s.procArray c).queue = none)
    (hb' : (f (s.procArray c)).pState ≠ .blocked)
    (hq' : (f (s.procArray c)).queue = none) : WaitInv (s.set c f) := by
  have hlive {q : Nat} (hne : q ≠ c) : (s.set c f).Live q ↔ s.Live q := by
    unfold Kernel.Live
    rw [Kernel.set_ne _ _ _ hne]
  refine ⟨fun q hqn w hw => ?_, fun w hw hwb => ?_⟩
  · have hne : q ≠ c := by
      rintro rfl
      rw [Kernel.set_self, hq'] at hw
      cases hw
    rw [Kernel.set_ne _ _ _ hne] at hw
    obtain ⟨hl, hwn, hwb, hwe⟩ := h.queued q hqn w hw
    have hwc : w ≠ c := by
      rintro rfl
      exact hb hwb
    refine ⟨(hlive hne).2 hl, hwn, ?_⟩
    unfold Kernel.WaitsFor
    rw [Kernel.set_ne _ _ _ hwc]
    exact ⟨hwb, hwe⟩
  · have hwc : w ≠ c := by
      rintro rfl
      rw [Kernel.set_self] at hwb
      exact hb' hwb
    rw [Kernel.set_ne _ _ _ hwc] at hwb
    obtain ⟨q, ⟨hqn, hl, hqw⟩, huniq⟩ := h.pointed w hw hwb
    have hne : q ≠ c := by
      rintro rfl
      rw [hq] at hqw
      cases hqw
    refine ⟨q, ⟨hqn, (hlive hne).2 hl, ?_⟩, ?_⟩
    · rw [Kernel.set_ne _ _ _ hne]
      exact hqw
    · rintro q' ⟨hqn', hl', hqw'⟩
      have hne' : q' ≠ c := by
        rintro rfl
        rw [Kernel.set_self, hq'] at hqw'
        cases hqw'
      rw [Kernel.set_ne _ _ _ hne'] at hqw'
      exact huniq q' ⟨hqn', (hlive hne').1 hl', hqw'⟩

/-- The kernel after the current process blocks in `sys_wait(q)`. -/
abbrev Kernel.block (s : Kernel) (q : Nat) : Kernel :=
  (s.set s.current fun p => { p with eax := q, pState := .blocked }).set q fun p =>
    { p with queue := some s.current }

theorem block_queue {q i : Nat} (hi : i ≠ q) :
    ((s.block q).procArray i).queue = (s.procArray i).queue := by
  rw [Kernel.set_ne _ _ _ hi]
  by_cases hic : i = s.current
  · rw [hic, Kernel.set_self]
  · rw [Kernel.set_ne _ _ _ hic]

section Block

variable {q : Nat} (hne : q ≠ s.current)

include hne

theorem block_self : (s.block q).procArray q = { s.procArray q with queue := some s.current } := by
  rw [Kernel.set_self, Kernel.set_ne _ _ _ hne]

theorem block_current : (s.block q).procArray s.current =
    { s.procArray s.current with eax := q, pState := .blocked } := by
  rw [Kernel.set_ne _ _ _ hne.symm, Kernel.set_self]

theorem block_live {i : Nat} (hrun : (s.procArray s.current).pState = .runnable) :
    (s.block q).Live i ↔ s.Live i := by
  unfold Kernel.Live
  by_cases hi : i = s.current
  · subst hi
    rw [block_current hne, hrun]
    simp
  · by_cases hiq : i = q
    · subst hiq
      rw [block_self hne]
    · rw [Kernel.set_ne _ _ _ hiq, Kernel.set_ne _ _ _ hi]

theorem block_pState {w : Nat} (hw : w ≠ s.current) :
    ((s.block q).procArray w).pState = (s.procArray w).pState := by
  by_cases hwq : w = q
  · subst hwq
    rw [block_self hne]
  · rw [Kernel.set_ne _ _ _ hwq, Kernel.set_ne _ _ _ hw]

theorem block_waitsFor {w i : Nat} (hw : w ≠ s.current) :
    (s.block q).WaitsFor w i ↔ s.WaitsFor w i := by
  unfold Kernel.WaitsFor
  rw [block_pState hne hw]
  by_cases hwq : w = q
  · subst hwq
    rw [block_self hne]
  · rw [Kernel.set_ne _ _ _ hwq, Kernel.set_ne _ _ _ hw]

end Block

theorem WaitInv.block (h : WaitInv s) (hinv : Inv (s, false)) {q : Nat} (hqn : q < nprocs)
    (hne : q ≠ s.current) (hlive : s.Live q) (hq : (s.procArray q).queue = none) :
    WaitInv (s.block q) := by
  have hrun := hinv.running rfl
  have hcur {i : Nat} (hi : i < nprocs) : (s.procArray i).queue ≠ some s.current := by
    intro hqi
    have hb := (h.queued i hi _ hqi).2.2.1
    rw [hrun] at hb
    cases hb
  refine ⟨fun i hi w hw => ?_, fun w hw hb => ?_⟩
  · by_cases hiq : i = q
    · subst hiq
      rw [block_self hne] at hw
      obtain rfl := Option.some.inj hw
      refine ⟨(block_live hne hrun).2 hlive, hinv.current_lt, ?_⟩
      unfold Kernel.WaitsFor
      rw [block_current hne]
      exact ⟨rfl, rfl⟩
    · rw [block_queue hiq] at hw
      obtain ⟨hl, hwn, hwf⟩ := h.queued i hi w hw
      have hwc : w ≠ s.current := by
        rintro rfl
        exact hcur hi hw
      exact ⟨(block_live hne hrun).2 hl, hwn, (block_waitsFor hne hwc).2 hwf⟩
  · by_cases hwc : w = s.current
    · subst hwc
      refine ⟨q, ⟨hqn, (block_live hne hrun).2 hlive, ?_⟩, ?_⟩
      · rw [block_self hne]
      · rintro i ⟨hi, -, hqi⟩
        by_contra hiq
        rw [block_queue hiq] at hqi
        exact hcur hi hqi
    · rw [block_pState hne hwc] at hb
      obtain ⟨i, ⟨hi, hl, hqi⟩, huniq⟩ := h.pointed w hw hb
      have hiq : i ≠ q := by
        rintro rfl
        rw [hq] at hqi
        cases hqi
      refine ⟨i, ⟨hi, (block_live hne hrun).2 hl, (block_queue hiq).trans hqi⟩, ?_⟩
      rintro j ⟨hj, hl', hqj⟩
      have hjq : j ≠ q := by
        rintro rfl
        rw [block_self hne] at hqj
        exact hwc (Option.some.inj hqj).symm
      exact huniq j ⟨hj, (block_live hne hrun).1 hl', (block_queue hjq).symm.trans hqj⟩

/-- The process that waits already is pointed to no longer. -/
theorem WaitInv.block_lost (h : WaitInv s) (hinv : Inv (s, false)) {q w : Nat}
    (hqn : q < nprocs) (hne : q ≠ s.current) (hq : (s.procArray q).queue = some w) :
    ¬ WaitInv (s.block q) := by
  intro h'
  have hrun := hinv.running rfl
  obtain ⟨hl, hwn, hb, -⟩ := h.queued q hqn w hq
  have hwc : w ≠ s.current := by
    rintro rfl
    rw [hrun] at hb
    cases hb
  obtain ⟨i, ⟨hi, hli, hqi⟩, -⟩ := h'.pointed w hwn ((block_pState hne hwc).trans hb)
  have hiq : i ≠ q := by
    rintro rfl
    rw [block_self hne] at hqi
    exact hwc (Option.some.inj hqi).symm
  rw [block_queue hiq] at hqi
  have hli := (block_live hne hrun).1 hli
  exact hiq ((h.pointed w hwn hb).unique ⟨hi, hli, hqi⟩ ⟨hqn, hl, hq⟩)

theorem Effect.waitInv {call : Call} {eax : Int} {b : Bool} (he : Effect s call eax s' b)
    (hinv : Inv (s, false)) (h : WaitInv s) :
    WaitInv s' ↔ Undisturbed (s, false) (.interrupt call eax) := by
  have hrun := hinv.running rfl
  dsimp only at hrun
  cases he with
  | getpid => exact iff_of_true (h.answer hrun _) trivial
  | noChild => exact iff_of_true (h.answer hrun _) trivial
  | fork _ h1 hlt hne hemp =>
    have hq := h.queue_empty hlt hemp
    refine iff_of_true ((h.setIdle (by simp [hemp]) hq (by simp) hq).answer ?_ _) trivial
    rw [Kernel.set_current, Kernel.set_ne _ _ _ hne.symm]
    exact hrun
  | yield => exact iff_of_true (h.answer hrun _) trivial
  | exit _ hq => exact iff_of_true (h.setIdle (by simp [hrun]) hq (by simp) hq) hq
  | @exitWake _ w hq hne =>
    refine iff_of_false (fun h' => ?_) (by simp [Undisturbed, hq])
    have hcur := h'.queued s.current hinv.current_lt w (by rw [Kernel.set_ne _ _ _ hne.symm]; simpa)
    simp [Kernel.Live, Kernel.set_ne _ _ _ hne.symm] at hcur
  | noWait hbad =>
    refine iff_of_true (h.answer hrun _) fun q hqn hp hne hlive => ?_
    subst hp
    have hemp : (s.procArray q).pState = .empty := by
      rcases hbad with hle | hle | he | hemp
      · obtain rfl : q = 0 := by omega
        exact hinv.unused
      · omega
      · dsimp only at hne
        omega
      · exact hemp
    rcases hlive with hl | hl <;> dsimp only at hl <;> rw [hemp] at hl <;> cases hl
  | @wait q h1 hlt hne hlive =>
    have hlive : s.Live q := hinv.live hlive
    cases hq : (s.procArray q).queue with
    | none =>
      refine iff_of_true (h.block hinv hlt hne hlive hq) fun q' hqn' hp _ _ => ?_
      obtain rfl : q = q' := by omega
      exact hq
    | some w =>
      refine iff_of_false (h.block_lost hinv hlt hne hq) fun hu => ?_
      have := hu q hlt rfl hne hlive
      rw [hq] at this
      cases this

theorem WaitInv.queue_of_waitsFor (h : WaitInv s) {w q : Nat} (hw : w < nprocs)
    (hwq : s.WaitsFor w q) : (s.procArray q).queue = some w := by
  obtain ⟨i, ⟨hi, -, hq⟩, -⟩ := h.pointed w hw hwq.1
  have he := (h.queued i hi w hq).2.2.2
  obtain rfl : i = q := by
    rw [hwq.2] at he
    exact (Int.ofNat_inj.1 he).symm
  exact hq

/-- How the step `e` from `s` to `s'` ends waits and starts processes. -/
structure Wakes (s : State) (e : Event) (s' : State) : Prop where
  woken : ∀ w < nprocs, (s.1.procArray w).pState = .blocked →
    (s'.1.procArray w).pState ≠ .blocked →
    ∃ status, e = .interrupt .exit status ∧ s.1.WaitsFor w s.1.current
  answered : ∀ status, e = .interrupt .exit status → ∀ w < nprocs,
    s.1.WaitsFor w s.1.current →
    (s'.1.procArray w).pState = .runnable ∧ (s'.1.procArray w).eax = status
  reborn : ∀ q < nprocs, (s.1.procArray q).pState = .empty →
    (s'.1.procArray q).pState ≠ .empty → ∃ eax, e = .interrupt .fork eax

theorem WaitInv.wakes (h : WaitInv s) (hinv : Inv (s, false)) {call : Call} {eax : Int}
    {b : Bool} (he : Effect s call eax s' b) :
    Wakes (s, false) (.interrupt call eax) (s', b) := by
  have hrun := hinv.running rfl
  dsimp only at hrun
  have hanswer {c : Call} (v : Int) (hc : c ≠ .exit) :
      Wakes (s, false) (.interrupt c eax) (s.answer v, b) := by
    have hst := s.answer_pState v
    refine ⟨fun w _ hb hb' => absurd ((hst w).trans hb) hb', fun status he => ?_,
      fun q _ hemp hemp' => absurd ((hst q).trans hemp) hemp'⟩
    cases he
    exact absurd rfl hc
  cases he with
  | getpid => exact hanswer _ (by simp)
  | noChild => exact hanswer _ (by simp)
  | @fork _ c h1 hlt hne hemp =>
    refine ⟨fun w _ hb hb' => ?_, (by rintro _ ⟨⟩), fun _ _ _ _ => ⟨eax, rfl⟩⟩
    have hwc : w ≠ c := by
      rintro rfl
      rw [hemp] at hb
      cases hb
    refine absurd ?_ hb'
    rw [Kernel.answer_pState, Kernel.set_ne _ _ _ hwc]
    exact hb
  | yield => exact hanswer _ (by simp)
  | exit _ hq =>
    refine ⟨fun w _ hb hb' => ?_, fun _ _ w hw hwf => ?_, fun q _ hemp hemp' => ?_⟩
    · have hw : w ≠ s.current := by
        rintro rfl
        rw [hrun] at hb
        cases hb
      refine absurd ?_ hb'
      rw [Kernel.set_ne _ _ _ hw]
      exact hb
    · have hqw := h.queue_of_waitsFor hw hwf
      rw [hq] at hqw
      cases hqw
    · have hqc : q ≠ s.current := by
        rintro rfl
        rw [hrun] at hemp
        cases hemp
      refine absurd ?_ hemp'
      rw [Kernel.set_ne _ _ _ hqc]
      exact hemp
  | @exitWake _ w0 hq hne =>
    have hw0 := (h.queued _ hinv.current_lt _ hq).2.2
    refine ⟨fun w _ hb hb' => ⟨eax, rfl, ?_⟩, fun _ he w hw hwf => ?_, fun q _ hemp hemp' => ?_⟩
    · by_cases hw : w = w0
      · subst hw
        exact hw0
      · have hwc : w ≠ s.current := by
          rintro rfl
          rw [hrun] at hb
          cases hb
        refine absurd ?_ hb'
        rw [Kernel.set_ne _ _ _ hw, Kernel.set_ne _ _ _ hwc]
        exact hb
    · cases he
      have hqw := h.queue_of_waitsFor hw hwf
      obtain rfl := Option.some.inj (hq.symm.trans hqw)
      rw [Kernel.set_self]
      exact ⟨rfl, rfl⟩
    · have hqw : q ≠ w0 := by
        rintro rfl
        rw [hw0.1] at hemp
        cases hemp
      have hqc : q ≠ s.current := by
        rintro rfl
        rw [hrun] at hemp
        cases hemp
      refine absurd ?_ hemp'
      rw [Kernel.set_ne _ _ _ hqw, Kernel.set_ne _ _ _ hqc]
      exact hemp
  | noWait hbad => exact hanswer _ (by simp)
  | @wait q h1 hlt hne hlive =>
    have hst {w : Nat} (hw : (s.procArray w).pState ≠ .runnable) :
        ((s.block q).procArray w).pState = (s.procArray w).pState := by
      refine block_pState hne ?_
      rintro rfl
      exact hw hrun
    refine ⟨fun w _ hb hb' => ?_, (by rintro _ ⟨⟩), fun i _ hemp hemp' => ?_⟩
    · have hw : (s.procArray w).pState ≠ .runnable := hb.trans_ne (by decide)
      exact absurd ((hst hw).trans hb) hb'
    · have hi : (s.procArray i).pState ≠ .runnable := hemp.trans_ne (by decide)
      exact absurd ((hst hi).trans hemp) hemp'

theorem WaitInv.step {s s' : State} {e : Event} (h : WaitInv s.1) (hinv : Inv s)
    (hs : step s e = some s') : (WaitInv s'.1 ↔ Undisturbed s e) ∧ Wakes s e s' := by
  rcases step_cases hs hinv with ⟨call, eax, rfl, hb, he⟩ | ⟨pid, hlt, rfl, hrun, rfl⟩
  · obtain ⟨s, b⟩ := s
    obtain rfl : b = false := hb
    exact ⟨he.waitInv hinv h, h.wakes hinv he⟩
  · refine ⟨iff_of_true (h.congr (fun _ => rfl) (fun _ => rfl) fun _ _ => rfl) trivial, ?_⟩
    exact ⟨fun w _ hb hb' => absurd hb hb', (by rintro _ ⟨⟩), fun q _ hemp hemp' =>
      absurd hemp hemp'⟩

theorem waitInv_start (beyond : ProcState) : WaitInv (start beyond) := by
  have hst (q : Nat) : (start beyond).procArray q = if q = 1 then { pState := .runnable } else {} :=
    rfl
  refine ⟨fun q _ w hw => ?_, fun w _ hb => ?_⟩
  · rw [hst] at hw
    split at hw <;> cases hw
  · rw [hst] at hb
    split at hb <;> cases hb

/-- **The wait queues.** In every run in which no process exits that another waits for, none
waits for a live process that another waits for and the last process does not fork, the
wait-queue invariant holds. From there any other step breaks it exactly when it is such an exit
or wait; a blocked process is woken only by the exit it waits for, with its status, and an empty
descriptor is filled only by `sys_fork`. -/
theorem waitQueue_runs {h : List Event} {t : State}
    (hr : system.RunIf (fun t e => Undisturbed t e ∧ ForksInside t e) h t) :
    WaitInv t.1 ∧ ∀ e t', step t e = some t' →
      (WaitInv t'.1 ↔ Undisturbed t e) ∧ Wakes t e t' := by
  have hw : WaitInv t.1 := by
    have hboth : Inv t ∧ WaitInv t.1 := by
      refine hr.inv (I := fun _ t => Inv t ∧ WaitInv t.1) ?_ ?_
      · rintro _ ⟨beyond, rfl⟩
        exact ⟨inv_start beyond, waitInv_start beyond⟩
      · rintro h s a s' ⟨hinv, hw⟩ ⟨hg, -⟩ hs
        exact ⟨hinv.step hs, (hw.step hinv hs).1.2 hg⟩
    exact hboth.2
  exact ⟨hw, fun e t' hs => hw.step (run_inv hr) hs⟩

/-- Process 1 forks process 2 and waits for it. -/
theorem waitQueue_runs_wait : ∃ h t,
    system.RunIf (fun t e => Undisturbed t e ∧ ForksInside t e) h t ∧ t.1.WaitsFor 1 2 ∧
    WaitInv t.1 ∧ ∀ e t', step t e = some t' →
      (WaitInv t'.1 ↔ Undisturbed t e) ∧ Wakes t e t' := by
  have he : System.execIf (fun s e => decide (Undisturbed s e ∧ ForksInside s e)) step
      (start .empty, false) [.interrupt .fork 0, .interrupt .wait 2, .schedule] = some _ := rfl
  have hr := System.runIf_of_execIf (M := system)
    (G := fun t e => Undisturbed t e ∧ ForksInside t e)
    (fun _ _ _ hg h => ⟨of_decide_eq_true hg, h⟩) ⟨.empty, rfl⟩ he
  exact ⟨_, _, hr, by decide, waitQueue_runs hr⟩

/-- Process 2 exits while process 1 waits for it, and its descriptor is used again. Process 1
then waits for process 3, but is woken by the exit of the new process 2. -/
theorem stale_queue_wakes : ∃ h t t', system.Run h t ∧ t.1.current = 2 ∧ t.1.WaitsFor 1 3 ∧
    ¬ WaitInv t.1 ∧ step t (.interrupt .exit 9) = some t' ∧ t'.1.Live 3 ∧
    (t'.1.procArray 1).pState = .runnable ∧ (t'.1.procArray 1).eax = 9 := by
  have he : System.execIf (fun _ _ => true) step (start .empty, false)
      [.interrupt .fork 0, .interrupt .wait 2, .schedule, .interrupt .exit 7, .schedule,
        .interrupt .fork 0, .interrupt .fork 0, .interrupt .wait 3, .schedule] = some _ := rfl
  refine ⟨_, _, _, System.runIf_of_execIf (fun _ _ _ _ h => ⟨trivial, h⟩) ⟨.empty, rfl⟩ he,
    by decide, by decide, fun h => ?_, rfl, by decide, by decide, by decide⟩
  have := (h.queued 2 (by decide) 1 (by decide)).2.2.2
  exact absurd this (by decide)

end OsLabs.Weensy.Mpos
