import OsLabs.Weensy.Mpos
import Mathlib.Logic.Function.Basic

/-!
# MiniprocOS: what `sys_wait` returns

Runs are recorded. A process is named by its descriptor and a generation, which `do_fork`
counts up, so that a descriptor that is used again gets a new name. The ledger lists the
exits and the completed waits of each process; the trace also says which waits are under
way, and which have ended without their caller having run since.

A wait is complete when the kernel has settled what it returns: at once, or when the
caller is woken.
-/

namespace OsLabs.Weensy.Mpos

/-! ## The ledger -/

/-- Exits and completed waits, newest first: process, generation, status or result. -/
structure Ledger where
  generation : Nat → Nat
  exits : List (Nat × Nat × Int) := []
  waits : List (Nat × Nat × Int) := []

namespace Ledger

variable (l : Ledger) (p g : Nat) (status : Int)

/-- What the waits on a process returned, newest first. -/
def results : List Int := (l.waits.filter fun x => x.1 = p ∧ x.2.1 = g).map fun x => x.2.2

def Exited : Prop := ∃ status, (p, g, status) ∈ l.exits

/-- The first wait returns the status, every other one -1. -/
def Delivered : Prop :=
  l.results p g = [] ∨ ∃ n, l.results p g = List.replicate n (-1) ++ [status]

def birth : Ledger :=
  { l with generation := Function.update l.generation p (l.generation p + 1) }

def exit : Ledger := { l with exits := (p, l.generation p, status) :: l.exits }

def wait (result : Int) : Ledger := { l with waits := (p, g, result) :: l.waits }

/-- What the ledger must say for every status to be delivered exactly once. -/
structure Ok : Prop where
  generation_exits : ∀ p g status, (p, g, status) ∈ l.exits → 1 ≤ g ∧ g ≤ l.generation p
  generation_waits : ∀ p g result, (p, g, result) ∈ l.waits → g ≤ l.generation p
  delivered : ∀ p g status, (p, g, status) ∈ l.exits → l.Delivered p g status
  own : ∀ p g result, (p, g, result) ∈ l.waits → result = -1 ∧ g = 0 ∨ l.Exited p g

variable {l p g status}

theorem results_wait_self (result : Int) :
    (l.wait p g result).results p g = result :: l.results p g := by
  unfold results wait
  rw [List.filter_cons_of_pos (by simp)]
  rfl

theorem results_wait_ne {p' g' : Nat} (h : ¬ (p = p' ∧ g = g')) (result : Int) :
    (l.wait p g result).results p' g' = l.results p' g' := by
  unfold results wait
  rw [List.filter_cons_of_neg (by simpa using h)]

theorem mem_results {result : Int} : result ∈ l.results p g ↔ (p, g, result) ∈ l.waits := by
  unfold results
  simp only [List.mem_map, List.mem_filter, decide_eq_true_eq]
  constructor
  · rintro ⟨⟨p', g', r⟩, ⟨hmem, rfl, rfl⟩, rfl⟩
    exact hmem
  · intro hmem
    exact ⟨_, ⟨hmem, rfl, rfl⟩, rfl⟩

theorem le_birth (q : Nat) : l.generation q ≤ (l.birth p).generation q := by
  change _ ≤ Function.update l.generation p (l.generation p + 1) q
  by_cases hq : q = p
  · subst hq
    rw [Function.update_self]
    exact Nat.le_succ _
  · rw [Function.update_of_ne hq]

theorem Ok.birth (h : l.Ok) : (l.birth p).Ok := by
  refine ⟨fun q g s hm => ?_, fun q g r hm => ?_, h.delivered, h.own⟩
  · obtain ⟨h1, hg⟩ := h.generation_exits q g s hm
    exact ⟨h1, Nat.le_trans hg (le_birth q)⟩
  · exact Nat.le_trans (h.generation_waits q g r hm) (le_birth q)

/-- No wait on a process has completed before it exits. -/
theorem Ok.results_nil (h : l.Ok) (h1 : 1 ≤ g) (hno : ¬ l.Exited p g) : l.results p g = [] := by
  refine List.eq_nil_iff_forall_not_mem.2 fun r hr => ?_
  rcases h.own p g r (mem_results.1 hr) with ⟨-, h0⟩ | hex
  · omega
  · exact hno hex

theorem Ok.exit (h : l.Ok) (h1 : 1 ≤ l.generation p) (hno : ¬ l.Exited p (l.generation p)) :
    (l.exit p status).Ok := by
  refine ⟨fun q g s hm => ?_, h.generation_waits, fun q g s hm => ?_, fun q g r hm => ?_⟩
  · rcases List.mem_cons.1 hm with he | hm
    · cases he
      exact ⟨h1, Nat.le_refl _⟩
    · exact h.generation_exits q g s hm
  · rcases List.mem_cons.1 hm with he | hm
    · cases he
      exact .inl (h.results_nil h1 hno)
    · exact h.delivered q g s hm
  · rcases h.own q g r hm with h0 | ⟨s, hs⟩
    · exact .inl h0
    · exact .inr ⟨s, List.mem_cons_of_mem _ hs⟩

/-- The waiter is woken by the exit. -/
theorem Ok.deliver (h : l.Ok) (h1 : 1 ≤ l.generation p)
    (hno : ¬ l.Exited p (l.generation p)) :
    ((l.exit p status).wait p (l.generation p) status).Ok := by
  have hok : (l.exit p status).Ok := h.exit h1 hno
  refine ⟨hok.generation_exits, fun q g r hm => ?_, fun q g s hm => ?_, fun q g r hm => ?_⟩
  · rcases List.mem_cons.1 hm with he | hm
    · cases he
      exact Nat.le_refl _
    · exact hok.generation_waits q g r hm
  · unfold Delivered
    by_cases hq : p = q ∧ l.generation p = g
    · obtain ⟨rfl, rfl⟩ := hq
      have hnil : (l.exit p status).results p (l.generation p) = [] := h.results_nil h1 hno
      rw [results_wait_self, hnil]
      rcases List.mem_cons.1 hm with he | hm
      · cases he
        exact .inr ⟨0, rfl⟩
      · exact absurd ⟨s, hm⟩ hno
    · rw [results_wait_ne hq]
      exact hok.delivered q g s hm
  · rcases List.mem_cons.1 hm with he | hm
    · cases he
      exact .inr ⟨status, List.mem_cons_self⟩
    · exact hok.own q g r hm

/-- A wait on a process whose status was delivered, or on none. -/
theorem Ok.refuse (h : l.Ok) (hg : l.generation p = 0 ∨
    l.Exited p (l.generation p) ∧ l.results p (l.generation p) ≠ []) :
    (l.wait p (l.generation p) (-1)).Ok := by
  refine ⟨h.generation_exits, fun q g r hm => ?_, fun q g s hm => ?_, fun q g r hm => ?_⟩
  · rcases List.mem_cons.1 hm with he | hm
    · cases he
      exact Nat.le_refl _
    · exact h.generation_waits q g r hm
  · unfold Delivered
    by_cases hq : p = q ∧ l.generation p = g
    · obtain ⟨rfl, rfl⟩ := hq
      have hpos := (h.generation_exits _ _ _ hm).1
      rcases hg with h0 | ⟨-, hne⟩
      · omega
      · obtain ⟨n, hn⟩ := (h.delivered _ _ _ hm).resolve_left hne
        rw [results_wait_self, hn]
        exact .inr ⟨n + 1, rfl⟩
    · rw [results_wait_ne hq]
      exact h.delivered q g s hm
  · rcases List.mem_cons.1 hm with he | hm
    · cases he
      rcases hg with h0 | ⟨hex, -⟩
      · exact .inl ⟨rfl, h0⟩
      · exact .inr hex
    · exact h.own q g r hm

/-- A wait returns -1 or the status of the process it is on. -/
theorem Ok.result (h : l.Ok) {result : Int} (hm : (p, g, result) ∈ l.waits) :
    result = -1 ∨ (p, g, result) ∈ l.exits := by
  rcases h.own p g result hm with ⟨hr, -⟩ | ⟨status, hs⟩
  · exact .inl hr
  · have hmem := mem_results.2 hm
    rcases h.delivered p g status hs with hnil | ⟨n, hn⟩
    · rw [hnil] at hmem
      cases hmem
    · rw [hn, List.mem_append, List.mem_singleton] at hmem
      rcases hmem with hrep | rfl
      · exact .inl (List.eq_of_mem_replicate hrep)
      · exact .inr hs

end Ledger

/-! ## Recorded runs -/

/-- The ledger, the waits under way (caller, with the process waited for) and the results
that a caller has yet to see. -/
structure Trace extends Ledger where
  pending : Nat → Option (Nat × Nat) := fun _ => none
  returning : Nat → Option Int := fun _ => none

/-- What the step from `s` to `s'` adds. -/
def Trace.record (t : Trace) (s s' : Kernel) : Event → Trace
  | .interrupt .fork _ =>
    let childpid := (s'.procArray s.current).eax
    if childpid = -1 then t
    else
      { toLedger := t.birth childpid.toNat
        pending := Function.update t.pending childpid.toNat none
        returning := Function.update t.returning childpid.toNat none }
  | .interrupt .exit status =>
    match (s.procArray s.current).queue with
    | none => { t with toLedger := t.exit s.current status }
    | some w =>
      match t.pending w with
      | none => { t with toLedger := t.exit s.current status }
      | some (p, g) =>
        { toLedger := (t.exit s.current status).wait p g (s'.procArray w).eax
          pending := Function.update t.pending w none
          returning := Function.update t.returning w (some (s'.procArray w).eax) }
  | .interrupt .wait p =>
    if (s'.procArray s.current).pState = .blocked then
      { t with
        pending := Function.update t.pending s.current (some (p.toNat, t.generation p.toNat)) }
    else
      { t with
        toLedger := if 1 ≤ p ∧ p < nprocs then
            t.wait p.toNat (t.generation p.toNat) (s'.procArray s.current).eax
          else t.toLedger
        returning := Function.update t.returning s.current (some (s'.procArray s.current).eax) }
  | .interrupt .getpid _ => t
  | .interrupt .yield _ => t
  | .schedule => { t with returning := Function.update t.returning s'.current none }

def Trace.start : Trace where
  generation := fun pid => if pid = 1 then 1 else 0

abbrev TState := State × Trace

def traced : System TState Event where
  Init t := system.Init t.1 ∧ t.2 = .start
  Step t e t' := step t.1 e = some t'.1 ∧ t'.2 = t.2.record t.1.1 t'.1.1 e

/-- Recording does not change what happens. -/
theorem traced_iff {h : List Event} {s : State} :
    system.Run h s ↔ ∃ t, traced.Run h (s, t) := by
  constructor
  · intro hr
    induction hr with
    | init hi => exact ⟨.start, .init ⟨hi, rfl⟩⟩
    | @step _ s s' a _ _ hs ih =>
      obtain ⟨t, ht⟩ := ih
      exact ⟨t.record s.1 s'.1 a, .step ht trivial ⟨hs, rfl⟩⟩
  · rintro ⟨t, hr⟩
    generalize hst : (s, t) = st at hr
    induction hr generalizing s t with
    | init hi =>
      subst hst
      exact .init hi.1
    | @step _ st0 _ _ _ _ hs ih =>
      subst hst
      exact .step (ih (s := st0.1) st0.2 rfl) trivial hs.1

/-- Every exit status is delivered exactly once: the first wait on a process that exits
returns its status and every other one -1; no wait returns a status of another process; no
wait on a process that has exited is still under way; and what the kernel has settled is
what the caller finds. -/
structure ExactlyOnce (t : TState) : Prop where
  delivered : ∀ p g status, (p, g, status) ∈ t.2.exits → t.2.Delivered p g status
  own : ∀ p g result, (p, g, result) ∈ t.2.waits →
    result = -1 ∨ (p, g, result) ∈ t.2.exits
  finished : ∀ w p g, t.2.pending w = some (p, g) → ¬ t.2.Exited p g
  returned : ∀ w result, t.2.returning w = some result →
    (t.1.1.procArray w).pState = .runnable ∧ (t.1.1.procArray w).eax = result

/-- The condition on `sys_wait(q)`: a live process is waited for by no other, the status of
one that has exited was delivered, and no process waits for itself. -/
def MayWait (t : TState) (q : Nat) : Prop :=
  q ≠ t.1.1.current ∧
  (t.1.1.Live q → ∀ w < nprocs, ¬ t.1.1.WaitsFor w q) ∧
  (¬ t.1.1.Live q → t.2.generation q = 0 ∨ t.2.results q (t.2.generation q) ≠ [])

/-- The condition on `sys_exit`: a process that the queue pointer leads to waits for the
current one, or is runnable with no result of a wait to see. -/
def MayExit (t : TState) : Prop :=
  ∀ w < nprocs, (t.1.1.procArray t.1.1.current).queue = some w →
    t.1.1.WaitsFor w t.1.1.current ∨
    (t.1.1.procArray w).pState = .runnable ∧ t.2.returning w = none

def Deliverable (t : TState) : Event → Prop
  | .interrupt .fork eax => ForksInside t.1 (.interrupt .fork eax)
  | .interrupt .wait p => ∀ q < nprocs, 1 ≤ q → p = q → MayWait t q
  | .interrupt .exit _ => MayExit t
  | _ => True

/-! ## The invariant of recorded runs -/

/-- Process `w` waits for a live process that points back to it. -/
def Waiting (s : Kernel) (t : Trace) (w : Nat) : Prop :=
  w < nprocs ∧ ∃ q < nprocs, 1 ≤ q ∧ s.Live q ∧ s.WaitsFor w q ∧
    (s.procArray q).queue = some w ∧ t.pending w = some (q, t.generation q)

structure TraceInv (t : TState) : Prop where
  inv : Inv t.1
  ok : t.2.Ok
  executing : t.1.2 = false → t.2.returning t.1.1.current = none
  waiting : ∀ w, (t.1.1.procArray w).pState = .blocked → Waiting t.1.1 t.2 w
  pending : ∀ w, t.2.pending w ≠ none → (t.1.1.procArray w).pState = .blocked
  returned : ∀ w result, t.2.returning w = some result →
    (t.1.1.procArray w).pState = .runnable ∧ (t.1.1.procArray w).eax = result
  live : ∀ q, t.1.1.Live q → 1 ≤ t.2.generation q ∧ ¬ t.2.Exited q (t.2.generation q)
  dead : ∀ q, ¬ t.1.1.Live q → t.2.generation q = 0 ∨ t.2.Exited q (t.2.generation q)

variable {s s' : Kernel} {t : Trace}

theorem TraceInv.exactlyOnce {t : TState} (h : TraceInv t) : ExactlyOnce t where
  delivered := h.ok.delivered
  own _ _ _ hm := h.ok.result hm
  finished w p g hp := by
    obtain ⟨-, q, -, -, hl, -, -, hpq⟩ := h.waiting w (h.pending w (by rw [hp]; simp))
    rw [hp] at hpq
    cases hpq
    exact (h.live _ hl).2
  returned := h.returned

/-- A change to `%eax` of a runnable process that has no result of a wait to see. -/
theorem TraceInv.setEax {b b' : Bool} (h : TraceInv ((s, b), t)) {pid : Nat} {v : Int}
    (hinv : Inv (s.set pid fun p => { p with eax := v, pState := .runnable }, b'))
    (hrun : (s.procArray pid).pState = .runnable) (hret : t.returning pid = none)
    (hexec : b' = false → t.returning s.current = none) :
    TraceInv ((s.set pid fun p => { p with eax := v, pState := .runnable }, b'), t) := by
  set s' := s.set pid fun p => { p with eax := v, pState := .runnable } with hs'
  have hst (q : Nat) : (s'.procArray q).pState = (s.procArray q).pState := by
    by_cases hq : q = pid
    · rw [hq, hs', Kernel.set_self, hrun]
    · rw [hs', Kernel.set_ne _ _ _ hq]
  have hqu (q : Nat) : (s'.procArray q).queue = (s.procArray q).queue := by
    by_cases hq : q = pid
    · rw [hq, hs', Kernel.set_self]
    · rw [hs', Kernel.set_ne _ _ _ hq]
  have hlive (q : Nat) : s'.Live q ↔ s.Live q := by
    unfold Kernel.Live
    rw [hst]
  refine ⟨hinv, h.ok, hexec, fun w hb => ?_, fun w hp => (hst w).trans (h.pending w hp),
    fun w r hr => ?_, fun q hl => h.live q ((hlive q).1 hl), fun q hl =>
      h.dead q fun hl' => hl ((hlive q).2 hl')⟩
  · have hwp : w ≠ pid := by
      rintro rfl
      rw [hst, hrun] at hb
      cases hb
    obtain ⟨hw, q, hq, h1, hl, hwf, hqw, hp⟩ := h.waiting w ((hst w).symm.trans hb)
    refine ⟨hw, q, hq, h1, (hlive q).2 hl, ?_, (hqu q).trans hqw, hp⟩
    unfold Kernel.WaitsFor
    dsimp only
    rw [hs', Kernel.set_ne _ _ _ hwp]
    exact hwf
  · have hwp : w ≠ pid := by
      rintro rfl
      dsimp only at hr
      rw [hret] at hr
      cases hr
    dsimp only
    rw [hs', Kernel.set_ne _ _ _ hwp]
    exact h.returned w r hr

theorem TraceInv.answer (h : TraceInv ((s, false), t)) (v : Int) (b : Bool) :
    TraceInv ((s.answer v, b), t) := by
  have hrun : (s.procArray s.current).pState = .runnable := h.inv.running rfl
  have hret : t.returning s.current = none := h.executing rfl
  have he : s.answer v = s.set s.current fun p => { p with eax := v, pState := .runnable } := by
    unfold Kernel.answer Kernel.set
    congr 1
    funext i
    split
    · next hi =>
      subst hi
      dsimp only
      rw [hrun]
    · rfl
  have hinv : Inv (s.answer v, b) := Inv.answer h.inv v
  rw [he] at hinv ⊢
  exact h.setEax hinv hrun hret fun _ => hret

/-- A wait is entered in the ledger. -/
theorem TraceInv.ledger {b : Bool} (h : TraceInv ((s, b), t)) {l : Ledger} (hok : l.Ok)
    (hgen : l.generation = t.generation) (hex : l.exits = t.exits) :
    TraceInv ((s, b), { t with toLedger := l }) := by
  have hexited (p g : Nat) : l.Exited p g ↔ t.Exited p g := by
    unfold Ledger.Exited
    rw [hex]
  refine ⟨h.inv, hok, h.executing, fun w hb => ?_, h.pending, h.returned, fun q hl => ?_,
    fun q hl => ?_⟩
  · obtain ⟨hw, q, hq, h1, hl, hwf, hqw, hp⟩ := h.waiting w hb
    refine ⟨hw, q, hq, h1, hl, hwf, hqw, hp.trans ?_⟩
    dsimp only
    rw [hgen]
  · dsimp only
    rw [hexited, hgen]
    exact h.live q hl
  · dsimp only
    rw [hexited, hgen]
    exact h.dead q hl

/-- A wait ends at once, with its result in `%eax`. -/
theorem TraceInv.settle (h : TraceInv ((s, true), t))
    (hrun : (s.procArray s.current).pState = .runnable) :
    TraceInv ((s, true), { t with
      returning := Function.update t.returning s.current
        (some (s.procArray s.current).eax) }) := by
  refine ⟨h.inv, h.ok, by rintro ⟨⟩, h.waiting, h.pending, fun w r hr => ?_, h.live, h.dead⟩
  dsimp only at hr
  by_cases hw : w = s.current
  · subst hw
    rw [Function.update_self] at hr
    exact ⟨hrun, Option.some.inj hr⟩
  · rw [Function.update_of_ne hw] at hr
    exact h.returned w r hr

/-- A blocked process is woken with a result. -/
theorem TraceInv.wake (h : TraceInv ((s, false), t)) {w : Nat} {v : Int}
    (hb : (s.procArray w).pState = .blocked)
    (hinv : Inv (s.set w fun p => { p with eax := v, pState := .runnable }, false)) :
    TraceInv ((s.set w fun p => { p with eax := v, pState := .runnable }, false),
      { t with
        pending := Function.update t.pending w none
        returning := Function.update t.returning w (some v) }) := by
  set s' := s.set w fun p => { p with eax := v, pState := .runnable } with hs'
  have hne {q : Nat} (hq : q ≠ w) : s'.procArray q = s.procArray q := Kernel.set_ne _ _ _ hq
  have hself : s'.procArray w = { s.procArray w with eax := v, pState := .runnable } :=
    Kernel.set_self _ _ _
  have hlive (q : Nat) : s'.Live q ↔ s.Live q := by
    unfold Kernel.Live
    by_cases hq : q = w
    · subst hq
      rw [hself, hb]
      simp
    · rw [hne hq]
  have hcur : s.current ≠ w := by
    rintro rfl
    have hrun : (s.procArray s.current).pState = .runnable := h.inv.running rfl
    rw [hrun] at hb
    cases hb
  refine ⟨hinv, h.ok, fun _ => ?_, fun w' hb' => ?_, fun w' hp => ?_, fun w' r hr => ?_,
    fun q hl => h.live q ((hlive q).1 hl), fun q hl => h.dead q fun hl' => hl ((hlive q).2 hl')⟩
  · dsimp only
    rw [hs', Kernel.set_current, Function.update_of_ne hcur]
    exact h.executing rfl
  · have hw : w' ≠ w := by
      rintro rfl
      dsimp only at hb'
      rw [hself] at hb'
      cases hb'
    dsimp only at hb'
    rw [hne hw] at hb'
    obtain ⟨hwn, q, hq, h1, hl, hwf, hqw, hp⟩ := h.waiting w' hb'
    refine ⟨hwn, q, hq, h1, (hlive q).2 hl, ?_, ?_, ?_⟩
    · unfold Kernel.WaitsFor
      dsimp only
      rw [hne hw]
      exact hwf
    · dsimp only
      by_cases hqw' : q = w
      · subst hqw'
        rw [hself]
        exact hqw
      · rw [hne hqw']
        exact hqw
    · dsimp only
      rw [Function.update_of_ne hw]
      exact hp
  · dsimp only at hp ⊢
    have hw : w' ≠ w := by
      rintro rfl
      rw [Function.update_self] at hp
      exact hp rfl
    rw [Function.update_of_ne hw] at hp
    rw [hne hw]
    exact h.pending w' hp
  · dsimp only at hr ⊢
    by_cases hw : w' = w
    · subst hw
      rw [Function.update_self] at hr
      obtain rfl := Option.some.inj hr
      rw [hself]
      exact ⟨rfl, rfl⟩
    · rw [Function.update_of_ne hw] at hr
      rw [hne hw]
      exact h.returned w' r hr

/-- `do_fork` fills an empty descriptor. -/
theorem TraceInv.fork (h : TraceInv ((s, false), t)) {c : Nat} (hc : c ≠ s.current)
    (hemp : (s.procArray c).pState = .empty)
    (hinv : Inv (s.set c fun p => { p with eax := 0, pState := .runnable }, false)) :
    TraceInv ((s.set c fun p => { p with eax := 0, pState := .runnable }, false),
      { toLedger := t.birth c
        pending := Function.update t.pending c none
        returning := Function.update t.returning c none }) := by
  set s' := s.set c fun p => { p with eax := 0, pState := .runnable } with hs'
  have hne {q : Nat} (hq : q ≠ c) : s'.procArray q = s.procArray q := Kernel.set_ne _ _ _ hq
  have hself : (s'.procArray c).pState = .runnable := by rw [hs', Kernel.set_self]
  have hlive {q : Nat} (hq : q ≠ c) : s'.Live q ↔ s.Live q := by
    unfold Kernel.Live
    rw [hne hq]
  have hgen {q : Nat} (hq : q ≠ c) : (t.birth c).generation q = t.generation q :=
    Function.update_of_ne hq _ _
  refine ⟨hinv, h.ok.birth, fun _ => ?_, fun w hb => ?_, fun w hp => ?_, fun w r hr => ?_,
    fun q hl => ?_, fun q hl => ?_⟩
  · dsimp only
    rw [hs', Kernel.set_current, Function.update_of_ne hc.symm]
    exact h.executing rfl
  · have hwc : w ≠ c := by
      rintro rfl
      rw [hself] at hb
      cases hb
    dsimp only at hb
    rw [hne hwc] at hb
    obtain ⟨hw, q, hq, h1, hl, hwf, hqw, hp⟩ := h.waiting w hb
    have hqc : q ≠ c := by
      rintro rfl
      rcases hl with hl | hl <;> dsimp only at hl <;> rw [hemp] at hl <;> cases hl
    refine ⟨hw, q, hq, h1, (hlive hqc).2 hl, ?_, ?_, ?_⟩
    · unfold Kernel.WaitsFor
      dsimp only
      rw [hne hwc]
      exact hwf
    · dsimp only
      rw [hne hqc]
      exact hqw
    · dsimp only
      rw [Function.update_of_ne hwc, hgen hqc]
      exact hp
  · dsimp only at hp ⊢
    have hwc : w ≠ c := by
      rintro rfl
      rw [Function.update_self] at hp
      exact hp rfl
    rw [Function.update_of_ne hwc] at hp
    rw [hne hwc]
    exact h.pending w hp
  · dsimp only at hr ⊢
    have hwc : w ≠ c := by
      rintro rfl
      rw [Function.update_self] at hr
      cases hr
    rw [Function.update_of_ne hwc] at hr
    rw [hne hwc]
    exact h.returned w r hr
  · dsimp only at hl ⊢
    by_cases hq : q = c
    · subst hq
      have hself : (t.birth q).generation q = t.generation q + 1 := Function.update_self _ _ _
      rw [hself]
      refine ⟨by omega, ?_⟩
      rintro ⟨status, hs⟩
      exact absurd (h.ok.generation_exits _ _ _ hs).2 (Nat.not_succ_le_self _)
    · rw [hgen hq]
      exact h.live q ((hlive hq).1 hl)
  · dsimp only at hl ⊢
    by_cases hq : q = c
    · subst hq
      exact absurd (.inl hself) hl
    · rw [hgen hq]
      exact h.dead q fun hl' => hl ((hlive hq).2 hl')

section Exit

/-- The kernel after the current process exits, before it wakes a waiter. -/
abbrev Kernel.exited (s : Kernel) (status : Int) : Kernel :=
  s.set s.current fun p => { p with eax := status, pState := .empty, pExitStatus := status }

variable {status : Int}

theorem exited_ne {q : Nat} (hq : q ≠ s.current) :
    (s.exited status).procArray q = s.procArray q := Kernel.set_ne _ _ _ hq

theorem exited_not_live : ¬ (s.exited status).Live s.current := by
  unfold Kernel.Live
  rw [Kernel.set_self]
  simp

theorem exited_live {q : Nat} (hq : q ≠ s.current) :
    (s.exited status).Live q ↔ s.Live q := by
  unfold Kernel.Live
  rw [exited_ne hq]

/-- A process that is not blocked is not the current one after it has exited. -/
theorem exited_blocked {w : Nat} (hb : ((s.exited status).procArray w).pState = .blocked) :
    w ≠ s.current := by
  rintro rfl
  rw [Kernel.set_self] at hb
  cases hb

theorem Ledger.exited_of_exit {l : Ledger} {p g : Nat} {c : Nat}
    (h : (l.exit c status).Exited p g) : (p = c ∧ g = l.generation c) ∨ l.Exited p g := by
  obtain ⟨st, hst⟩ := h
  rcases List.mem_cons.1 hst with he | hst
  · cases he
    exact .inl ⟨rfl, rfl⟩
  · exact .inr ⟨st, hst⟩

/-- The current process exits, and no process waits for it. -/
theorem TraceInv.exit (h : TraceInv ((s, false), t))
    (hinv : Inv (s.exited status, true)) (hno : ∀ w, ¬ s.WaitsFor w s.current) :
    TraceInv ((s.exited status, true), { t with toLedger := t.exit s.current status }) := by
  have hrun : (s.procArray s.current).pState = .runnable := h.inv.running rfl
  have hret : t.returning s.current = none := h.executing rfl
  obtain ⟨h1, hnex⟩ := h.live s.current (.inl hrun)
  refine ⟨hinv, h.ok.exit h1 hnex, by rintro ⟨⟩, fun w hb => ?_, fun w hp => ?_, fun w r hr => ?_,
    fun q hl => ?_, fun q hl => ?_⟩
  · have hw := exited_blocked hb
    dsimp only at hb
    rw [exited_ne hw] at hb
    obtain ⟨hwn, q, hq, hq1, hl, hwf, hqw, hp⟩ := h.waiting w hb
    have hqc : q ≠ s.current := by
      rintro rfl
      exact hno w hwf
    refine ⟨hwn, q, hq, hq1, (exited_live hqc).2 hl, ?_, ?_, hp⟩
    · unfold Kernel.WaitsFor
      dsimp only
      rw [exited_ne hw]
      exact hwf
    · dsimp only
      rw [exited_ne hqc]
      exact hqw
  · have hb := h.pending w hp
    have hw : w ≠ s.current := by
      rintro rfl
      dsimp only at hb
      rw [hrun] at hb
      cases hb
    dsimp only
    rw [exited_ne hw]
    exact hb
  · have hw : w ≠ s.current := by
      rintro rfl
      dsimp only at hr
      rw [hret] at hr
      cases hr
    dsimp only
    rw [exited_ne hw]
    exact h.returned w r hr
  · have hq : q ≠ s.current := by
      rintro rfl
      exact exited_not_live hl
    obtain ⟨hg, hne⟩ := h.live q ((exited_live hq).1 hl)
    refine ⟨hg, fun hex => ?_⟩
    rcases Ledger.exited_of_exit hex with ⟨hqc, -⟩ | hex
    · exact hq hqc
    · exact hne hex
  · by_cases hq : q = s.current
    · subst hq
      exact .inr ⟨status, List.mem_cons_self⟩
    · rcases h.dead q fun hl' => hl ((exited_live hq).2 hl') with h0 | ⟨st, hst⟩
      · exact .inl h0
      · exact .inr ⟨st, List.mem_cons_of_mem _ hst⟩

end Exit

/-- The current process blocks in `sys_wait(q)`. -/
theorem TraceInv.block (h : TraceInv ((s, false), t)) {q : Nat} (h1 : 1 ≤ q) (hqn : q < nprocs)
    (hne : q ≠ s.current) (hlive : s.Live q) (hinv : Inv (s.block q, true))
    (hno : ∀ w < nprocs, ¬ s.WaitsFor w q) :
    TraceInv ((s.block q, true), { t with
      pending := Function.update t.pending s.current (some (q, t.generation q)) }) := by
  have hrun : (s.procArray s.current).pState = .runnable := h.inv.running rfl
  have hret : t.returning s.current = none := h.executing rfl
  have hl {i : Nat} : (s.block q).Live i ↔ s.Live i := block_live hne hrun
  refine ⟨hinv, h.ok, by rintro ⟨⟩, fun w hb => ?_, fun w hp => ?_, fun w r hr => ?_,
    fun i hi => h.live i (hl.1 hi), fun i hi => h.dead i fun hi' => hi (hl.2 hi')⟩
  · by_cases hw : w = s.current
    · subst hw
      refine ⟨h.inv.current_lt, q, hqn, h1, hl.2 hlive, ?_, ?_, Function.update_self _ _ _⟩
      · unfold Kernel.WaitsFor
        dsimp only
        rw [block_current hne]
        exact ⟨rfl, rfl⟩
      · dsimp only
        rw [block_self hne]
    · dsimp only at hb
      rw [block_pState hne hw] at hb
      obtain ⟨hwn, i, hi, hi1, hil, hwf, hiw, hp⟩ := h.waiting w hb
      have hiq : i ≠ q := by
        rintro rfl
        exact hno w hwn hwf
      refine ⟨hwn, i, hi, hi1, hl.2 hil, (block_waitsFor hne hw).2 hwf,
        (block_queue hiq).trans hiw, ?_⟩
      dsimp only
      rw [Function.update_of_ne hw]
      exact hp
  · dsimp only at hp ⊢
    by_cases hw : w = s.current
    · subst hw
      rw [block_current hne]
    · rw [Function.update_of_ne hw] at hp
      exact (block_pState hne hw).trans (h.pending w hp)
  · have hw : w ≠ s.current := by
      rintro rfl
      dsimp only at hr
      rw [hret] at hr
      cases hr
    obtain ⟨hwr, hwe⟩ := h.returned w r hr
    dsimp only
    refine ⟨(block_pState hne hw).trans hwr, ?_⟩
    by_cases hwq : w = q
    · subst hwq
      rw [block_self hne]
      exact hwe
    · rw [Kernel.set_ne _ _ _ hwq, Kernel.set_ne _ _ _ hw]
      exact hwe

theorem TraceInv.schedule (h : TraceInv ((s, true), t)) {pid : Nat}
    (hinv : Inv ({ s with current := pid }, false)) :
    TraceInv (({ s with current := pid }, false), { t with
      returning := Function.update t.returning pid none }) := by
  refine ⟨hinv, h.ok, fun _ => Function.update_self _ _ _, h.waiting, h.pending,
    fun w r hr => ?_, h.live, h.dead⟩
  dsimp only at hr
  by_cases hw : w = pid
  · subst hw
    rw [Function.update_self] at hr
    cases hr
  · rw [Function.update_of_ne hw] at hr
    exact h.returned w r hr

theorem TraceInv.of_waitsFor (h : TraceInv ((s, false), t)) {w q : Nat}
    (hw : s.WaitsFor w q) :
    w < nprocs ∧ (s.procArray q).queue = some w ∧ t.pending w = some (q, t.generation q) := by
  obtain ⟨hwn, i, -, -, -, hwi, hqw, hp⟩ := h.waiting w hw.1
  obtain rfl : i = q := Int.ofNat_inj.1 (hwi.2.symm.trans hw.2)
  exact ⟨hwn, hqw, hp⟩

theorem TraceInv.effect (h : TraceInv ((s, false), t)) {call : Call} {eax : Int} {b : Bool}
    (hg : Deliverable ((s, false), t) (.interrupt call eax)) (he : Effect s call eax s' b) :
    TraceInv ((s', b), t.record s s' (.interrupt call eax)) := by
  have hinv : Inv (s', b) := he.inv h.inv
  have hrun : (s.procArray s.current).pState = .runnable := h.inv.running rfl
  have hret : t.returning s.current = none := h.executing rfl
  cases he with
  | getpid => exact h.answer _ _
  | noChild =>
    have hrec : t.record s (s.answer (-1)) (.interrupt .fork eax) = t := by simp [Trace.record]
    rw [hrec]
    exact h.answer _ _
  | @fork _ c h1 hlt hne hemp =>
    have heax := congrArg Process.eax
      (Kernel.answer_self (s.set c fun p => { p with eax := 0, pState := .runnable }) c)
    rw [Kernel.set_current] at heax
    have hc : (c : Int) ≠ -1 := by omega
    simp only [Trace.record, heax, if_neg hc, Int.toNat_natCast]
    apply TraceInv.answer
    refine h.fork hne hemp (h.inv.set h1 (by simp) (h.inv.queue c) fun _ => ?_)
    rw [Kernel.set_ne _ _ _ hne.symm]
    exact hrun
  | yield => exact h.answer _ _
  | exit _ hq =>
    simp only [Trace.record, hq]
    refine h.exit hinv fun w hw => ?_
    have hqw := (h.of_waitsFor hw).2.1
    rw [hq] at hqw
    cases hqw
  | @exitWake _ w hq hne =>
    have hwait {w' : Nat} (hw : s.WaitsFor w' s.current) : w' = w :=
      Option.some.inj ((h.of_waitsFor hw).2.1.symm.trans hq)
    obtain ⟨hw1, hwn, -⟩ := h.inv.queue _ _ hq
    rcases hg w hwn hq with hwf | ⟨hwr, hnone⟩
    · -- the waiter is woken
      have hp := (h.of_waitsFor hwf).2.2
      simp only [Trace.record, hq, hp, Kernel.set_self]
      have hwake := h.wake (v := eax) hwf.1 (h.inv.set hw1 (by simp) (h.inv.queue w) fun _ => by
        rw [Kernel.set_ne _ _ _ hne.symm]
        exact hrun)
      rw [Kernel.set_comm _ _ _ hne.symm] at hinv ⊢
      obtain ⟨h1, hnex⟩ := h.live s.current (.inl hrun)
      refine (hwake.exit hinv fun w' hw' => ?_).ledger (h.ok.deliver h1 hnex) rfl rfl
      by_cases hww : w' = w
      · subst hww
        have := hw'.1
        rw [Kernel.set_self] at this
        cases this
      · refine hww (hwait ?_)
        unfold Kernel.WaitsFor at hw' ⊢
        rwa [Kernel.set_ne _ _ _ hww] at hw'
    · -- a process that does not wait any more
      have hp : t.pending w = none := by
        by_contra hp
        have hb := h.pending w hp
        dsimp only at hb hwr
        rw [hwr] at hb
        cases hb
      simp only [Trace.record, hq, hp]
      have hcur : Inv (s.exited eax, true) :=
        h.inv.set h.inv.current_pos (by simp) (h.inv.queue _) (by simp)
      have hex := h.exit hcur fun w' hw' => by
        have hb := hw'.1
        dsimp only at hwr
        rw [hwait hw', hwr] at hb
        cases hb
      refine hex.setEax hinv ?_ hnone (by rintro ⟨⟩)
      rw [exited_ne hne]
      exact hwr
  | noWait hbad =>
    have hans := h.answer (-1) true
    have hst : ((s.answer (-1)).procArray s.current).pState = .runnable := by
      rw [Kernel.answer_pState]
      exact hrun
    have hset := fun (l : Ledger) hok hgen hex =>
      (hans.ledger (l := l) hok hgen hex).settle hst
    simp only [Kernel.answer_current, Kernel.answer_self] at hset
    simp only [Trace.record, Kernel.answer_self, hrun, reduceCtorEq, if_false]
    split
    · next hp =>
      obtain ⟨q, rfl⟩ := Int.eq_ofNat_of_zero_le (show 0 ≤ eax by omega)
      obtain ⟨hne, -, hdone⟩ := hg q (by omega) (by omega) rfl
      have hemp : (s.procArray q).pState = .empty := by
        rcases hbad with hle | hle | he | hemp
        · omega
        · omega
        · exact absurd (Int.ofNat_inj.1 he) hne
        · exact hemp
      have hnl : ¬ s.Live q := by
        rintro (hl | hl) <;> rw [hemp] at hl <;> cases hl
      refine hset _ (h.ok.refuse ?_) rfl rfl
      rw [Int.toNat_natCast]
      rcases hdone hnl with h0 | hres
      · exact .inl h0
      · rcases h.dead q hnl with h0 | hex
        · exact .inl h0
        · exact .inr ⟨hex, hres⟩
    · exact hset _ h.ok rfl rfl
  | @wait q h1 hqn hne hlive =>
    have hb : ((s.block q).procArray s.current).pState = .blocked := by
      rw [block_current hne]
    simp only [Trace.record, hb, if_true, Int.toNat_natCast]
    have hlive : s.Live q := h.inv.live hlive
    obtain ⟨-, hno, -⟩ := hg q hqn h1 rfl
    exact h.block h1 hqn hne hlive hinv (hno hlive)

theorem TraceInv.step {t t' : TState} {e : Event} (h : TraceInv t) (hg : Deliverable t e)
    (hs : traced.Step t e t') : TraceInv t' := by
  obtain ⟨⟨s, b⟩, tr⟩ := t
  obtain ⟨⟨s', b'⟩, tr'⟩ := t'
  obtain ⟨hs, htr⟩ := hs
  dsimp only at htr
  subst htr
  have hinv := h.inv.step hs
  rcases step_cases hs h.inv with ⟨call, eax, rfl, hb, he⟩ | ⟨pid, hlt, rfl, hrun, he⟩
  · obtain rfl : b = false := hb
    exact h.effect hg he
  · cases he
    rcases b with _ | _
    · cases hs
    · exact h.schedule hinv

theorem traceInv_start (beyond : ProcState) : TraceInv ((start beyond, false), .start) := by
  have hst (q : Nat) : (start beyond).procArray q = if q = 1 then { pState := .runnable } else {} :=
    rfl
  refine ⟨inv_start beyond, ⟨?_, ?_, ?_, ?_⟩, fun _ => rfl, fun w hb => ?_, fun w hp => ?_,
    fun w r hr => ?_, fun q hl => ?_, fun q hl => ?_⟩
  iterate 4 rintro p g v ⟨⟩
  · dsimp only at hb
    rw [hst] at hb
    split at hb <;> cases hb
  · exact absurd rfl hp
  · cases hr
  · have hq : q = 1 := by
      by_contra hq
      unfold Kernel.Live at hl
      dsimp only at hl
      rw [hst, if_neg hq] at hl
      rcases hl with ⟨⟨⟩⟩ | ⟨⟨⟩⟩
    subst hq
    exact ⟨Nat.le_refl _, by rintro ⟨_, ⟨⟩⟩⟩
  · refine .inl (if_neg ?_)
    rintro rfl
    exact hl (.inl rfl)

/-- **Exit statuses are delivered exactly once** in every run that keeps to the conditions
on `sys_wait` and `sys_exit` and in which the last process does not fork. -/
theorem sysWait_runs {h : List Event} {t : TState} (hr : traced.RunIf Deliverable h t) :
    ExactlyOnce t := by
  have hinv : TraceInv t := by
    refine hr.inv (I := fun _ t => TraceInv t) ?_ fun _ _ _ _ hi hg hs => hi.step hg hs
    rintro ⟨_, _⟩ ⟨⟨beyond, rfl⟩, rfl⟩
    exact traceInv_start beyond
  exact hinv.exactlyOnce

instance (t : TState) (q : Nat) : Decidable (MayWait t q) :=
  inferInstanceAs (Decidable (_ ∧ _ ∧ _))

instance (t : TState) : Decidable (MayExit t) :=
  decidable_of_iff (∀ w < nprocs, (t.1.1.procArray t.1.1.current).queue = some w → _) Iff.rfl

instance : ∀ (t : TState) (e : Event), Decidable (Deliverable t e)
  | t, .interrupt .fork eax => inferInstanceAs (Decidable (ForksInside t.1 (.interrupt .fork eax)))
  | t, .interrupt .wait p =>
    inferInstanceAs (Decidable (∀ q < nprocs, 1 ≤ q → p = q → MayWait t q))
  | t, .interrupt .exit _ => inferInstanceAs (Decidable (MayExit t))
  | _, .interrupt .getpid _ => isTrue trivial
  | _, .interrupt .yield _ => isTrue trivial
  | _, .schedule => isTrue trivial

def tracedStep (t : TState) (e : Event) : Option TState :=
  (step t.1 e).map fun s' => (s', t.2.record t.1.1 s'.1 e)

theorem traced_of_tracedStep {t t' : TState} {e : Event} (h : tracedStep t e = some t') :
    traced.Step t e t' := by
  obtain ⟨s', hs, rfl⟩ := Option.map_eq_some_iff.1 h
  exact ⟨hs, rfl⟩

/-- Process 1 waits for process 2, which exits with status 7, and waits for it again. -/
theorem sysWait_runs_twice : ∃ h t, traced.RunIf Deliverable h t ∧
    t.2.waits = [(2, 1, -1), (2, 1, 7)] ∧ ExactlyOnce t := by
  have he : System.execIf (fun t e => decide (Deliverable t e)) tracedStep
      ((start .empty, false), .start)
      [.interrupt .fork 0, .interrupt .wait 2, .schedule, .interrupt .exit 7, .schedule,
        .interrupt .wait 2, .schedule] = some _ := rfl
  have hr := System.runIf_of_execIf (M := traced) (G := Deliverable)
    (fun _ _ _ hg h => ⟨of_decide_eq_true hg, traced_of_tracedStep h⟩) ⟨⟨.empty, rfl⟩, rfl⟩ he
  exact ⟨_, _, hr, by decide, sysWait_runs hr⟩

/-- Process 2 exits with status 7 before process 1 waits for it: the only wait returns -1. -/
theorem exit_before_wait : ∃ h t, traced.Run h t ∧ t.2.exits = [(2, 1, 7)] ∧
    t.2.waits = [(2, 1, -1)] ∧ ¬ ExactlyOnce t := by
  have he : System.execIf (fun _ _ => true) tracedStep ((start .empty, false), .start)
      [.interrupt .fork 0, .interrupt .yield 0, .schedule, .interrupt .exit 7, .schedule,
        .interrupt .wait 2, .schedule] = some _ := rfl
  refine ⟨_, _, System.runIf_of_execIf (fun _ _ _ _ h => ⟨trivial, traced_of_tracedStep h⟩)
    ⟨⟨.empty, rfl⟩, rfl⟩ he, by decide, by decide, fun hex => ?_⟩
  rcases hex.delivered 2 1 7 (by decide) with hnil | ⟨n, hn⟩
  · exact absurd hnil (by decide)
  · have hmem := List.mem_append_right (List.replicate n (-1)) (List.mem_singleton_self (7 : Int))
    rw [← hn] at hmem
    exact absurd hmem (by decide)

end OsLabs.Weensy.Mpos
