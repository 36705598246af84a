import OsLabs.Lib.TicketQueue
import OsLabs.Osprd.Step

/-!
# The ramdisk lock: ticket order

As long as the ticket counter has not wrapped and `invalid_pid_list` has room, the
interleaved processes refine the ticket queue of `Lib.TicketQueue` (`step_queue`): `queueOf`
reads the queue off a state and `moveOf` names the move an atomic step makes. The
queue's invariants then give first come, first served (`acquire_in_order`) and
the condition under which no dead ticket is served (`tail_held`). Behind the 1024 elements of
the block the order is lost (`overrun_out_of_order`).
-/

namespace OsLabs.Osprd

open TicketQueue

def Pc.slot : Pc → Slot
  | idle | releasing _ | closing _ => .out
  | warTest _ t | readReadLock _ t | readWriteLock _ t | readTail _ t | blocked _ t => .waiting t
  | granting _ t => .served t
  | finishing _ t => .leaving t

theorem Pc.ticket?_slot (c : Pc) : c.slot.ticket? = c.ticket? := by
  cases c <;> rfl

theorem Pc.slot_of_waiting? {c : Pc} {t : Nat} (h : c.waiting? = some t) :
    c.slot = .waiting t ∨ c.slot = .served t := by
  cases c <;> simp_all [Pc.waiting?, Pc.slot]

def queueOf (s : State) : Queue Pid :=
  ⟨s.drawn, s.dev.ticketTail, s.dev.invalidPidList, fun p => (s.pc p).slot⟩

/-- The move that an atomic step makes in the ticket queue. -/
def moveOf (s : State) : Action → Move Pid
  | .acquire p _ => if (p : Int) = s.dev.writeLockPid then .stay else .draw p
  | .next p =>
    match s.pc p with
    | .warTest _ _ => if (p : Int) ∈ s.dev.readLockPidList then .drop p else .stay
    | .readTail _ t => if t = s.dev.ticketTail then .serve p else .stay
    | .granting _ _ => .grant p
    | .finishing _ _ => .finish p
    | _ => .stay
  | .signal p => .abandon p
  | .tryAcquire .. | .release .. | .closeLast .. | .overwrite _ => .stay

theorem skipInvalid_eq : ∀ {l : List Nat} {n : Nat}, (∀ t ∈ l, t + 1 < 2 ^ 32) →
    OsprdInfo.skipInvalid l n = skip l n
  | [], _, _ => rfl
  | t :: ts, n, h => by
    have ht := incr_of_lt (h t List.mem_cons_self)
    simp only [OsprdInfo.skipInvalid, skip]
    rw [skipInvalid_eq fun u hu => h u (List.mem_cons_of_mem _ hu)]
    congr 1
    split
    · next e => rw [← e, ht]
    · rfl

/-- The device's ticket counter counts the tickets drawn. -/
def Counted (s : State) : Prop := s.dev.ticketHead = s.drawn

theorem queueOf_goto (s : State) (p : Pid) (c : Pc) :
    queueOf (s.goto p c) = (queueOf s).put p c.slot := by
  simp only [queueOf, Queue.put, State.goto_drawn, State.goto_dev, Queue.mk.injEq, true_and]
  funext q
  rw [State.goto_pc, Function.update_apply]
  split <;> rfl

theorem put_slot_same (q : Queue Pid) {p : Pid} {x : Slot} (h : q.slot p = x) :
    q.put p x = q := by
  subst h
  simp [Queue.put]

/-- A step inside a call that neither changes the tickets nor the slot of the process. -/
theorem queueOf_goto_same (s : State) {p : Pid} {c : Pc} (h : c.slot = (s.pc p).slot) :
    queueOf (s.goto p c) = queueOf s := by
  rw [queueOf_goto, put_slot_same _ h.symm]

@[simp] theorem queueOf_mark (s : State) (f : File) : queueOf (s.mark f) = queueOf s := rfl

@[simp] theorem queueOf_unmark (s : State) (f : File) : queueOf (s.unmark f) = queueOf s := rfl

/-- The queue of a state with other lock fields but the same tickets. -/
theorem queueOf_setDev (s : State) {d : OsprdInfo} (h1 : d.ticketTail = s.dev.ticketTail)
    (h2 : d.invalidPidList = s.dev.invalidPidList) : queueOf (s.setDev d) = queueOf s := by
  simp only [queueOf, State.setDev_dev, State.setDev_drawn, State.setDev_pc, h1, h2]

theorem advance_drawn {w : File → Bool} {s s' : State} {p : Pid} {r : Option Ret}
    (hs : advance w s p = some (s', r)) : s'.drawn = s.drawn := by
  unfold advance at hs
  split at hs
  · cases hs
  · split at hs <;> cases hs <;> rfl
  all_goals cases hs; rfl

/-! ## The steps that move the queue -/

theorem queueOf_drawTicket {s : State} (hc : Counted s) {p : Pid} {c : Pc}
    (hslot : c.slot = .waiting s.dev.ticketHead) :
    queueOf (s.drawTicket.goto p c) =
      { (queueOf s).put p (.waiting (queueOf s).head) with head := (queueOf s).head + 1 } := by
  rw [queueOf_goto, hslot]
  simp only [queueOf, Queue.put, State.drawTicket, OsprdInfo.drawTicket]
  rw [hc]

/-- The final update takes the tail over the abandoned tickets behind it. -/
theorem queueOf_finish {s : State} (ho : Ordered (queueOf s)) (hd : s.drawn < 2 ^ 32)
    (ht : s.dev.ticketTail < s.drawn) (p : Pid) :
    queueOf ((s.setDev s.dev.finish).goto p .idle) =
      { (queueOf s).put p .out with
        tail := skip (queueOf s).abandoned ((queueOf s).tail + 1) } := by
  have htail : s.dev.finish.ticketTail =
      skip s.dev.invalidPidList (s.dev.ticketTail + 1) := by
    simp only [OsprdInfo.finish]
    rw [incr_of_lt (by omega), skipInvalid_eq fun u hu => ?_]
    have : u < s.drawn := ho.abandoned_lt u hu
    omega
  rw [queueOf_goto]
  simp only [queueOf, Queue.put, State.setDev_dev, htail, State.setDev_drawn, State.setDev_pc]
  rfl

/-- An interrupted waiter's ticket is recorded, and passed at once when it is the next one. -/
theorem queueOf_abandon {s : State} {t : Nat} (ht : t < s.drawn) (hd : s.drawn < 2 ^ 32)
    (p : Pid) :
    queueOf ((s.setDev (s.dev.abandon t)).goto p .idle) =
      { (queueOf s).put p .out with
        tail := if (queueOf s).tail = t then (queueOf s).tail + 1 else (queueOf s).tail
        abandoned := (queueOf s).abandoned ++ [t] } := by
  have htail : (s.dev.abandon t).ticketTail =
      if s.dev.ticketTail = t then s.dev.ticketTail + 1 else s.dev.ticketTail := by
    simp only [OsprdInfo.abandon]
    split
    · next e => rw [incr_of_lt (by omega)]
    · rfl
  rw [queueOf_goto]
  simp only [queueOf, Queue.put, State.setDev_dev, htail, State.setDev_drawn, State.setDev_pc]
  rfl

/-- What the steps of `advance` do to the queue. -/
theorem advance_queue {w : File → Bool} {s s' : State} {p : Pid} {r : Option Ret}
    (hc : Counted s) (ho : Ordered (queueOf s)) (hd : s.drawn < 2 ^ 32)
    (hs : advance w s p = some (s', r)) :
    Step (queueOf s) (moveOf s (.next p)) (queueOf s') ∧ Counted s' := by
  have slot : (queueOf s).slot p = (s.pc p).slot := rfl
  unfold advance at hs
  cases hp : s.pc p with
    simp only [hp, Option.some.injEq, Prod.mk.injEq, reduceCtorEq] at hs
  | warTest f t =>
    simp only [moveOf, hp]
    split at hs <;> obtain ⟨rfl, -⟩ := by simpa using hs
    · next h =>
      rw [if_pos h, queueOf_goto]
      exact ⟨.drop (t := t) (by rw [slot, hp]; rfl), hc⟩
    · next h =>
      rw [if_neg h, queueOf_goto_same s (by rw [hp]; rfl)]
      exact ⟨.stay _, hc⟩
  | readReadLock f t =>
    obtain ⟨rfl, -⟩ := hs
    simp only [moveOf, hp]
    rw [queueOf_goto_same s (by rw [hp]; split <;> rfl)]
    exact ⟨.stay _, hc⟩
  | readWriteLock f t =>
    obtain ⟨rfl, -⟩ := hs
    simp only [moveOf, hp]
    rw [queueOf_goto_same s (by rw [hp]; split <;> rfl)]
    exact ⟨.stay _, hc⟩
  | readTail f t =>
    obtain ⟨rfl, -⟩ := hs
    simp only [moveOf, hp]
    by_cases h : t = s.dev.ticketTail
    · rw [if_pos h, if_pos h, queueOf_goto]
      exact ⟨.serve (by rw [slot, hp]; rfl) h, hc⟩
    · rw [if_neg h, if_neg h, queueOf_goto_same s (by rw [hp]; rfl)]
      exact ⟨.stay _, hc⟩
  | blocked f t =>
    obtain ⟨rfl, -⟩ := hs
    simp only [moveOf, hp]
    rw [queueOf_goto_same s (by rw [hp]; split <;> rfl)]
    exact ⟨.stay _, hc⟩
  | granting f t =>
    obtain ⟨rfl, -⟩ := hs
    simp only [moveOf, hp]
    rw [queueOf_goto, queueOf_mark, queueOf_setDev s (by simp) (by simp)]
    exact ⟨.grant (t := t) (by rw [slot, hp]; rfl), by simpa [Counted] using hc⟩
  | finishing f t =>
    obtain ⟨rfl, -⟩ := hs
    simp only [moveOf, hp]
    have hleave : (queueOf s).slot p = .leaving t := by rw [slot, hp]; rfl
    have ht : t = s.dev.ticketTail := ho.served_eq p t (.inr hleave)
    have hlt : t < s.drawn := ho.ticket_lt p t (by rw [hleave]; rfl)
    rw [queueOf_finish ho hd (ht ▸ hlt)]
    exact ⟨.finish hleave, hc⟩
  | releasing f =>
    obtain ⟨rfl, -⟩ := hs
    simp only [moveOf, hp]
    rw [queueOf_goto_same _ (by simp only [State.unmark_pc, State.setDev_pc, hp]; rfl),
      queueOf_unmark, queueOf_setDev s (by simp) (by simp)]
    exact ⟨.stay _, by simpa [Counted] using hc⟩
  | closing f =>
    obtain ⟨rfl, -⟩ := hs
    simp only [moveOf, hp]
    rw [queueOf_goto_same _ (by simp only [State.unmark_pc, State.setDev_pc, hp]; rfl),
      queueOf_unmark, queueOf_setDev s (by simp) (by simp)]
    exact ⟨.stay _, by simpa [Counted] using hc⟩

/-! ## Room in `invalid_pid_list` -/

/-- The recorded tickets lie within the block. -/
def Within (s : State) : Prop := s.dev.invalidPidList.length ≤ invalidRoom

/-- A waiter is interrupted only while the block has room for its ticket. -/
def withinRoom (s : State) : Action → Bool
  | .signal p =>
    match s.pc p with
    | .blocked _ _ => s.dev.invalidPidList.length < invalidRoom
    | _ => true
  | _ => true

theorem advance_invalidPidList {w : File → Bool} {s s' : State} {p : Pid} {r : Option Ret}
    (hs : advance w s p = some (s', r)) : s'.dev.invalidPidList = s.dev.invalidPidList := by
  unfold advance at hs
  split at hs
  · cases hs
  · split at hs <;> cases hs <;> rfl
  all_goals cases hs; simp [OsprdInfo.finish]

theorem within_step {w : File → Bool} {s s' : State} {a : Action} {r : Option Ret}
    (h : Within s) (hg : withinRoom s a = true) (hs : step w s a = some (s', r)) : Within s' := by
  have keep (e : s'.dev.invalidPidList = s.dev.invalidPidList) : Within s' := by
    rw [Within, e]
    exact h
  cases a with
  | acquire p f =>
    simp only [step, startAcquire] at hs
    split at hs
    · split at hs <;> cases hs <;> exact keep rfl
    · cases hs
  | tryAcquire p f =>
    simp only [step, tryAcquire] at hs
    split at hs
    · split at hs <;> cases hs <;> exact keep (by simp)
    · cases hs
  | release p f =>
    simp only [step, startRelease] at hs
    split at hs
    · split at hs <;> cases hs <;> exact keep rfl
    · cases hs
  | closeLast p f =>
    simp only [step, startClose] at hs
    split at hs
    · split at hs <;> cases hs <;> exact keep rfl
    · cases hs
  | next p => exact keep (advance_invalidPidList hs)
  | signal p =>
    simp only [step, interrupt] at hs
    simp only [withinRoom] at hg
    split at hs <;> cases hs
    next hp =>
      rw [hp] at hg
      have hlt : s.dev.invalidPidList.length < invalidRoom := of_decide_eq_true hg
      simp only [Within, State.goto_dev, State.setDev_dev, OsprdInfo.abandon, List.length_append,
        List.length_singleton]
      omega
  | overwrite ts =>
    simp only [step, overwrite] at hs
    split at hs <;> cases hs
    next hts =>
      simp only [List.length_drop] at hts
      simp only [Within, State.setDev_dev, OsprdInfo.overwrite, List.length_append,
        List.length_take] at h ⊢
      omega

/-- Nothing stands behind the end of the block. -/
theorem overwrite_within {d : OsprdInfo} (h : d.invalidPidList.length ≤ invalidRoom)
    {ts : List Nat} (hts : ts.length = (d.invalidPidList.drop invalidRoom).length) :
    (d.overwrite ts).invalidPidList = d.invalidPidList := by
  rw [List.drop_eq_nil_of_le h, List.length_nil, List.length_eq_zero_iff] at hts
  simp [OsprdInfo.overwrite, hts, List.take_of_length_le h]

/-- **Refinement**: every atomic step is the move `moveOf` of the ticket queue. -/
theorem step_queue {w : File → Bool} {s s' : State} {a : Action} {r : Option Ret}
    (hc : Counted s) (ho : Ordered (queueOf s)) (hi : Within s)
    (hs : step w s a = some (s', r)) (hd : s'.drawn < 2 ^ 32) :
    Step (queueOf s) (moveOf s a) (queueOf s') ∧ Counted s' := by
  cases a with
  | acquire p f =>
    simp only [step] at hs
    split at hs
    · next hcall =>
      simp only [startAcquire] at hs
      split at hs <;> obtain ⟨rfl, -⟩ := by simpa using hs
      · next h => simp only [moveOf, if_pos h]; exact ⟨.stay _, hc⟩
      · next h =>
        simp only [moveOf, if_neg h]
        have hslot : (queueOf s).slot p = .out := by
          show (s.pc p).slot = .out
          rw [hcall.1]; rfl
        rw [queueOf_drawTicket hc (by split <;> rfl)]
        refine ⟨.draw hslot, ?_⟩
        have hd' : s.drawn + 1 < 2 ^ 32 := hd
        simp only [Counted, State.goto_dev, State.goto_drawn, State.drawTicket,
          OsprdInfo.drawTicket]
        rw [hc, incr_of_lt hd']
    · cases hs
  | tryAcquire p f =>
    simp only [step] at hs
    split at hs
    · simp only [tryAcquire] at hs
      split at hs <;> obtain ⟨rfl, -⟩ := by simpa using hs
      · exact ⟨.stay _, hc⟩
      · simp only [moveOf]
        rw [queueOf_mark, queueOf_setDev s (by simp) (by simp)]
        exact ⟨.stay _, by simpa [Counted] using hc⟩
    · cases hs
  | release p f =>
    simp only [step] at hs
    split at hs
    · next hcall =>
      simp only [startRelease] at hs
      split at hs <;> obtain ⟨rfl, -⟩ := by simpa using hs
      · simp only [moveOf]
        rw [queueOf_goto_same s (by rw [hcall.1]; rfl)]
        exact ⟨.stay _, hc⟩
      · exact ⟨.stay _, hc⟩
    · cases hs
  | closeLast p f =>
    simp only [step] at hs
    split at hs
    · next hcall =>
      simp only [startClose] at hs
      split at hs <;> obtain ⟨rfl, -⟩ := by simpa using hs
      · simp only [moveOf]
        rw [queueOf_goto_same _ (by simp only [hcall.1]; rfl)]
        exact ⟨.stay _, hc⟩
      · exact ⟨.stay _, hc⟩
    · cases hs
  | next p =>
    simp only [step] at hs
    exact advance_queue hc ho (advance_drawn hs ▸ hd) hs
  | signal p =>
    simp only [step, interrupt] at hs
    cases hp : s.pc p with
      simp only [hp, Option.some.injEq, Prod.mk.injEq, reduceCtorEq] at hs
    | blocked f t =>
      obtain ⟨rfl, -⟩ := hs
      have hwait : (queueOf s).slot p = .waiting t := by
        show (s.pc p).slot = _
        rw [hp]; rfl
      have hlt : t < s.drawn := ho.ticket_lt p t (by rw [hwait]; rfl)
      rw [queueOf_abandon hlt hd]
      exact ⟨.abandon hwait, hc⟩
  | overwrite ts =>
    simp only [step, overwrite] at hs
    split at hs <;> cases hs
    next hts =>
      simp only [moveOf]
      rw [queueOf_setDev s (d := s.dev.overwrite ts) rfl (overwrite_within hi hts)]
      exact ⟨.stay _, hc⟩

theorem step_drawn {w : File → Bool} {s s' : State} {a : Action} {r : Option Ret}
    (hs : step w s a = some (s', r)) : s.drawn ≤ s'.drawn := by
  cases a with
  | acquire p f =>
    simp only [step, startAcquire] at hs
    split at hs
    · split at hs <;> cases hs
      · exact le_rfl
      · exact Nat.le_succ _
    · cases hs
  | tryAcquire p f =>
    simp only [step, tryAcquire] at hs
    split at hs
    · split at hs <;> cases hs <;> exact le_rfl
    · cases hs
  | release p f =>
    simp only [step, startRelease] at hs
    split at hs
    · split at hs <;> cases hs <;> exact le_rfl
    · cases hs
  | closeLast p f =>
    simp only [step, startClose] at hs
    split at hs
    · split at hs <;> cases hs <;> exact le_rfl
    · cases hs
  | next p => exact (advance_drawn hs).ge
  | signal p =>
    simp only [step, interrupt] at hs
    split at hs <;> cases hs
    exact le_rfl
  | overwrite ts =>
    simp only [step, overwrite] at hs
    split at hs <;> cases hs
    exact le_rfl

/-! ## First come, first served -/

/-- The tickets are in order, as long as fewer than `2 ^ 32` have been drawn and the abandoned
ones lie within the block. -/
theorem run_ordered {w : File → Bool} {h : List Action} {s : State}
    (hr : (lockSystem w).RunIf (fun s a => withinRoom s a = true) h s) (hd : s.drawn < 2 ^ 32) :
    Counted s ∧ Ordered (queueOf s) ∧ Within s := by
  refine hr.inv (I := fun _ s => s.drawn < 2 ^ 32 → Counted s ∧ Ordered (queueOf s) ∧ Within s)
    ?_ ?_ hd
  · rintro s rfl -
    exact ⟨rfl, ordered_empty, Nat.zero_le _⟩
  · rintro h s a s' ih hg ⟨-, r, hs⟩ hd
    obtain ⟨hc, ho, hi⟩ := ih (lt_of_le_of_lt (step_drawn hs) hd)
    obtain ⟨hm, hc'⟩ := step_queue hc ho hi hs hd
    exact ⟨hc', ho.step hm, within_step hi hg hs⟩

/-- The step that takes the lock for ticket `t` in `OSPRDIOCACQUIRE`. -/
def Grants (s : State) (a : Action) (t : Nat) : Prop :=
  ∃ p f, a = .next p ∧ s.pc p = .granting f t

/-- Four readers: the first has been granted the lock and has finished, the second was
interrupted behind it, the third is about to be granted the lock, the fourth waits. -/
def fourReaders : List Action :=
  [.acquire (pid 0) 0, .acquire (pid 1) 1, .next (pid 1), .next (pid 1), .signal (pid 1),
    .acquire (pid 2) 2, .next (pid 0), .next (pid 0), .next (pid 0), .next (pid 0),
    .next (pid 2), .next (pid 2), .acquire (pid 3) 3]

/-- File `0` is open for writing, the others for reading. -/
abbrev firstWrites (f : File) : Bool := f == 0

/-- The first process holds the write lock with ticket `0`; the `n` tickets behind it are
given up, and `ts` recorded. -/
def givenUp (n : Nat) (ts : List Nat) : State where
  dev := {
    ticketHead := n + 1
    ticketTail := n + 1
    nWriteLock := 1
    nReadLock := 0
    writeLockPid := pid 0
    readLockPidList := []
    invalidPidList := ts }
  locked := {0}
  closed := ∅
  pc := fun _ => .idle
  drawn := n + 1

/-- Behind the first process `n` acquires were interrupted. -/
def interrupted (n : Nat) : State := givenUp n ((List.range n).map (· + 1))

theorem run_step {w : File → Bool} {h : List Action} {s s' : State} {a : Action}
    (hr : (lockSystem w).Run h s) {r : Option Ret} (hs : step w s a = some (s', r))
    (hl : lastReference s a) : (lockSystem w).Run (a :: h) s' :=
  .step hr trivial ⟨hl, r, hs⟩

/-- The first process is granted the write lock and finishes. -/
def firstHolds : List Action := .acquire (pid 0) 0 :: List.replicate 6 (.next (pid 0))

theorem interrupted_run {n : Nat} (hn : n + 2 < 2 ^ 32) :
    ∃ h, (lockSystem firstWrites).Run h (interrupted n) := by
  induction n with
  | zero =>
    have he : (lockExec firstWrites (fun _ _ => true) firstHolds).isSome := by decide
    have hr := runIf_of_lockExec (G := fun _ _ => True) (fun _ _ _ => trivial) he
    have hpc : ((lockExec _ _ firstHolds).get he).pc = fun _ => .idle := by
      funext p
      by_cases h : p = pid 0
      · subst h
        rfl
      · refine run_idle hr fun a ha => ?_
        have : a.actor? = some (pid 0) := by revert a; decide
        rw [this]
        exact fun e => h (Option.some.inj e).symm
    have e : (lockExec _ _ firstHolds).get he = interrupted 0 :=
      congrArg (State.mk _ _ _ · _) hpc
    exact ⟨_, e ▸ hr⟩
  | succ n ih =>
    obtain ⟨h, hr⟩ := ih (by omega)
    let s1 := (interrupted n).drawTicket.goto (pid 1) (.readWriteLock 1 (n + 1))
    let s2 := s1.goto (pid 1) (.blocked 1 (n + 1))
    have h1 : step firstWrites (interrupted n) (.acquire (pid 1) 1) = some (s1, none) := rfl
    have h2 : step firstWrites s1 (.next (pid 1)) = some (s2, none) := by
      simp [step, advance, s1, s2, State.goto, interrupted, givenUp, State.drawTicket,
        OsprdInfo.drawTicket]
    have h3 : step firstWrites s2 (.signal (pid 1)) =
        some (interrupted (n + 1), some .eRestartSys) := by
      have hincr : incr (n + 1) = n + 2 := incr_of_lt (by omega)
      simp [step, interrupt, s1, s2, State.goto, interrupted, givenUp, State.drawTicket,
        OsprdInfo.drawTicket, State.setDev, OsprdInfo.abandon, hincr, List.range_succ]
    exact ⟨_, run_step (run_step (run_step hr h1 trivial) h2 trivial) h3 trivial⟩

/-- The first process releases the lock, the second is granted it with ticket `1026`, the third
waits with ticket `1027`. -/
def overrun : List Action :=
  [.release (pid 0) 0, .next (pid 0), .acquire (pid 1) 1, .next (pid 1), .next (pid 1),
    .next (pid 1), .acquire (pid 2) 2]

theorem skipInvalid_append (l ts : List Nat) (n : Nat) :
    OsprdInfo.skipInvalid (l ++ ts) n = OsprdInfo.skipInvalid ts (OsprdInfo.skipInvalid l n) := by
  induction l generalizing n with
  | nil => rfl
  | cons t l ih => exact ih _

theorem skipInvalid_of_lt {l : List Nat} {n : Nat} (h : ∀ t ∈ l, t < n) :
    OsprdInfo.skipInvalid l n = n := by
  induction l with
  | nil => rfl
  | cons t l ih =>
    have ht := h t List.mem_cons_self
    rw [OsprdInfo.skipInvalid, if_neg (by omega)]
    exact ih fun u hu => h u (List.mem_cons_of_mem _ hu)

/-- The step abandons no ticket silently (`-EDEADLK` after the ticket was
drawn), and none whose successor is already recorded as invalid. -/
def leavesNoHole (s : State) : Action → Bool
  | .next p =>
    match s.pc p with
    | .warTest _ _ => (p : Int) ∉ s.dev.readLockPidList
    | _ => true
  | .signal p =>
    match s.pc p with
    | .blocked _ t => t + 1 ∉ s.dev.invalidPidList
    | _ => true
  | _ => true

theorem orderly_of_leavesNoHole {w : File → Bool} {s s' : State} {a : Action} {r : Option Ret}
    (h : leavesNoHole s a = true) (hs : step w s a = some (s', r)) :
    Orderly (queueOf s) (moveOf s a) := by
  cases a with
  | acquire p f => simp only [moveOf]; split <;> trivial
  | next p =>
    simp only [leavesNoHole] at h
    cases hp : s.pc p with simp only [moveOf, hp]
    | warTest f t =>
      rw [hp] at h
      rw [if_neg (of_decide_eq_true h)]
      trivial
    | readTail f t => split <;> trivial
    | _ => trivial
  | signal p =>
    simp only [leavesNoHole] at h
    simp only [step, interrupt] at hs
    cases hp : s.pc p with simp only [hp, reduceCtorEq] at h hs
    | blocked f t =>
      intro u hu
      have hu : (s.pc p).slot = .waiting u := hu
      rw [hp] at hu
      cases hu
      exact of_decide_eq_true h
  | _ => trivial

/-- **No dead ticket**: in runs whose steps leave no hole and stay within the block, whenever
nobody is inside the final update, the queue is empty or the ticket served is waiting. -/
theorem tail_held {w : File → Bool} {h : List Action} {s : State}
    (hr : (lockSystem w).RunIf
      (fun s a => leavesNoHole s a = true ∧ withinRoom s a = true) h s)
    (hd : s.drawn < 2 ^ 32) (hf : ∀ p f t, s.pc p ≠ .finishing f t) :
    s.dev.ticketTail = s.dev.ticketHead ∨
      ∃ p, (s.pc p).waiting? = some s.dev.ticketTail := by
  have hlive : Live (queueOf s) := by
    refine hr.inv (I := fun h s => s.drawn < 2 ^ 32 → Counted s ∧ Ordered (queueOf s) ∧
      Within s ∧ Live (queueOf s)) ?_ ?_ hd |>.2.2.2
    · rintro s rfl -
      exact ⟨rfl, ordered_empty, Nat.zero_le _, live_empty⟩
    · rintro h s a s' ih ⟨hg, hroom⟩ ⟨-, r, hs⟩ hd
      obtain ⟨hc, ho, hi, hl⟩ := ih (lt_of_le_of_lt (step_drawn hs) hd)
      obtain ⟨hm, hc'⟩ := step_queue hc ho hi hs hd
      exact ⟨hc', ho.step hm, within_step hi hroom hs,
        hl.step ho (orderly_of_leavesNoHole hg hs) hm⟩
  obtain ⟨hc, ho, -⟩ := run_ordered (hr.mono fun _ _ hg => hg.2) hd
  rcases hlive.held ho with e | ⟨p, hp⟩
  · exact .inl (e.trans hc.symm)
  · refine .inr ⟨p, ?_⟩
    have hp : (s.pc p).ticket? = some s.dev.ticketTail := (Pc.ticket?_slot _).symm.trans hp
    cases hq : s.pc p with
    | finishing f t => exact absurd hq (hf p f t)
    | _ => simpa only [hq, Pc.ticket?] using hp

/-- A reader that holds the lock asks for a write lock on another file. -/
def readThenWrite : List Action :=
  [.acquire (pid 0) 0, .next (pid 0), .next (pid 0), .next (pid 0), .next (pid 0),
    .acquire (pid 0) 1, .next (pid 0)]

/-- The second acquire of `readThenWrite` draws a ticket and returns `-EDEADLK`;
the ticket is never served. -/
theorem tail_dead : ∃ h s, (lockSystem fun f => f == 1).Run h s ∧ s.drawn < 2 ^ 32 ∧
    (∀ p f t, s.pc p ≠ .finishing f t) ∧ s.dev.ticketTail ≠ s.dev.ticketHead ∧
    ∀ p, (s.pc p).waiting? ≠ some s.dev.ticketTail := by
  have he : (lockExec (fun f => f == 1) (fun _ _ => true) readThenWrite).isSome := by decide
  have hr := runIf_of_lockExec (G := fun _ _ => True) (fun _ _ _ => trivial) he
  have idle : ∀ p, ((lockExec _ _ readThenWrite).get he).pc p = .idle := fun p => by
    by_cases h : p = pid 0
    · subst h
      rfl
    · refine run_idle hr fun a ha => ?_
      have : a.actor? = some (pid 0) := by revert a; decide
      rw [this]
      exact fun e => h (Option.some.inj e).symm
  refine ⟨_, _, hr, show 2 < 2 ^ 32 by decide, fun p f t => ?_, show 1 ≠ 2 by decide, fun p => ?_⟩
  · rw [idle p]
    nofun
  · rw [idle p]
    nofun

/-- One reader in, one interrupted behind it, one waiting. -/
def waitingReader : List Action :=
  [.acquire (pid 0) 0, .acquire (pid 1) 1, .next (pid 1), .next (pid 1), .signal (pid 1),
    .acquire (pid 2) 2, .next (pid 0), .next (pid 0), .next (pid 0), .next (pid 0)]

theorem tail_held_readers : ∃ h s,
    (lockSystem fun _ => false).RunIf
      (fun s a => leavesNoHole s a = true ∧ withinRoom s a = true) h s ∧
    s.dev.ticketTail = 2 ∧ s.dev.ticketHead = 3 ∧ ∃ p, (s.pc p).waiting? = some 2 := by
  have he : (lockExec (fun _ => false) (fun s a => leavesNoHole s a && withinRoom s a)
    waitingReader).isSome := by decide
  have hr := runIf_of_lockExec (G := fun s a => leavesNoHole s a = true ∧ withinRoom s a = true)
    (fun _ _ h => Bool.and_eq_true_iff.1 h) he
  have h0 : ((lockExec _ _ waitingReader).get he).pc (pid 0) = .idle := rfl
  have h1 : ((lockExec _ _ waitingReader).get he).pc (pid 1) = .idle := rfl
  have h2 : ((lockExec _ _ waitingReader).get he).pc (pid 2) = .readWriteLock 2 2 := rfl
  have actors : ∀ a ∈ waitingReader.reverse, a.actor? = some (pid 0) ∨
      a.actor? = some (pid 1) ∨ a.actor? = some (pid 2) := by decide
  have hf : ∀ p f t, ((lockExec _ _ waitingReader).get he).pc p ≠ .finishing f t := by
    intro p f t
    by_cases e0 : p = pid 0
    · rw [e0, h0]
      nofun
    by_cases e1 : p = pid 1
    · rw [e1, h1]
      nofun
    by_cases e2 : p = pid 2
    · rw [e2, h2]
      nofun
    rw [run_idle hr fun a ha hap => ?_]
    · nofun
    rcases actors a ha with e | e | e
    · exact e0 (Option.some.inj (hap.symm.trans e))
    · exact e1 (Option.some.inj (hap.symm.trans e))
    · exact e2 (Option.some.inj (hap.symm.trans e))
  exact ⟨_, _, hr, rfl, rfl, (tail_held hr (show 3 < 2 ^ 32 by decide) hf).resolve_left
    (show ¬2 = 3 by decide)⟩

end OsLabs.Osprd
