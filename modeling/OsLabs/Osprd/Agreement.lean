import OsLabs.Lib.Observe
import OsLabs.Osprd.Calls

/-!
# The ramdisk lock: try-acquire against acquire

`TryAgrees` compares `OSPRDIOCTRYACQUIRE` with `OSPRDIOCACQUIRE` in one state:
the two return values, and after two grants every later call. Try-acquire tests
neither pid field, draws no ticket and leaves no pid behind. The two grants are
told apart by the writer that acquires again, by the invalid tickets that only
the final section of acquire steps over, and by a reader's pid that is in the
list once more. Where none of this can show the states stay `Twin`.
-/

namespace OsLabs.Osprd.Calls

open OsLabs.Osprd

/-- Try-acquire in `s` does what acquire would do there. -/
structure TryAgrees (w : File → Bool) (s : State) (p : Pid) (f : File) : Prop where
  grants : (tryAcquire w s p f).2 = some .ok ↔ (acquire w s p f).2 = some .ok
  busy : (tryAcquire w s p f).2 = some .eBusy ↔
    (acquire w s p f).2 = none ∨ (acquire w s p f).2 = some .eDeadlk
  later : (tryAcquire w s p f).2 = some .ok → (acquire w s p f).2 = some .ok →
    Alike (step w) (acquire w s p f).1 (tryAcquire w s p f).1

/-- The condition under which they agree: the lock is busy, or a reader gets it
whose pid makes no difference to the list while no call is blocked and no ticket invalid. -/
def tryMeets (w : File → Bool) (s : State) (p : Pid) (f : File) : Prop :=
  s.dev.tryBusy (w f) = true ∨
    w f = false ∧ s.dev.nWriteLock = 0 ∧ (p : Int) ≠ s.dev.writeLockPid ∧
      (s.dev.readLockPidList.head? = some (p : Int) ∨ ∀ g, w g = false) ∧
      s.dev.invalidPidList = [] ∧ ∀ q, s.blocked q = none

/-! ## Tickets are 32-bit numbers -/

theorem incr_lt (t : Nat) : incr t < 2 ^ 32 := Nat.mod_lt _ (by decide)

theorem incr_inj {t u : Nat} (ht : t < 2 ^ 32) (hu : u < 2 ^ 32) : incr t = incr u ↔ t = u := by
  unfold incr
  omega

theorem skipInvalid_lt : ∀ {l : List Nat} {n : Nat}, n < 2 ^ 32 →
    OsprdInfo.skipInvalid l n < 2 ^ 32
  | [], _, h => h
  | t :: l, n, h => by
    rw [OsprdInfo.skipInvalid]
    split
    · exact skipInvalid_lt (incr_lt n)
    · exact skipInvalid_lt h

theorem skipInvalid_map : ∀ {l : List Nat} {n : Nat}, (∀ t ∈ l, t < 2 ^ 32) → n < 2 ^ 32 →
    OsprdInfo.skipInvalid (l.map incr) (incr n) = incr (OsprdInfo.skipInvalid l n)
  | [], _, _, _ => rfl
  | t :: l, n, hl, hn => by
    have ht := hl t List.mem_cons_self
    have hl' : ∀ u ∈ l, u < 2 ^ 32 := fun u hu => hl u (List.mem_cons_of_mem _ hu)
    simp only [List.map_cons, OsprdInfo.skipInvalid, incr_inj ht hn]
    split
    · exact skipInvalid_map hl' (incr_lt n)
    · exact skipInvalid_map hl' hn

/-- The tickets of the device are 32-bit numbers. -/
structure DevFits (d : OsprdInfo) : Prop where
  head : d.ticketHead < 2 ^ 32
  tail : d.ticketTail < 2 ^ 32
  invalid : ∀ t ∈ d.invalidPidList, t < 2 ^ 32

/-- All tickets of the state are 32-bit numbers. -/
structure Fits (s : State) : Prop where
  dev : DevFits s.dev
  blocked : ∀ p f t, s.blocked p = some (f, t) → t < 2 ^ 32

section

variable {d : OsprdInfo} (b : Bool) (p : Int)

theorem DevFits.drawTicket (h : DevFits d) : DevFits d.drawTicket :=
  ⟨incr_lt _, h.tail, h.invalid⟩

theorem DevFits.grant (h : DevFits d) : DevFits (d.grant b p) :=
  ⟨by rw [OsprdInfo.grant_ticketHead]; exact h.head,
    by rw [OsprdInfo.grant_ticketTail]; exact h.tail,
    by rw [OsprdInfo.grant_invalidPidList]; exact h.invalid⟩

theorem DevFits.tryGrant (h : DevFits d) : DevFits (d.tryGrant b) :=
  ⟨by rw [OsprdInfo.tryGrant_ticketHead]; exact h.head,
    by rw [OsprdInfo.tryGrant_ticketTail]; exact h.tail,
    by rw [OsprdInfo.tryGrant_invalidPidList]; exact h.invalid⟩

theorem DevFits.release (h : DevFits d) : DevFits (d.release b) :=
  ⟨by rw [OsprdInfo.release_ticketHead]; exact h.head,
    by rw [OsprdInfo.release_ticketTail]; exact h.tail,
    by rw [OsprdInfo.release_invalidPidList]; exact h.invalid⟩

theorem DevFits.closeSection (h : DevFits d) : DevFits (d.closeSection b p) :=
  ⟨by rw [OsprdInfo.closeSection_ticketHead]; exact h.head,
    by rw [OsprdInfo.closeSection_ticketTail]; exact h.tail,
    by rw [OsprdInfo.closeSection_invalidPidList]; exact h.invalid⟩

theorem DevFits.finish (h : DevFits d) : DevFits d.finish :=
  ⟨h.head, skipInvalid_lt (incr_lt _), h.invalid⟩

theorem DevFits.abandon (h : DevFits d) {t : Nat} (ht : t < 2 ^ 32) : DevFits (d.abandon t) := by
  refine ⟨h.head, ?_, fun u hu => ?_⟩
  · simp only [OsprdInfo.abandon]
    split
    · exact incr_lt _
    · exact h.tail
  · rcases List.mem_append.mp hu with hu | hu
    · exact h.invalid u hu
    · rw [List.mem_singleton.mp hu]
      exact ht

end

section

variable {w : File → Bool} {s : State}

theorem Fits.setBlocked (h : Fits s) {d : OsprdInfo} {l : Finset File} {o : File → Int} {p : Pid}
    {c : Option (File × Nat)} (hd : DevFits d) (hc : ∀ f t, c = some (f, t) → t < 2 ^ 32) :
    Fits ⟨d, l, Function.update s.blocked p c, o⟩ := by
  refine ⟨hd, fun q f t hq => ?_⟩
  dsimp only at hq
  by_cases e : q = p
  · rw [e, Function.update_self] at hq
    exact hc f t hq
  · rw [Function.update_of_ne e] at hq
    exact h.blocked q f t hq

theorem Fits.step {s' : State} {c : Call} {r : Option Ret} (h : Fits s)
    (hs : step w s c = some (s', r)) : Fits s' := by
  cases c with
  | acquire p f =>
    simp only [Calls.step, Calls.acquire] at hs
    split at hs
    · split at hs
      · cases hs
        exact h
      · split at hs
        · cases hs
          exact ⟨h.dev.drawTicket, h.blocked⟩
        · split at hs <;> cases hs
          · exact ⟨(h.dev.drawTicket.grant _ _).finish, h.blocked⟩
          · refine h.setBlocked h.dev.drawTicket fun g t e => ?_
            cases e
            exact h.dev.head
    · cases hs
  | resume p =>
    simp only [Calls.step] at hs
    split at hs
    · split at hs <;> cases hs
      exact h.setBlocked (h.dev.grant _ _).finish fun _ _ e => by cases e
    · cases hs
  | interrupt p =>
    simp only [Calls.step] at hs
    split at hs <;> cases hs
    next f t hb => exact h.setBlocked (h.dev.abandon (h.blocked p f t hb)) fun _ _ e => by cases e
  | tryAcquire p f =>
    simp only [Calls.step, Calls.tryAcquire] at hs
    split at hs
    · split at hs <;> cases hs
      · exact h
      · exact ⟨h.dev.tryGrant _, h.blocked⟩
    · cases hs
  | release p f =>
    simp only [Calls.step, Calls.release] at hs
    split at hs
    · split at hs <;> cases hs
      · exact ⟨h.dev.release _, h.blocked⟩
      · exact h
    · cases hs
  | closeLast p f =>
    simp only [Calls.step, Calls.closeLast] at hs
    split at hs
    · split at hs <;> cases hs
      · exact ⟨h.dev.closeSection _ _, h.blocked⟩
      · exact h
    · cases hs

theorem Fits.after (h : Fits s) (c : Call) : Fits (OsLabs.after (Calls.step w) s c) := by
  rw [OsLabs.after]
  cases hs : Calls.step w s c with
  | none => exact h
  | some x => exact h.step hs

/-- Every state of a run has 32-bit tickets. -/
theorem fits_of_run {h : List Call} (hr : (callSystem w).Run h s) : Fits s := by
  refine hr.inv (I := fun _ s => Fits s) ?_ ?_
  · rintro s rfl
    exact ⟨⟨by decide, by decide, nofun⟩, nofun⟩
  · rintro h s c s' ih - ⟨r, hs⟩
    exact ih.step hs

end

/-! ## Where the two grants make no difference -/

/-- Two pid lists with one head and the same pids behind it, but for the head's own. -/
def SameBehindHead (l m : List Int) : Prop :=
  l.head? = m.head? ∧ ∀ q, l.head? ≠ some q → l.count q = m.count q

theorem SameBehindHead.mem {l m : List Int} (h : SameBehindHead l m) (q : Int) :
    q ∈ l ↔ q ∈ m := by
  by_cases hq : l.head? = some q
  · exact iff_of_true (List.mem_of_head? hq) (List.mem_of_head? (h.1 ▸ hq))
  · rw [← List.count_pos_iff, ← List.count_pos_iff, h.2 q hq]

theorem SameBehindHead.append {l m : List Int} (h : SameBehindHead l m) (p : Int) :
    SameBehindHead (l ++ [p]) (m ++ [p]) := by
  obtain ⟨hh, hc⟩ := h
  refine ⟨by rw [List.head?_append, List.head?_append, hh], fun q hq => ?_⟩
  rw [List.count_append, List.count_append, hc q fun e => hq ?_]
  rw [List.head?_append, e]
  rfl

theorem head?_unlinkReader (p : Int) (l : List Int) :
    (OsprdInfo.unlinkReader p l).head? = l.head? := by
  cases l with
  | nil => rfl
  | cons a l =>
    rw [OsprdInfo.unlinkReader]
    split <;> rfl

theorem SameBehindHead.unlink {l m : List Int} (h : SameBehindHead l m) (p : Int) :
    SameBehindHead (OsprdInfo.unlinkReader p l) (OsprdInfo.unlinkReader p m) := by
  by_cases hp : l.head? = some p
  · obtain ⟨l', rfl⟩ := List.head?_eq_some_iff.mp hp
    obtain ⟨m', rfl⟩ := List.head?_eq_some_iff.mp (h.1 ▸ hp)
    simpa only [OsprdInfo.unlinkReader, if_true] using h
  · refine ⟨by rw [head?_unlinkReader, head?_unlinkReader, h.1], fun q hq => ?_⟩
    rw [head?_unlinkReader] at hq
    rw [erase_of_head?_ne hp, erase_of_head?_ne (h.1 ▸ hp), List.count_erase, List.count_erase,
      h.2 q hq]

/-- The device behind a granted acquire (`d`) and behind a granted try-acquire (`e`). -/
structure TwinDev (w : File → Bool) (d e : OsprdInfo) : Prop where
  head : d.ticketHead = incr e.ticketHead
  tail : d.ticketTail = incr e.ticketTail
  invalid : d.invalidPidList = e.invalidPidList.map incr
  writers : d.nWriteLock = e.nWriteLock
  readers : d.nReadLock = e.nReadLock
  write_pid : d.writeLockPid = e.writeLockPid
  pids : (∀ g, w g = false) ∨ SameBehindHead d.readLockPidList e.readLockPidList

section

variable {w : File → Bool} {d e : OsprdInfo} (b : Bool) (p : Int)

theorem TwinDev.condition (h : TwinDev w d e) (hf : DevFits e) {t : Nat} (ht : t < 2 ^ 32) :
    d.condition b (incr t) = e.condition b t := by
  have : (incr t == d.ticketTail) = (t == e.ticketTail) := by
    rw [h.tail, Bool.eq_iff_iff, beq_iff_eq, beq_iff_eq, incr_inj ht hf.tail]
  rw [OsprdInfo.condition, OsprdInfo.condition, this, OsprdInfo.lockFree, OsprdInfo.lockFree,
    h.writers, h.readers]

theorem TwinDev.tryBusy (h : TwinDev w d e) (hf : DevFits e) : d.tryBusy b = e.tryBusy b := by
  have h1 : (d.ticketTail != d.ticketHead) = (e.ticketTail != e.ticketHead) := by
    rw [h.tail, h.head, Bool.eq_iff_iff, bne_iff_ne, bne_iff_ne, Ne, incr_inj hf.tail hf.head]
  have h2 : (d.ticketHead != d.ticketTail) = (e.ticketHead != e.ticketTail) := by
    rw [bne_comm, h1, bne_comm]
  rw [OsprdInfo.tryBusy, OsprdInfo.tryBusy, h1, h2, h.writers, h.readers]

/-- A writer meets its own read lock in both or in none. -/
theorem TwinDev.mem_pids (h : TwinDev w d e) {f : File} :
    (w f = true ∧ p ∈ d.readLockPidList) ↔ w f = true ∧ p ∈ e.readLockPidList := by
  refine and_congr_right fun hf => ?_
  rcases h.pids with hno | hs
  · rw [hno f] at hf
    cases hf
  · exact hs.mem p

theorem TwinDev.drawTicket (h : TwinDev w d e) : TwinDev w d.drawTicket e.drawTicket :=
  ⟨congrArg incr h.head, h.tail, h.invalid, h.writers, h.readers, h.write_pid, h.pids⟩

theorem TwinDev.grant (h : TwinDev w d e) : TwinDev w (d.grant b p) (e.grant b p) := by
  cases b with
  | true =>
    exact ⟨h.head, h.tail, h.invalid, congrArg (· + 1) h.writers, h.readers, rfl, h.pids⟩
  | false =>
    exact ⟨h.head, h.tail, h.invalid, h.writers, congrArg (· + 1) h.readers, h.write_pid,
      h.pids.imp_right (·.append p)⟩

theorem TwinDev.finish (h : TwinDev w d e) (hf : DevFits e) : TwinDev w d.finish e.finish := by
  refine ⟨h.head, ?_, h.invalid, h.writers, h.readers, h.write_pid, h.pids⟩
  simp only [OsprdInfo.finish]
  rw [h.tail, h.invalid, skipInvalid_map hf.invalid (incr_lt _)]

theorem TwinDev.abandon (h : TwinDev w d e) (hf : DevFits e) {t : Nat} (ht : t < 2 ^ 32) :
    TwinDev w (d.abandon (incr t)) (e.abandon t) := by
  refine ⟨h.head, ?_, ?_, h.writers, h.readers, h.write_pid, h.pids⟩
  · simp only [OsprdInfo.abandon]
    rw [h.tail, if_congr (incr_inj hf.tail ht) rfl rfl, apply_ite incr]
  · simp only [OsprdInfo.abandon]
    rw [h.invalid, List.map_append, List.map_singleton]

theorem TwinDev.tryGrant (h : TwinDev w d e) : TwinDev w (d.tryGrant b) (e.tryGrant b) := by
  cases b with
  | true => exact ⟨h.head, h.tail, h.invalid, congrArg (· + 1) h.writers, h.readers, h.write_pid,
      h.pids⟩
  | false => exact ⟨h.head, h.tail, h.invalid, h.writers, congrArg (· + 1) h.readers,
      h.write_pid, h.pids⟩

theorem TwinDev.release (h : TwinDev w d e) : TwinDev w (d.release b) (e.release b) := by
  cases b with
  | true => exact ⟨h.head, h.tail, h.invalid, congrArg (· - 1) h.writers, h.readers, h.write_pid,
      h.pids⟩
  | false => exact ⟨h.head, h.tail, h.invalid, h.writers, congrArg (· - 1) h.readers,
      h.write_pid, h.pids⟩

theorem TwinDev.closeSection (h : TwinDev w d e) :
    TwinDev w (d.closeSection b p) (e.closeSection b p) := by
  cases b with
  | true => exact ⟨h.head, h.tail, h.invalid, congrArg (· - 1) h.writers, h.readers, rfl, h.pids⟩
  | false => exact ⟨h.head, h.tail, h.invalid, h.writers, congrArg (· - 1) h.readers,
      h.write_pid, h.pids.imp_right (·.unlink p)⟩

end

/-- The states behind the two grants; the tickets of `s` are those of `t` counted on by one. -/
structure Twin (w : File → Bool) (s t : State) : Prop where
  dev : TwinDev w s.dev t.dev
  locked : s.locked = t.locked
  blocked : ∀ q, s.blocked q = (t.blocked q).map (Prod.map id incr)
  fits : Fits t

section

variable {w : File → Bool} {s t : State}

theorem Twin.blocked_none (h : Twin w s t) (p : Pid) :
    s.blocked p = none ↔ t.blocked p = none := by
  rw [h.blocked, Option.map_eq_none_iff]

/-- New devices and marks, the blocked calls untouched. -/
theorem Twin.update (h : Twin w s t) {d e : OsprdInfo} {l : Finset File} {o o' : File → Int}
    (hd : TwinDev w d e) (hf : DevFits e) :
    Twin w ⟨d, l, s.blocked, o⟩ ⟨e, l, t.blocked, o'⟩ :=
  ⟨hd, rfl, h.blocked, ⟨hf, h.fits.blocked⟩⟩

theorem Twin.updateBlocked (h : Twin w s t) {d e : OsprdInfo} {l : Finset File}
    {o o' : File → Int} (p : Pid) {c : Option (File × Nat)} (hd : TwinDev w d e) (hf : DevFits e)
    (hc : ∀ f u, c = some (f, u) → u < 2 ^ 32) :
    Twin w ⟨d, l, Function.update s.blocked p (c.map (Prod.map id incr)), o⟩
      ⟨e, l, Function.update t.blocked p c, o'⟩ := by
  refine ⟨hd, rfl, fun q => ?_, h.fits.setBlocked hf hc⟩
  dsimp only
  by_cases e : q = p
  · rw [e, Function.update_self, Function.update_self]
  · rw [Function.update_of_ne e, Function.update_of_ne e, h.blocked]

theorem Twin.acquire (h : Twin w s t) (p : Pid) (f : File) :
    (acquire w s p f).2 = (acquire w t p f).2 ∧
      Twin w (acquire w s p f).1 (acquire w t p f).1 := by
  have hd := h.dev.drawTicket
  have hf := h.fits.dev.drawTicket
  have hc := hd.condition (w f) hf h.fits.dev.head
  unfold Calls.acquire
  rw [h.dev.write_pid]
  split
  · exact ⟨rfl, h⟩
  · dsimp only
    rw [if_congr (hd.mem_pids p) rfl rfl, h.dev.head, hc]
    split
    · rw [← h.locked]
      exact ⟨rfl, h.update hd hf⟩
    · split
      · simp only [grantAndFinish, State.take, h.locked]
        exact ⟨trivial, h.update ((hd.grant _ _).finish (hf.grant _ _)) (hf.grant _ _).finish⟩
      · simp only [h.locked]
        refine ⟨trivial, h.updateBlocked p (c := some (f, t.dev.ticketHead)) hd hf fun g u e => ?_⟩
        cases e
        exact h.fits.dev.head

theorem Twin.tryAcquire (h : Twin w s t) (p : Pid) (f : File) :
    (tryAcquire w s p f).2 = (tryAcquire w t p f).2 ∧
      Twin w (tryAcquire w s p f).1 (tryAcquire w t p f).1 := by
  unfold Calls.tryAcquire
  rw [h.dev.tryBusy _ h.fits.dev]
  split
  · exact ⟨rfl, h⟩
  · simp only [State.take, h.locked]
    exact ⟨trivial, h.update (h.dev.tryGrant _) (h.fits.dev.tryGrant _)⟩

theorem Twin.release (h : Twin w s t) (f : File) :
    (release w s f).2 = (release w t f).2 ∧ Twin w (release w s f).1 (release w t f).1 := by
  unfold Calls.release
  rw [h.locked]
  split
  · exact ⟨rfl, h.update (h.dev.release _) (h.fits.dev.release _)⟩
  · exact ⟨rfl, h⟩

theorem Twin.closeLast (h : Twin w s t) (p : Pid) (f : File) :
    (closeLast w s p f).2 = (closeLast w t p f).2 ∧
      Twin w (closeLast w s p f).1 (closeLast w t p f).1 := by
  unfold Calls.closeLast
  rw [h.locked]
  split
  · exact ⟨rfl, h.update (h.dev.closeSection _ _) (h.fits.dev.closeSection _ _)⟩
  · exact ⟨rfl, h⟩

/-- A blocked call that both states have ends alike: one ticket is the other counted on by one. -/
theorem Twin.blocked_some (h : Twin w s t) {p : Pid} {f : File} {u : Nat}
    (hb : t.blocked p = some (f, u)) : s.blocked p = some (f, incr u) ∧ u < 2 ^ 32 :=
  ⟨by rw [h.blocked, hb]; rfl, h.fits.blocked p f u hb⟩

/-- **One call keeps twins**, with equal answers. -/
theorem Twin.step (h : Twin w s t) (c : Call) :
    answer (Calls.step w) s c = answer (Calls.step w) t c ∧
      Twin w (after (Calls.step w) s c) (after (Calls.step w) t c) := by
  -- a call that a process inside a blocked call cannot make
  have call : ∀ {p : Pid} {x y : State × Option Ret}, x.2 = y.2 ∧ Twin w x.1 y.1 →
      (∀ u : State, u = s → Calls.step w u c = if u.blocked p = none then some x else none) →
      (∀ u : State, u = t → Calls.step w u c = if u.blocked p = none then some y else none) →
      answer (Calls.step w) s c = answer (Calls.step w) t c ∧
        Twin w (after (Calls.step w) s c) (after (Calls.step w) t c) := by
    intro p x y hxy hs ht
    simp only [answer, after, hs s rfl, ht t rfl, h.blocked_none p]
    split
    · exact ⟨congrArg some hxy.1, hxy.2⟩
    · exact ⟨rfl, h⟩
  cases c with
  | acquire p f => exact call (h.acquire p f) (fun _ e => by rw [e]; rfl) fun _ e => by rw [e]; rfl
  | tryAcquire p f =>
    exact call (h.tryAcquire p f) (fun _ e => by rw [e]; rfl) fun _ e => by rw [e]; rfl
  | release p f => exact call (h.release f) (fun _ e => by rw [e]; rfl) fun _ e => by rw [e]; rfl
  | closeLast p f =>
    exact call (h.closeLast p f) (fun _ e => by rw [e]; rfl) fun _ e => by rw [e]; rfl
  | resume p =>
    cases hb : t.blocked p with
    | none =>
      have hs := (h.blocked_none p).mpr hb
      simp only [answer, after, Calls.step, hb, hs]
      exact ⟨trivial, h⟩
    | some x =>
      obtain ⟨f, u⟩ := x
      obtain ⟨hs, hu⟩ := h.blocked_some hb
      simp only [answer, after, Calls.step, hb, hs, h.dev.condition (w f) h.fits.dev hu]
      split
      · simp only [grantAndFinish, State.take, h.locked]
        refine ⟨rfl, h.updateBlocked p (c := none) ((h.dev.grant _ _).finish ?_) ?_
          fun _ _ e => by cases e⟩
        · exact h.fits.dev.grant _ _
        · exact (h.fits.dev.grant _ _).finish
      · exact ⟨rfl, h⟩
  | interrupt p =>
    cases hb : t.blocked p with
    | none =>
      have hs := (h.blocked_none p).mpr hb
      simp only [answer, after, Calls.step, hb, hs]
      exact ⟨trivial, h⟩
    | some x =>
      obtain ⟨f, u⟩ := x
      obtain ⟨hs, hu⟩ := h.blocked_some hb
      simp only [answer, after, Calls.step, hb, hs, h.locked]
      exact ⟨rfl, h.updateBlocked p (c := none) (h.dev.abandon h.fits.dev hu)
        (h.fits.dev.abandon hu) fun _ _ e => by cases e⟩

theorem Twin.alike (h : Twin w s t) : Alike (Calls.step w) s t :=
  Alike.of_rel (fun _ _ c h => h.step c) h

end

/-! ## Where the two grants are told apart -/

section

variable {w : File → Bool} {s : State} {p : Pid} {f : File}

theorem step_acquire (h : s.blocked p = none) :
    step w s (.acquire p f) = some (acquire w s p f) := if_pos h

theorem not_alike_of_acquire {t : State} (hs : s.blocked p = none) (ht : t.blocked p = none)
    (hne : (acquire w s p f).2 ≠ (acquire w t p f).2) : ¬ Alike (step w) s t :=
  not_alike_of_answer (step_acquire hs) (step_acquire ht) hne

/-- The reader's acquire is granted when its ticket is served and nobody writes. -/
theorem acquire_reader (hf : w f = false) (hp : (p : Int) ≠ s.dev.writeLockPid)
    (hw : s.dev.nWriteLock = 0) (ht : s.dev.ticketHead = s.dev.ticketTail) :
    acquire w s p f =
      (s.take p f (((s.dev.drawTicket).grant false p).finish), some .ok) := by
  have hc : s.dev.drawTicket.condition false s.dev.ticketHead = true := by
    simp [OsprdInfo.condition, OsprdInfo.lockFree, OsprdInfo.drawTicket, hw, ht]
  rw [acquire, if_neg hp, hf]
  dsimp only
  rw [if_neg (by simp), if_pos hc, grantAndFinish, hf]

/-- It waits when its ticket is not served. -/
theorem acquire_reader_blocks (hf : w f = false) (hp : (p : Int) ≠ s.dev.writeLockPid)
    (ht : s.dev.ticketHead ≠ s.dev.ticketTail) : (acquire w s p f).2 = none := by
  have hc : ¬ s.dev.drawTicket.condition false s.dev.ticketHead = true := by
    simp [OsprdInfo.condition, OsprdInfo.drawTicket, ht]
  rw [acquire, if_neg hp, hf]
  dsimp only
  rw [if_neg (by simp), if_neg hc]

/-- A ticket that the invalid list steps over. -/
theorem exists_skipped {l : List Nat} (hl : ∀ t ∈ l, t < 2 ^ 32) (hne : l ≠ []) :
    ∃ t < 2 ^ 32, OsprdInfo.skipInvalid l t ≠ t := by
  obtain ⟨t, l, rfl⟩ := List.exists_cons_of_ne_nil hne
  have ht := hl t List.mem_cons_self
  have hne : incr t ≠ t := by
    unfold incr
    omega
  by_cases h : OsprdInfo.skipInvalid l (incr t) = t
  · -- all the way round: then the next ticket is moved
    refine ⟨incr t, incr_lt t, ?_⟩
    rw [OsprdInfo.skipInvalid, if_neg hne.symm, h]
    exact hne.symm
  · refine ⟨t, ht, ?_⟩
    rwa [OsprdInfo.skipInvalid, if_pos rfl]

/-- A reader's grant with invalid tickets (`s`) and without the steps over them (`t`). -/
structure Skipping (w : File → Bool) (p : Pid) (f : File) (l : List Nat) (s t : State) : Prop where
  reader : w f = false
  free : s.blocked p = none ∧ t.blocked p = none
  invalid : s.dev.invalidPidList = l ∧ t.dev.invalidPidList = l
  writers : s.dev.nWriteLock = 0 ∧ t.dev.nWriteLock = 0
  write_pid : (p : Int) ≠ s.dev.writeLockPid ∧ (p : Int) ≠ t.dev.writeLockPid
  served : t.dev.ticketHead = t.dev.ticketTail
  head : s.dev.ticketHead = incr t.dev.ticketTail
  tail : s.dev.ticketTail = OsprdInfo.skipInvalid l (incr t.dev.ticketTail)

theorem Skipping.not_alike {l : List Nat} {t : State} (hl : ∀ t ∈ l, t < 2 ^ 32) (hne : l ≠ [])
    (h : Skipping w p f l s t) : ¬ Alike (step w) s t := by
  obtain ⟨x, hx, hskip⟩ := exists_skipped hl hne
  -- the number of grants until the ticket `x` is up
  refine not_alike_of_descent (R := Skipping w p f l)
    (fun _ t => (x + 2 ^ 32 - incr t.dev.ticketTail) % 2 ^ 32) (fun s t h => ?_) h
  have ht := step_acquire (f := f) (w := w) h.free.2
  rw [acquire_reader h.reader h.write_pid.2 h.writers.2 h.served] at ht
  have hs := step_acquire (f := f) (w := w) h.free.1
  by_cases hk : OsprdInfo.skipInvalid l (incr t.dev.ticketTail) = incr t.dev.ticketTail
  · have hst : s.dev.ticketHead = s.dev.ticketTail := by rw [h.head, h.tail, hk]
    rw [acquire_reader h.reader h.write_pid.1 h.writers.1 hst] at hs
    refine .inr ⟨[.acquire p f], ?_⟩
    simp only [afterAll, List.foldl_cons, List.foldl_nil, after_of_some hs, after_of_some ht]
    constructor
    · refine ⟨h.reader, h.free, h.invalid, h.writers, h.write_pid, ?_, ?_, ?_⟩
      · change incr t.dev.ticketHead =
          OsprdInfo.skipInvalid t.dev.invalidPidList (incr t.dev.ticketTail)
        rw [h.invalid.2, h.served, hk]
      · change incr s.dev.ticketHead =
          incr (OsprdInfo.skipInvalid t.dev.invalidPidList (incr t.dev.ticketTail))
        rw [h.invalid.2, hk, h.head]
      · change OsprdInfo.skipInvalid s.dev.invalidPidList (incr s.dev.ticketTail) =
          OsprdInfo.skipInvalid l (incr (OsprdInfo.skipInvalid t.dev.invalidPidList
            (incr t.dev.ticketTail)))
        rw [h.invalid.1, h.invalid.2, h.tail]
    · change (x + 2 ^ 32 - incr (OsprdInfo.skipInvalid t.dev.invalidPidList
        (incr t.dev.ticketTail))) % 2 ^ 32 < _
      have hlt := incr_lt t.dev.ticketTail
      have hxt : x ≠ incr t.dev.ticketTail := fun e => hskip (by rw [e, hk])
      rw [h.invalid.2, hk, incr.eq_1 (incr _)]
      omega
  · left
    have hst : s.dev.ticketHead ≠ s.dev.ticketTail := by
      rw [h.head, h.tail]
      exact Ne.symm hk
    refine not_alike_of_acquire (f := f) h.free.1 h.free.2 ?_
    rw [acquire_reader_blocks h.reader h.write_pid.1 hst,
      acquire_reader h.reader h.write_pid.2 h.writers.2 h.served]
    nofun

/-- The interrupt of a call that was blocked across the grants leaves an invalid ticket. -/
theorem not_alike_of_blocked {t : State} (h : Skipping w p f [] s t) {q : Pid} {g : File}
    {u : Nat} (hu : u < 2 ^ 32) (hs : s.blocked q = some (g, u))
    (hq : t.blocked q = some (g, u)) : ¬ Alike (step w) s t := by
  intro hal
  have hpq : p ≠ q := by
    rintro rfl
    rw [h.free.1] at hs
    cases hs
  have hal := hal.after (.interrupt q)
  have hs' : step w s (.interrupt q) = some
      (⟨s.dev.abandon u, s.locked, Function.update s.blocked q none, s.holder⟩,
        some .eRestartSys) := by
    simp only [step, hs]
  have ht' : step w t (.interrupt q) = some
      (⟨t.dev.abandon u, t.locked, Function.update t.blocked q none, t.holder⟩,
        some .eRestartSys) := by
    simp only [step, hq]
  rw [after_of_some hs', after_of_some ht'] at hal
  have hfree : Function.update s.blocked q none p = none ∧
      Function.update t.blocked q none p = none := by
    rw [Function.update_of_ne hpq, Function.update_of_ne hpq]
    exact h.free
  have htail : s.dev.ticketTail = incr t.dev.ticketTail := h.tail
  by_cases hut : t.dev.ticketTail = u
  · -- its ticket is the one served behind try-acquire
    refine not_alike_of_acquire (p := p) (f := f) hfree.1 hfree.2 ?_ hal
    have hne : ¬ s.dev.ticketTail = u := by
      rw [htail, ← hut, incr]
      omega
    have hs : (s.dev.abandon u).ticketHead = (s.dev.abandon u).ticketTail := by
      simp only [OsprdInfo.abandon, if_neg hne]
      exact h.head.trans htail.symm
    have ht : (t.dev.abandon u).ticketHead ≠ (t.dev.abandon u).ticketTail := by
      simp only [OsprdInfo.abandon, if_pos hut, h.served]
      rw [incr]
      omega
    have h1 := acquire_reader (s := ⟨s.dev.abandon u, s.locked,
      Function.update s.blocked q none, s.holder⟩) h.reader h.write_pid.1 h.writers.1 hs
    have h2 := acquire_reader_blocks (s := ⟨t.dev.abandon u, t.locked,
      Function.update t.blocked q none, t.holder⟩) h.reader h.write_pid.2 ht
    rw [h1, h2]
    intro e
    cases e
  · refine Skipping.not_alike (p := p) (f := f) (l := [u]) (by simpa using hu) (by simp) ?_ hal
    refine ⟨h.reader, hfree, ?_, h.writers, h.write_pid, ?_, ?_, ?_⟩
    · simp only [OsprdInfo.abandon, h.invalid.1, h.invalid.2]
      exact ⟨rfl, rfl⟩
    · simp only [OsprdInfo.abandon, if_neg hut, h.served]
    · simp only [OsprdInfo.abandon, if_neg hut, h.head]
    · simp only [OsprdInfo.abandon, if_neg hut, htail, OsprdInfo.skipInvalid,
        eq_comm (a := u)]

/-- A reader's grant that left its pid at the end of the list (`s`) and one that did not (`t`). -/
structure OncePlus (w : File → Bool) (p : Pid) (f : File) (s t : State) : Prop where
  reader : w f = false
  free : s.blocked p = none ∧ t.blocked p = none
  locked : f ∈ s.locked ∧ f ∈ t.locked
  writers : s.dev.nWriteLock = 0 ∧ t.dev.nWriteLock = 0
  write_pid : (p : Int) ≠ s.dev.writeLockPid ∧ (p : Int) ≠ t.dev.writeLockPid
  served : s.dev.ticketHead = s.dev.ticketTail ∧ t.dev.ticketHead = t.dev.ticketTail
  head : t.dev.readLockPidList.head? ≠ some (p : Int)
  pids : s.dev.readLockPidList = t.dev.readLockPidList ++ [(p : Int)]

/-- A reader closes its file and tries to lock it again. -/
theorem close_and_try (hf : w f = false) (hb : s.blocked p = none) (hl : f ∈ s.locked)
    (hw : s.dev.nWriteLock = 0) (ht : s.dev.ticketHead = s.dev.ticketTail) :
    afterAll (step w) s [.closeLast p f, .tryAcquire p f] =
      { s with
        dev := { s.dev with
          nReadLock := s.dev.nReadLock
          readLockPidList := OsprdInfo.unlinkReader p s.dev.readLockPidList }
        holder := Function.update s.holder f p } := by
  simp [afterAll, after, step, hb, closeLast, hl, tryAcquire, OsprdInfo.closeSection, hf,
    OsprdInfo.tryBusy, hw, ht, State.take, OsprdInfo.tryGrant]

theorem OncePlus.not_alike {t : State} {g : File} (hg : w g = true) (h : OncePlus w p f s t) :
    ¬ Alike (step w) s t := by
  -- every round takes one more pid of the process out of both lists
  refine not_alike_of_descent (R := OncePlus w p f)
    (fun _ t => t.dev.readLockPidList.count (p : Int)) (fun s t h => ?_) h
  by_cases hp : (p : Int) ∈ t.dev.readLockPidList
  · right
    refine ⟨[.closeLast p f, .tryAcquire p f], ?_⟩
    rw [close_and_try h.reader h.free.1 h.locked.1 h.writers.1 h.served.1,
      close_and_try h.reader h.free.2 h.locked.2 h.writers.2 h.served.2]
    have hs : s.dev.readLockPidList.head? ≠ some (p : Int) := by
      rw [h.pids, List.head?_append_of_ne_nil _ (List.ne_nil_of_mem hp)]
      exact h.head
    constructor
    · refine ⟨h.reader, h.free, h.locked, h.writers, h.write_pid, h.served, ?_, ?_⟩
      · rw [head?_unlinkReader]
        exact h.head
      · rw [erase_of_head?_ne hs, erase_of_head?_ne h.head, h.pids, List.erase_append_left _ hp]
    · rw [erase_of_head?_ne h.head, List.count_erase_self]
      have := List.count_pos_iff.mpr hp
      omega
  · -- now a writer's acquire meets the pid in one list only
    left
    have hs : (p : Int) ∈ s.dev.readLockPidList := by
      rw [h.pids]
      exact List.mem_append_right _ (List.mem_singleton_self _)
    have h1 : (acquire w s p g).2 = some .eDeadlk := by
      rw [acquire, if_neg h.write_pid.1]
      exact congrArg Prod.snd (if_pos ⟨hg, hs⟩)
    have h2 : (acquire w t p g).2 ≠ some .eDeadlk := by
      rw [acquire, if_neg h.write_pid.2]
      dsimp only
      rw [if_neg fun e => hp e.2]
      split <;> intro e <;> cases e
    exact not_alike_of_acquire h.free.1 h.free.2 fun e => h2 (e ▸ h1)

end

/-! ## The two grants of one call -/

section

variable {w : File → Bool} {s : State} {p : Pid} {f : File}

theorem tryAcquire_busy (h : s.dev.tryBusy (w f) = true) :
    tryAcquire w s p f = (s, some .eBusy) := if_pos h

theorem tryAcquire_free (h : ¬ s.dev.tryBusy (w f) = true) :
    tryAcquire w s p f = (s.take p f (s.dev.tryGrant (w f)), some .ok) := if_neg h

/-- What holds where acquire is granted without blocking. -/
theorem acquire_ok (h : (acquire w s p f).2 = some .ok) :
    (p : Int) ≠ s.dev.writeLockPid ∧ ¬ (w f = true ∧ (p : Int) ∈ s.dev.readLockPidList) ∧
      s.dev.lockFree (w f) = true ∧ s.dev.ticketHead = s.dev.ticketTail ∧
      acquire w s p f = (grantAndFinish w s p f s.dev.drawTicket, some .ok) := by
  simp only [acquire] at h ⊢
  split at h
  · cases h
  · split at h
    · cases h
    · split at h
      · next hp hr hc =>
        have hc' := Bool.and_eq_true_iff.mp hc
        exact ⟨hp, hr, hc'.1, beq_iff_eq.mp hc'.2, by rw [if_neg hp, if_neg hr, if_pos hc]⟩
      · cases h

theorem acquire_busy (h : s.dev.tryBusy (w f) = true) :
    (acquire w s p f).2 = none ∨ (acquire w s p f).2 = some .eDeadlk := by
  have hc : ¬ s.dev.drawTicket.condition (w f) s.dev.ticketHead = true := by
    simp only [OsprdInfo.condition, OsprdInfo.lockFree, OsprdInfo.drawTicket, Bool.and_eq_true,
      beq_iff_eq, not_and]
    intro hfree ht
    cases hf : w f <;> simp [hf, OsprdInfo.tryBusy, ht] at h hfree <;> omega
  simp only [acquire, if_neg hc]
  split
  · exact .inr rfl
  · split
    · exact .inr rfl
    · exact .inl rfl

/-- A writer that try-acquire let in waits for itself; behind acquire it gets `-EDEADLK`. -/
theorem writer_not_alike (hf : w f = true) (hb : s.blocked p = none)
    (htry : ¬ s.dev.tryBusy (w f) = true) (hacq : (acquire w s p f).2 = some .ok) :
    ¬ Alike (step w) (acquire w s p f).1 (tryAcquire w s p f).1 := by
  obtain ⟨hp, hr, hfree, -, hacq⟩ := acquire_ok hacq
  rw [hacq, tryAcquire_free htry, hf]
  have h1 : (acquire w (grantAndFinish w s p f s.dev.drawTicket) p f).2 = some .eDeadlk := by
    refine congrArg Prod.snd (if_pos ?_)
    simp [grantAndFinish, State.take, OsprdInfo.finish, OsprdInfo.grant, hf]
  have h2 : (acquire w (s.take p f (s.dev.tryGrant true)) p f).2 = none := by
    have hw : s.dev.nWriteLock = 0 := by
      simp only [OsprdInfo.lockFree, hf, if_true, Bool.and_eq_true, beq_iff_eq] at hfree
      exact hfree.2
    have hp' : (p : Int) ≠ (s.take p f (s.dev.tryGrant true)).dev.writeLockPid := hp
    rw [acquire, if_neg hp']
    dsimp only
    rw [if_neg (fun e => hr ⟨hf, e.2⟩), if_neg]
    simp [OsprdInfo.condition, OsprdInfo.lockFree, OsprdInfo.drawTicket, State.take,
      OsprdInfo.tryGrant, hf, hw]
  refine not_alike_of_acquire (p := p) (f := f) hb hb ?_
  rw [h1, h2]
  intro e
  cases e

theorem tryMeets_of_alike (hfit : Fits s) (hb : s.blocked p = none)
    (htry : ¬ s.dev.tryBusy (w f) = true) (hacq : (acquire w s p f).2 = some .ok)
    (hal : Alike (step w) (acquire w s p f).1 (tryAcquire w s p f).1) : tryMeets w s p f := by
  cases hf : w f with
  | true => exact (writer_not_alike hf hb htry hacq hal).elim
  | false =>
    obtain ⟨hp, -, hfree, ht, -⟩ := acquire_ok hacq
    have hw : s.dev.nWriteLock = 0 := by simpa [OsprdInfo.lockFree, hf] using hfree
    rw [acquire_reader hf hp hw ht, tryAcquire_free htry, hf] at hal
    have hskip : Skipping w p f s.dev.invalidPidList
        (s.take p f (s.dev.drawTicket.grant false p).finish)
        (s.take p f (s.dev.tryGrant false)) :=
      ⟨hf, ⟨hb, hb⟩, ⟨rfl, rfl⟩, ⟨hw, hw⟩, ⟨hp, hp⟩, ht, congrArg incr ht, rfl⟩
    have hinv : s.dev.invalidPidList = [] := by
      by_contra hne
      exact hskip.not_alike hfit.dev.invalid hne hal
    have hnone : ∀ q, s.blocked q = none := by
      by_contra hno
      obtain ⟨q, hq⟩ := not_forall.mp hno
      obtain ⟨⟨g, u⟩, hq⟩ := Option.ne_none_iff_exists'.mp hq
      rw [hinv] at hskip
      exact not_alike_of_blocked hskip (hfit.blocked q g u hq) hq hq hal
    refine .inr ⟨hf, hw, hp, ?_, hinv, hnone⟩
    by_contra hno
    obtain ⟨hhead, hno⟩ := not_or.mp hno
    obtain ⟨g, hg⟩ := not_forall.mp hno
    refine OncePlus.not_alike (p := p) (f := f) (g := g) (Bool.not_eq_false _ ▸ hg) ?_ hal
    refine ⟨hf, ⟨hb, hb⟩, ⟨Finset.mem_insert_self .., Finset.mem_insert_self ..⟩, ⟨hw, hw⟩,
      ⟨hp, hp⟩, ⟨?_, ht⟩, hhead, rfl⟩
    change incr s.dev.ticketHead =
      OsprdInfo.skipInvalid s.dev.invalidPidList (incr s.dev.ticketTail)
    rw [hinv, ht]
    rfl

/-- A reader's two grants are twins when its pid and the invalid tickets make no difference. -/
theorem twin_of_reader (hfit : Fits s) (hinv : s.dev.invalidPidList = [])
    (hnone : ∀ q, s.blocked q = none)
    (hl : s.dev.readLockPidList.head? = some (p : Int) ∨ ∀ g, w g = false) :
    Twin w (s.take p f (s.dev.drawTicket.grant false p).finish)
      (s.take p f (s.dev.tryGrant false)) := by
  refine ⟨⟨rfl, ?_, ?_, rfl, rfl, rfl, ?_⟩, rfl, fun q => ?_,
    ⟨hfit.dev.tryGrant false, hfit.blocked⟩⟩
  · change OsprdInfo.skipInvalid s.dev.invalidPidList _ = _
    rw [hinv]
    rfl
  · change s.dev.invalidPidList = s.dev.invalidPidList.map incr
    rw [hinv, List.map_nil]
  · refine hl.symm.imp_right fun hh => ?_
    change SameBehindHead (s.dev.readLockPidList ++ [(p : Int)]) s.dev.readLockPidList
    have happ : (s.dev.readLockPidList ++ [(p : Int)]).head? = some (p : Int) := by
      rw [List.head?_append, hh]
      rfl
    refine ⟨happ.trans hh.symm, fun q hq => ?_⟩
    rw [happ] at hq
    rw [List.count_append, List.count_singleton, if_neg (by simpa using hq), Nat.add_zero]
  · change s.blocked q = (s.blocked q).map _
    rw [hnone q]
    rfl

/-- **Try-acquire agrees with acquire exactly when** the lock is busy, or a reader gets it
whose pid makes no difference to the list of readers while no call is blocked and no
ticket invalid: the same grants, the same refusals, and behind two grants the same
answers for ever. -/
theorem tryAgrees_iff (hfit : Fits s) (hb : s.blocked p = none) :
    TryAgrees w s p f ↔ tryMeets w s p f := by
  constructor
  · intro h
    by_cases htry : s.dev.tryBusy (w f) = true
    · exact .inl htry
    · have hok : (tryAcquire w s p f).2 = some .ok := by rw [tryAcquire_free htry]
      exact tryMeets_of_alike hfit hb htry (h.grants.mp hok) (h.later hok (h.grants.mp hok))
  · intro h
    by_cases htry : s.dev.tryBusy (w f) = true
    · have hacq := acquire_busy (p := p) htry
      have hne : (acquire w s p f).2 ≠ some .ok := by
        rcases hacq with e | e <;> rw [e] <;> intro h <;> cases h
      refine ⟨?_, ?_, fun _ e => (hne e).elim⟩
      · rw [tryAcquire_busy htry]
        exact iff_of_false (fun e => by cases e) hne
      · rw [tryAcquire_busy htry]
        exact iff_of_true rfl hacq
    · obtain ⟨hf, hw, hp, hl, hinv, hnone⟩ := h.resolve_left htry
      have ht : s.dev.ticketHead = s.dev.ticketTail := by
        simp only [OsprdInfo.tryBusy, hf, Bool.false_eq_true, if_false, Bool.or_eq_true, not_or,
          bne_iff_ne, not_not] at htry
        exact htry.2
      have hacq := acquire_reader (f := f) hf hp hw ht
      refine ⟨?_, ?_, fun _ _ => ?_⟩
      · rw [hacq, tryAcquire_free htry]
      · rw [hacq, tryAcquire_free htry]
        exact iff_of_false (fun e => by cases e) (by rintro (e | e) <;> cases e)
      · rw [hacq, tryAcquire_free htry, hf]
        exact (twin_of_reader hfit hinv hnone hl).alike

end

/-- A reader locks its first file. -/
def readerLocks : List Call := [.acquire (pid 0) 0]

/-- The reader tries to lock a second file. -/
theorem tryAgrees_readerLocks : ∃ s, (callSystem fun f => f == 1).Run readerLocks.reverse s ∧
    TryAgrees (fun f => f == 1) s (pid 0) 2 := by
  have he : (callExec (fun f => f == 1) (fun _ _ => true) readerLocks).isSome := by decide
  have hr := runIf_of_callExec (G := fun _ _ => True) (fun _ _ _ => trivial) he
  refine ⟨_, hr, (tryAgrees_iff (fits_of_run hr) rfl).mpr (.inr ?_)⟩
  exact ⟨rfl, rfl, show (1 : Int) ≠ 0 by decide, .inl rfl, rfl, fun _ => rfl⟩

/-- In the first state both calls let a writer in, but only behind acquire does the
writer's next acquire return `-EDEADLK`; behind try-acquire it waits for itself. -/
theorem writer_tries : ∃ s, (callSystem fun _ => true).Reachable s ∧
    (tryAcquire (fun _ => true) s (pid 0) 0).2 = some .ok ∧
    (acquire (fun _ => true) s (pid 0) 0).2 = some .ok ∧
    ¬ TryAgrees (fun _ => true) s (pid 0) 0 := by
  refine ⟨initial, ⟨[], .init rfl⟩, rfl, rfl, fun h => ?_⟩
  have := h.later rfl rfl [.acquire (pid 0) 0]
  revert this
  decide

end OsLabs.Osprd.Calls
