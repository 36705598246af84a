import OsLabs.Lib.Ring
import OsLabs.Osp2p.Writescan

/-!
# The task buffer

`readToTaskbuf` and `writeFromTaskbuf` on the ring buffer of a task. The two
counters are `unsigned` and run free modulo `2 ^ 32`; positions are taken modulo
`TASKBUFSIZ`, which does not divide `2 ^ 32`. `Buffers t sent q`: the bytes
`sent` have left the buffer, `q` is in it, and no counter has wrapped. Reads and
writes keep it as long as the counters stay below `2 ^ 32`.
-/

namespace OsLabs.Osp2p

def taskBufSiz : Nat := 100000

/-- The buffer of a `task_t`; `size_t` has 32 bits. -/
structure Task where
  buf : Nat → UInt8
  head : Nat
  tail : Nat
  totalWritten : Nat

inductive TbufResult where
  | tbufError
  | tbufEnd
  | tbufOk
  | tbufAgain
  deriving DecidableEq, Repr

/-- What becomes of one `read` or `write` that asks for some bytes. -/
inductive Io where
  /-- `-1` with `EINTR`, `EAGAIN` or `EWOULDBLOCK`. -/
  | again
  /-- `-1` with another error. -/
  | error
  /-- At most `k` bytes are moved; a read moves one at least, unless it is at the end. -/
  | upTo (k : Nat)
  deriving DecidableEq, Repr

namespace Task

variable (t : Task)

def headpos : Nat := t.head % taskBufSiz

def tailpos : Nat := t.tail % taskBufSiz

/-- The length that `read_to_taskbuf` passes to `read`. -/
def readCount : Nat := Ring.room taskBufSiz (t.head == t.tail) t.headpos t.tailpos

/-- The length that `write_from_taskbuf` passes to `write`. -/
def writeCount : Nat := Ring.filled taskBufSiz t.headpos t.tailpos

end Task

/-- `read_to_taskbuf`; `src` is what the descriptor has still to deliver. -/
def readToTaskbuf (t : Task) (src : Bytes) : Io → TbufResult × Task × Bytes
  | .again => (.tbufAgain, t, src)
  | .error => (.tbufError, t, src)
  | .upTo k =>
    let amt := min (max k 1) (min t.readCount src.length)
    if amt = 0 then (.tbufEnd, t, src)
    else
      (.tbufOk,
        { t with
          buf := Ring.store t.buf t.tailpos (src.take amt)
          tail := (t.tail + amt) % 2 ^ 32 },
        src.drop amt)

/-- `write_from_taskbuf`, with the bytes that it hands out. -/
def writeFromTaskbuf (t : Task) (io : Io) : TbufResult × Task × Bytes :=
  if t.head = t.tail then (.tbufEnd, t, [])
  else
    match io with
    | .again => (.tbufAgain, t, [])
    | .error => (.tbufError, t, [])
    | .upTo k =>
      let amt := min k t.writeCount
      if amt = 0 then (.tbufEnd, t, [])
      else
        (.tbufOk,
          { t with
            head := (t.head + amt) % 2 ^ 32
            totalWritten := (t.totalWritten + amt) % 2 ^ 32 },
          Ring.load t.buf t.headpos amt)

/-! ## Below the wrap-around -/

/-- `sent` has gone through the buffer and `q` is in it. -/
structure Buffers (t : Task) (sent q : Bytes) : Prop where
  head : t.head = sent.length
  tail : t.tail = sent.length + q.length
  small : sent.length + q.length < 2 ^ 32
  holds : Ring.Holds taskBufSiz t.buf sent.length q

section

variable {t t' : Task} {sent q src rest out : Bytes} {io : Io} {r : TbufResult}

theorem buffers_empty (h1 : t.head = 0) (h2 : t.tail = 0) : Buffers t [] [] :=
  ⟨h1, h2, by decide, Ring.holds_nil ..⟩

theorem Buffers.head_eq_tail (h : Buffers t sent q) : t.head = t.tail ↔ q = [] := by
  rw [h.head, h.tail, ← List.length_eq_zero_iff]
  omega

theorem Buffers.room (h : Buffers t sent q) :
    t.tailpos + t.readCount ≤ taskBufSiz ∧ q.length + t.readCount ≤ taskBufSiz ∧
      (q = [] → 0 < t.readCount) := by
  have he : (t.head == t.tail) = decide (q.length = 0) := by
    rw [Bool.eq_iff_iff, beq_iff_eq, decide_eq_true_eq, List.length_eq_zero_iff]
    exact h.head_eq_tail
  have hs := Ring.room_spec sent.length h.holds.length_le
    (show 0 < taskBufSiz by decide) he
  rw [Task.readCount, Task.tailpos, Task.headpos, h.tail, h.head]
  rw [h.tail, h.head] at hs
  exact ⟨hs.1, hs.2.1, fun hq => hs.2.2 (by rw [hq]; rfl)⟩

theorem Buffers.put (h : Buffers t sent q) {c : Bytes} (hc : c.length ≤ t.readCount)
    (hsmall : sent.length + q.length + c.length < 2 ^ 32) :
    Buffers { t with buf := Ring.store t.buf t.tailpos c, tail := (t.tail + c.length) % 2 ^ 32 }
      sent (q ++ c) := by
  obtain ⟨hfit, hroom, -⟩ := h.room
  refine ⟨h.head, ?_, ?_, ?_⟩
  · dsimp only
    rw [h.tail, List.length_append, Nat.mod_eq_of_lt hsmall, Nat.add_assoc]
  · rw [List.length_append]
    omega
  · dsimp only
    rw [Task.tailpos, h.tail] at *
    exact h.holds.store (by omega) (by omega)

theorem Buffers.get (h : Buffers t sent q) (hq : q ≠ []) {n : Nat} (hn : n ≤ t.writeCount) :
    Ring.load t.buf t.headpos n = q.take n ∧
      Buffers { t with
          head := (t.head + n) % 2 ^ 32, totalWritten := (t.totalWritten + n) % 2 ^ 32 }
        (sent ++ q.take n) (q.drop n) := by
  obtain ⟨hfit, hcount⟩ := Ring.filled_spec sent.length h.holds.length_le
    (List.length_pos_iff.mpr hq)
  rw [← h.tail, ← h.head] at hfit hcount
  change t.headpos + t.writeCount ≤ _ at hfit
  change t.writeCount ≤ _ at hcount
  have hsmall := h.small
  have hlen : (q.take n).length = n := by
    rw [List.length_take]
    omega
  constructor
  · rw [Task.headpos, h.head] at *
    exact h.holds.load (by omega) (by omega)
  · refine ⟨?_, ?_, ?_, ?_⟩
    · rw [List.length_append, hlen, ← h.head]
      exact Nat.mod_eq_of_lt (by rw [h.head]; omega)
    · rw [List.length_append, hlen, List.length_drop]
      dsimp only
      rw [h.tail]
      omega
    · rw [List.length_append, hlen, List.length_drop]
      omega
    · rw [List.length_append, hlen]
      exact h.holds.drop n

/-- **A read appends the next bytes of the source**; it reports the end of an
empty buffer only at the end of the source. -/
theorem Buffers.read (h : Buffers t sent q) (hr : readToTaskbuf t src io = (r, t', rest))
    (hsmall : sent.length + taskBufSiz < 2 ^ 32 ∨ sent.length + q.length + src.length < 2 ^ 32) :
    ∃ c, src = c ++ rest ∧ Buffers t' sent (q ++ c) ∧ t'.totalWritten = t.totalWritten ∧
      (r = .tbufEnd → t'.head = t'.tail → rest = []) := by
  obtain ⟨-, hroom, hpos⟩ := h.room
  cases io with
  | again =>
    cases hr
    exact ⟨[], rfl, by rwa [List.append_nil], rfl, nofun⟩
  | error =>
    cases hr
    exact ⟨[], rfl, by rwa [List.append_nil], rfl, nofun⟩
  | upTo k =>
    simp only [readToTaskbuf] at hr
    split at hr
    · next hz =>
      cases hr
      refine ⟨[], rfl, by rwa [List.append_nil], rfl, fun _ he => ?_⟩
      have := hpos (h.head_eq_tail.mp he)
      rw [← List.length_eq_zero_iff]
      omega
    · cases hr
      have hlen : (src.take (min (max k 1) (min t.readCount src.length))).length =
          min (max k 1) (min t.readCount src.length) := by
        rw [List.length_take]
        omega
      have hput := h.put (c := src.take (min (max k 1) (min t.readCount src.length)))
        (by omega) (by omega)
      rw [hlen] at hput
      exact ⟨_, (List.take_append_drop _ src).symm, hput, rfl, nofun⟩

/-- **A write hands out the next bytes of the queue.** -/
theorem Buffers.write (h : Buffers t sent q) (hw : writeFromTaskbuf t io = (r, t', out)) :
    ∃ q', q = out ++ q' ∧ Buffers t' (sent ++ out) q' ∧
      (t.totalWritten + out.length < 2 ^ 32 →
        t'.totalWritten = t.totalWritten + out.length) := by
  have same : ∃ q', q = [] ++ q' ∧ Buffers t (sent ++ []) q' ∧
      (t.totalWritten + ([] : Bytes).length < 2 ^ 32 →
        t.totalWritten = t.totalWritten + ([] : Bytes).length) :=
    ⟨q, rfl, by rwa [List.append_nil], fun _ => rfl⟩
  simp only [writeFromTaskbuf] at hw
  split at hw
  · cases hw
    exact same
  · next hne =>
    cases io with
    | again =>
      cases hw
      exact same
    | error =>
      cases hw
      exact same
    | upTo k =>
      simp only at hw
      split at hw
      · cases hw
        exact same
      · cases hw
        have hq : q ≠ [] := fun e => hne (h.head_eq_tail.mpr e)
        obtain ⟨hload, hget⟩ := h.get hq (Nat.min_le_right k t.writeCount)
        refine ⟨_, (List.take_append_drop (min k t.writeCount) q).symm.trans (by rw [hload]),
          by rwa [hload], fun hlt => ?_⟩
        rw [Ring.length_load] at hlt ⊢
        exact Nat.mod_eq_of_lt hlt

end

/-! ## Transfers -/

/-- A transfer through the buffer of a task. -/
structure Transfer where
  task : Task
  /-- What the source has still to deliver. -/
  rest : Bytes
  /-- What the sink has received. -/
  sent : Bytes

inductive Phase where
  | running
  | failed
  | complete
  deriving DecidableEq, Repr

/-- A transfer loop: turn after turn with what becomes of its two system calls. -/
def transferLoop (turn : Transfer → Io → Io → Phase × Transfer) (x : Transfer) :
    List (Io × Io) → Phase × Transfer
  | [] => (.running, x)
  | (io, io') :: ios =>
    match turn x io io' with
    | (.running, x) => transferLoop turn x ios
    | (p, x) => (p, x)

section

variable {turn : Transfer → Io → Io → Phase × Transfer} {x y : Transfer} {io io' : Io}

theorem transferLoop_running {ios : List (Io × Io)} (h : turn x io io' = (.running, y)) :
    transferLoop turn x ((io, io') :: ios) = transferLoop turn y ios := by
  rw [transferLoop, h]

/-- What every turn keeps, and what a turn that completes the transfer ends with. -/
theorem transferLoop_inv (turn : Transfer → Io → Io → Phase × Transfer) {I C : Transfer → Prop}
    (hturn : ∀ x y io io' p, I x → turn x io io' = (p, y) → I y ∧ (p = .complete → C y))
    (h : I x) (ios : List (Io × Io)) :
    I (transferLoop turn x ios).2 ∧
      ((transferLoop turn x ios).1 = .complete → C (transferLoop turn x ios).2) := by
  induction ios generalizing x with
  | nil => exact ⟨h, nofun⟩
  | cons io ios ih =>
    obtain ⟨io, io'⟩ := io
    cases ht : turn x io io' with
    | mk p y =>
      have hy := hturn _ _ _ _ _ h ht
      rw [transferLoop, ht]
      cases p with
      | running => exact ih hy.1
      | failed => exact hy
      | complete => exact hy

end

end OsLabs.Osp2p
