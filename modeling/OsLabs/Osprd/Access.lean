import Mathlib.Data.List.Basic
import OsLabs.Lib.Runs

/-!
# osprdaccess: the copying loops

`transfer` copies a stream to a file through a buffer; `read` and `write` may return
early, be interrupted, or move fewer bytes than asked for. `transferZero` writes zeros.
One step of `Transfer` is one system call. The file that is written has room for a
number of bytes (`write` fails with `ENOSPC` once it is used up) or for any number.

`size` is the loop variable of the source, -1 without a `SIZE` argument. It is decreased
without bound here; on the machine it overflows after 2^31 bytes.
-/

namespace OsLabs.Osprd

/-- glibc's `BUFSIZ`. -/
def bufsiz : Nat := 8192

/-- What a `read` or a `write` returns. -/
inductive SysResult where
  | moved (n : Nat)
  /-- `EAGAIN` or `EINTR`. -/
  | again
  | noSpace
  | error
  deriving DecidableEq, Repr

inductive Phase where
  | reading
  | writing
  | returned
  | exited
  deriving DecidableEq, Repr

/-- `transfer(fd1, fd2, size)` between two system calls. -/
structure Transfer where
  size : Int
  /-- The bytes from `bufptr` on that are still to be written. -/
  buf : List UInt8
  phase : Phase
  /-- What `fd1` has left, and what `fd2` has taken. -/
  source : List UInt8
  sink : List UInt8
  deriving DecidableEq, Repr

namespace Transfer

variable (room : Option Nat)

/-- The number of bytes asked for: `size > 0 && size < BUFSIZ ? size : BUFSIZ`. -/
def request (size : Int) : Nat := if 0 < size ∧ size < bufsiz then size.toNat else bufsiz

/-- The tests of the two loops after a step: `r > 0`, then `size != 0`. -/
def loop (t : Transfer) : Transfer :=
  { t with phase :=
      if t.buf ≠ [] then .writing else if t.size ≠ 0 then .reading else .returned }

def start (size : Int) (input : List UInt8) : Transfer :=
  loop { size, buf := [], phase := .reading, source := input, sink := [] }

/-- What the kernel may answer. A `read` of an unfinished stream moves at least a byte, and
`write` reports a full file exactly when there is no room. -/
def Answer (t : Transfer) : SysResult → Prop
  | .moved n =>
    if t.phase = .reading then
      n ≤ request t.size ∧ n ≤ t.source.length ∧ (n = 0 → t.source = [])
    else n ≤ t.buf.length ∧ ∀ r ∈ room, t.sink.length < r ∧ t.sink.length + n ≤ r
  | .noSpace => t.phase = .writing ∧ ∃ r ∈ room, r ≤ t.sink.length
  | _ => True

instance (t : Transfer) : (a : SysResult) → Decidable (t.Answer room a)
  | .moved _ => inferInstanceAs (Decidable (ite ..))
  | .noSpace => inferInstanceAs (Decidable (_ ∧ _))
  | .again => isTrue trivial
  | .error => isTrue trivial

/-- The body of the loops with the answer to their system call. -/
def after (t : Transfer) (a : SysResult) : Transfer :=
  match t.phase with
  | .reading =>
    match a with
    | .again => t
    | .moved 0 => { t with phase := .returned }
    | .moved n => loop { t with
        size := t.size - n, buf := t.source.take n, source := t.source.drop n }
    | _ => { t with phase := .exited }
  | .writing =>
    match a with
    | .again => t
    | .noSpace => loop { t with buf := [] }
    | .moved n => loop { t with buf := t.buf.drop n, sink := t.sink ++ t.buf.take n }
    | .error => { t with phase := .exited }
  | _ => t

def Running (t : Transfer) : Prop := t.phase = .reading ∨ t.phase = .writing

/-- Runs of `transfer(fd1, fd2, size)` on a stream `input`. -/
def calls (size : Int) (input : List UInt8) : System Transfer SysResult where
  Init t := t = start size input
  Step t a t' := t.Running ∧ t.Answer room a ∧ t' = t.after a

/-- The bytes that `transfer` is to copy. -/
def wanted (size : Int) (input : List UInt8) : List UInt8 :=
  if size < 0 then input else input.take size.toNat

/-! ## No byte is lost or duplicated -/

variable {room} {size : Int} {input : List UInt8} {t : Transfer} {a : SysResult}

/-- The taken bytes, the buffer and the rest of the stream make up the stream, unless the file
is full: then what was read after that is dropped. -/
structure Copied (room : Option Nat) (size : Int) (input : List UInt8) (t : Transfer) : Prop where
  parts : (∃ r ∈ room, t.sink.length = r ∧ t.sink <+: input) ∨
    input = t.sink ++ t.buf ++ t.source
  within : ∀ r ∈ room, t.sink.length ≤ r
  source : ∃ read, input = read ++ t.source ∧ t.size = size - read.length ∧
    t.sink.length + t.buf.length ≤ read.length
  bound : 0 ≤ size → 0 ≤ t.size
  reading : t.phase = .reading → t.buf = [] ∧ t.size ≠ 0
  writing : t.phase = .writing → t.buf ≠ []
  returned : t.phase = .returned → t.buf = [] ∧ (t.size = 0 ∨ t.source = [])

theorem request_le (h : 0 ≤ size) (h0 : size ≠ 0) : (request size : Int) ≤ size := by
  unfold request
  split
  · omega
  · omega

/-- What the tests of the loops make of a state with everything but the phases in order. -/
theorem copied_loop (parts : (∃ r ∈ room, t.sink.length = r ∧ t.sink <+: input) ∨
      input = t.sink ++ t.buf ++ t.source) (within : ∀ r ∈ room, t.sink.length ≤ r)
    (source : ∃ read, input = read ++ t.source ∧ t.size = size - read.length ∧
      t.sink.length + t.buf.length ≤ read.length)
    (bound : 0 ≤ size → 0 ≤ t.size) : Copied room size input t.loop where
  parts := parts
  within := within
  source := source
  bound := bound
  reading h := by
    unfold loop at h ⊢
    dsimp only at h ⊢
    split at h
    · cases h
    · next hb =>
      split at h
      · next hs => exact ⟨not_not.1 hb, hs⟩
      · cases h
  writing h := by
    unfold loop at h ⊢
    dsimp only at h ⊢
    split at h
    · next hb => exact hb
    · split at h <;> cases h
  returned h := by
    unfold loop at h ⊢
    dsimp only at h ⊢
    split at h
    · cases h
    · next hb =>
      split at h
      · cases h
      · next hs => exact ⟨not_not.1 hb, .inl (not_not.1 hs)⟩

theorem copied_start : Copied room size input (start size input) :=
  copied_loop (.inr rfl) (by simp) ⟨[], rfl, by simp⟩ id

theorem Copied.moved_reading (h : Copied room size input t) (hph : t.phase = .reading) {n : Nat}
    (hn : n ≤ request t.size) (hlen : n ≤ t.source.length) :
    Copied room size input (loop { t with
      size := t.size - n, buf := t.source.take n, source := t.source.drop n }) := by
  obtain ⟨hbuf, hsize⟩ := h.reading hph
  obtain ⟨read, hread, hleft, hle⟩ := h.source
  apply copied_loop
  · rcases h.parts with hfull | hin
    · exact .inl hfull
    · refine .inr ?_
      rw [hin, hbuf]
      simp
  · exact h.within
  · have htake : (t.source.take n).length = n := by rw [List.length_take, Nat.min_eq_left hlen]
    refine ⟨read ++ t.source.take n, ?_, ?_, ?_⟩
    · rw [List.append_assoc, List.take_append_drop, ← hread]
    · dsimp only
      rw [List.length_append, htake, hleft]
      omega
    · dsimp only
      rw [List.length_append, htake]
      omega
  · intro h0
    have hb := h.bound h0
    have hr := request_le hb hsize
    dsimp only
    omega

theorem Copied.moved_writing (h : Copied room size input t) {n : Nat} (hn : n ≤ t.buf.length)
    (hroom : ∀ r ∈ room, t.sink.length < r ∧ t.sink.length + n ≤ r) :
    Copied room size input
      (loop { t with buf := t.buf.drop n, sink := t.sink ++ t.buf.take n }) := by
  apply copied_loop
  · rcases h.parts with ⟨r, hr, hlen, -⟩ | hin
    · have := (hroom r hr).1
      omega
    · refine .inr ?_
      dsimp only
      rw [List.append_assoc t.sink, List.take_append_drop]
      exact hin
  · intro r hr
    have := (hroom r hr).2
    dsimp only
    rw [List.length_append, List.length_take]
    omega
  · obtain ⟨read, hread, hleft, hle⟩ := h.source
    refine ⟨read, hread, hleft, ?_⟩
    dsimp only
    rw [List.length_append, List.length_take, List.length_drop]
    omega
  · exact h.bound

theorem Copied.noSpace (h : Copied room size input t) {r : Nat} (hr : r ∈ room)
    (hfull : r ≤ t.sink.length) : Copied room size input (loop { t with buf := [] }) := by
  apply copied_loop
  · rcases h.parts with hp | hin
    · exact .inl hp
    · refine .inl ⟨r, hr, Nat.le_antisymm (h.within r hr) hfull, t.buf ++ t.source, ?_⟩
      rw [hin, List.append_assoc]
  · exact h.within
  · obtain ⟨read, hread, hleft, hle⟩ := h.source
    exact ⟨read, hread, hleft, Nat.le_trans (Nat.add_le_add_left (Nat.zero_le _) _) hle⟩
  · exact h.bound

theorem Copied.exited (h : Copied room size input t) :
    Copied room size input { t with phase := .exited } where
  parts := h.parts
  within := h.within
  source := h.source
  bound := h.bound
  reading := by rintro ⟨⟩
  writing := by rintro ⟨⟩
  returned := by rintro ⟨⟩

theorem Copied.step (h : Copied room size input t) (ha : t.Answer room a) :
    Copied room size input (t.after a) := by
  unfold after
  split
  · next hph =>
    split
    · exact h
    · rw [Answer, if_pos hph] at ha
      have hempty := ha.2.2 rfl
      exact { h with
        reading := by rintro ⟨⟩
        writing := by rintro ⟨⟩
        returned := fun _ => ⟨(h.reading hph).1, .inr hempty⟩ }
    · rw [Answer, if_pos hph] at ha
      exact h.moved_reading hph ha.1 ha.2.1
    · exact h.exited
  · next hph =>
    split
    · exact h
    · obtain ⟨-, r, hr, hfull⟩ := ha
      exact h.noSpace hr hfull
    · rw [Answer, if_neg (by rw [hph]; decide)] at ha
      exact h.moved_writing ha.1 ha.2
    · exact h.exited
  · exact h

theorem copied_of_run {h : List SysResult} (hr : (calls room size input).Run h t) :
    Copied room size input t :=
  hr.inv (I := fun _ t => Copied room size input t)
    (by
      rintro _ rfl
      exact copied_start)
    (by
      rintro _ _ _ _ hc - ⟨-, ha, rfl⟩
      exact hc.step ha)

/-- The first bytes of `l` that there is room for. -/
def fitting (room : Option Nat) (l : List UInt8) : List UInt8 := room.elim l l.take

theorem fitting_eq {l : List UInt8} (h : ∀ r ∈ room, l.length ≤ r) : fitting room l = l := by
  cases room with
  | none => rfl
  | some r => exact List.take_of_length_le (h r rfl)

/-- **Every pattern of partial transfers delivers the same bytes**: when `transfer` returns,
the file has taken the bytes asked for, or as many as it had room for. -/
theorem transfer_delivers (room : Option Nat) (size : Int) (input : List UInt8) :
    ∀ h t, (calls room size input).Run h t → t.phase = .returned →
      t.sink = fitting room (wanted size input) := by
  intro h t hr hret
  have hc := copied_of_run hr
  obtain ⟨hbuf, hend⟩ := hc.returned hret
  obtain ⟨read, hread, hleft, hle⟩ := hc.source
  have hbound := hc.bound
  have hinput := congrArg List.length hread
  rw [List.length_append] at hinput
  rcases hc.parts with ⟨r, hr, hlen, hpre⟩ | hin
  · cases hr
    show t.sink = (wanted size input).take r
    rw [List.prefix_iff_eq_take.1 hpre, hlen]
    unfold wanted
    split
    · rfl
    · rw [List.take_take, Nat.min_eq_left (by omega)]
  · rw [hbuf, List.append_nil] at hin
    have hsink := congrArg List.length hin
    rw [List.length_append] at hsink
    have hwanted : wanted size input = t.sink := by
      unfold wanted
      rcases hend with hzero | hempty
      · rw [if_neg (by omega), hin, List.take_left' (by omega)]
      · rw [hempty, List.append_nil] at hin
        rw [hempty] at hsink
        split
        · exact hin
        · rw [List.take_of_length_le (by simp only [List.length_nil] at hsink; omega)]
          exact hin
    rw [hwanted]
    exact (fitting_eq hc.within).symm

/-- The contents of a device after `l` has been written at an offset. -/
def written (dev : List UInt8) (offset : Nat) (l : List UInt8) : List UInt8 :=
  dev.take offset ++ l ++ dev.drop (offset + l.length)

/-- **Round trip through a ramdisk.** `osprdaccess -w SIZE -o OFF` and then `osprdaccess -r` at
the same offset, with any interruptions and partial transfers in both: the reader gets the
bytes of the writer that the device had room for, and behind them what the device held. -/
theorem access_round_trip (dev input : List UInt8) (offset : Nat) (size size' : Int)
    (hoff : offset ≤ dev.length) : ∀ h t,
    (calls (some (dev.length - offset)) size input).Run h t → t.phase = .returned →
    ∀ h' t', (calls none size' ((written dev offset t.sink).drop offset)).Run h' t' →
      t'.phase = .returned →
      let stored := (wanted size input).take (dev.length - offset)
      (written dev offset t.sink).length = dev.length ∧
        t'.sink = wanted size' (stored ++ dev.drop (offset + stored.length)) := by
  intro h t hr hret h' t' hr' hret'
  have hsink : t.sink = (wanted size input).take (dev.length - offset) :=
    transfer_delivers _ size input h t hr hret
  have hlen : t.sink.length ≤ dev.length - offset := by
    rw [hsink]
    exact List.length_take_le _ _
  have htake : (dev.take offset).length = offset := List.length_take_of_le hoff
  have hread := transfer_delivers none size' _ h' t' hr' hret'
  unfold written at hread
  rw [List.append_assoc, List.drop_left' htake] at hread
  refine ⟨?_, by rw [← hsink]; exact hread⟩
  unfold written
  rw [List.append_assoc, List.length_append, List.length_append, htake, List.length_drop]
  omega

theorem call {h : List SysResult} (hr : (calls room size input).Run h t) (hrun : t.Running)
    (ha : t.Answer room a) : (calls room size input).Run (a :: h) (t.after a) :=
  .step hr trivial ⟨hrun, ha, rfl⟩

/-- The device is full after the third byte; the reader gets all three. -/
theorem access_round_trip_full : ∃ h t h' t',
    (calls (some 3) 4 [1, 2, 3, 4]).Run h t ∧ t.phase = .returned ∧
    (calls none (-1) ((written [9, 9, 9, 9] 1 t.sink).drop 1)).Run h' t' ∧
    t'.phase = .returned ∧ t'.sink = [1, 2, 3] := by
  have hw : (calls (some 3) 4 [1, 2, 3, 4]).Run [] (start 4 [1, 2, 3, 4]) := .init rfl
  have hw := call (a := .moved 4) hw (.inl rfl) (by decide)
  have hw := call (a := .moved 1) hw (.inr rfl) (by decide)
  have hw := call (a := .again) hw (.inr rfl) trivial
  have hw := call (a := .moved 2) hw (.inr rfl) (by decide)
  have hw := call (a := .noSpace) hw (.inr rfl) (by decide)
  have hr : (calls none (-1) [1, 2, 3]).Run [] (start (-1) [1, 2, 3]) := .init rfl
  have hr := call (a := .moved 3) hr (.inl rfl) (by decide)
  have hr := call (a := .moved 3) hr (.inr rfl) (by decide)
  have hr := call (a := .moved 0) hr (.inl rfl) (by decide)
  have hback := access_round_trip [9, 9, 9, 9] [1, 2, 3, 4] 1 4 (-1) (by decide) _ _ hw rfl _ _ hr rfl
  exact ⟨_, _, _, _, hw, rfl, hr, rfl, hback.2⟩

end Transfer

/-! ## Writing zeros -/

/-- `transfer_zero(fd2, size)` between two writes. -/
structure TransferZero where
  size : Int
  phase : Phase
  sink : List UInt8
  deriving DecidableEq, Repr

namespace TransferZero

open Transfer (request fitting)

variable (room : Option Nat) {size : Int} {z : TransferZero} {a : SysResult}

def loop (z : TransferZero) : TransferZero :=
  { z with phase := if z.size ≠ 0 then .writing else .returned }

def start (size : Int) : TransferZero := loop { size, phase := .writing, sink := [] }

def Answer (z : TransferZero) : SysResult → Prop
  | .moved n => n ≤ request z.size ∧ ∀ r ∈ room, z.sink.length < r ∧ z.sink.length + n ≤ r
  | .noSpace => ∃ r ∈ room, r ≤ z.sink.length
  | _ => True

def after (z : TransferZero) : SysResult → TransferZero
  | .again => z
  | .noSpace => { z with phase := .returned }
  | .moved n => loop { z with size := z.size - n, sink := z.sink ++ List.replicate n 0 }
  | .error => { z with phase := .exited }

def calls (size : Int) : System TransferZero SysResult where
  Init z := z = start size
  Step z a z' := z.phase = .writing ∧ z.Answer room a ∧ z' = z.after a

variable {room}

structure Filled (room : Option Nat) (size : Int) (z : TransferZero) : Prop where
  zeros : z.sink = List.replicate z.sink.length 0
  within : ∀ r ∈ room, z.sink.length ≤ r
  left : z.size = size - z.sink.length
  bound : 0 ≤ size → 0 ≤ z.size
  writing : z.phase = .writing → z.size ≠ 0
  returned : z.phase = .returned → z.size = 0 ∨ ∃ r ∈ room, z.sink.length = r

theorem filled_loop (zeros : z.sink = List.replicate z.sink.length 0)
    (within : ∀ r ∈ room, z.sink.length ≤ r) (left : z.size = size - z.sink.length)
    (bound : 0 ≤ size → 0 ≤ z.size) : Filled room size z.loop where
  zeros := zeros
  within := within
  left := left
  bound := bound
  writing h := by
    by_contra h0
    have h0 : z.size = 0 := h0
    simp [loop, h0] at h
  returned h := by
    by_cases h0 : z.size = 0
    · exact .inl h0
    · simp [loop, h0] at h

theorem Filled.step (h : Filled room size z) (hph : z.phase = .writing) (ha : z.Answer room a) :
    Filled room size (z.after a) := by
  cases a with
  | again => exact h
  | noSpace =>
    obtain ⟨r, hr, hfull⟩ := ha
    exact { h with
      writing := by rintro ⟨⟩
      returned := fun _ => .inr ⟨r, hr, Nat.le_antisymm (h.within r hr) hfull⟩ }
  | error => exact { h with writing := by rintro ⟨⟩, returned := by rintro ⟨⟩ }
  | moved n =>
    obtain ⟨hreq, hroom⟩ := ha
    have hleft := h.left
    apply filled_loop
    · dsimp only
      rw [List.length_append, List.length_replicate, List.replicate_add, ← h.zeros]
    · intro r hr
      dsimp only
      rw [List.length_append, List.length_replicate]
      exact (hroom r hr).2
    · dsimp only
      rw [List.length_append, List.length_replicate]
      omega
    · intro h0
      have hle := Transfer.request_le (h.bound h0) (h.writing hph)
      dsimp only
      omega

/-- `transfer_zero` returns after `size` zeros, or when the file is full. -/
theorem transferZero_delivers (room : Option Nat) (size : Int) : ∀ h z,
    (calls room size).Run h z → z.phase = .returned →
      (0 ≤ size → z.sink = fitting room (List.replicate size.toNat 0)) ∧
        (size < 0 → ∃ r ∈ room, z.sink = List.replicate r 0) := by
  intro h z hr hret
  have hf := hr.inv (I := fun _ z => Filled room size z)
    (by
      rintro _ rfl
      exact filled_loop rfl (by simp) (by simp) id)
    (by
      rintro _ _ _ _ hf - ⟨hph, ha, rfl⟩
      exact hf.step hph ha)
  have hleft := hf.left
  have hbound := hf.bound
  rcases hf.returned hret with hdone | ⟨r, hr, hlen⟩
  · refine ⟨fun h0 => ?_, fun hneg => by omega⟩
    have hn : size.toNat = z.sink.length := by omega
    rw [hn, ← hf.zeros]
    exact (Transfer.fitting_eq hf.within).symm
  · refine ⟨fun h0 => ?_, fun _ => ⟨r, hr, by rw [← hlen]; exact hf.zeros⟩⟩
    cases hr
    show _ = List.take _ _
    rw [List.take_replicate, Nat.min_eq_left (by omega), ← hlen]
    exact hf.zeros

end TransferZero

end OsLabs.Osprd
