import OsLabs.Osp2p.Download

/-!
# The size limit of downloads

`task_download` looks at `total_written` in front of each write, and leaves the loop at
the end of the stream without looking again. So the last write may go over the limit: up
to the next multiple of `TASKBUFSIZ`, where the positions in the buffer begin anew
(`maxAccepted`). Whether such a stream is taken depends on how it comes in
(`limitKept_iff`).
-/

namespace OsLabs.Osp2p

def tooLarge (x : Transfer) (rio : Io) : Bool :=
  let (r, t, _) := readToTaskbuf x.task x.rest rio
  r ≠ .tbufError && !(r = .tbufEnd && t.head = t.tail) && maxDownload < t.totalWritten

/-- A turn of the loop rejects the file for its size. -/
def rejectedForSize : Transfer → List (Io × Io) → Bool
  | _, [] => false
  | x, (rio, wio) :: ios =>
    tooLarge x rio ||
      match downloadTurn x rio wio with
      | (.running, x) => rejectedForSize x ios
      | _ => false

/-- No reported file with the content `s` is larger than the limit, and where `s` is not, no
transfer of it is rejected for its size. -/
structure LimitKept (s : Bytes) : Prop where
  reported : ∀ listen filename buf disk peers name announced,
    (taskDownload listen filename (taskNew buf) disk peers).report = .downloaded name announced →
    (taskDownload listen filename (taskNew buf) disk peers).disk name = some s →
    s.length ≤ maxDownload
  accepted : s.length ≤ maxDownload →
    ∀ buf ios, rejectedForSize ⟨taskNew buf, s, []⟩ ios = false

/-- The first multiple of `TASKBUFSIZ` over the limit. -/
def maxAccepted : Nat := 210 * taskBufSiz

section

variable {s : Bytes} {x y : Transfer} {p : Phase} {rio wio : Io} {t t' : Task} {r : TbufResult}
  {out : Bytes} {io : Io} {l n : Nat}

/-! ## Streams within the limit -/

theorem Saving.length_le (h : Saving s x) : x.sent.length ≤ s.length := by
  obtain ⟨⟨q, hc, -⟩, -, -⟩ := h
  rw [hc]
  simp only [List.length_append]
  omega

theorem Saving.not_tooLarge (h : Saving s x) (hs : s.length ≤ maxDownload) (rio : Io) :
    tooLarge x rio = false := by
  obtain ⟨⟨q, hc, hb⟩, hwritten, hsmall⟩ := h
  have hlimit : maxDownload + taskBufSiz + taskBufSiz < 2 ^ 32 := by decide
  rcases hr : readToTaskbuf x.task x.rest rio with ⟨r, t, rest⟩
  obtain ⟨c, -, -, hsame, -⟩ := hb.read hr (.inl (by omega))
  have hle := Saving.length_le ⟨⟨q, hc, hb⟩, hwritten, hsmall⟩
  have : ¬ maxDownload < t.totalWritten := by
    rw [hsame, hwritten]
    omega
  simp [tooLarge, hr, this]

theorem not_rejectedForSize (hs : s.length ≤ maxDownload) : ∀ {ios x}, Saving s x →
    rejectedForSize x ios = false
  | [], _, _ => rfl
  | (rio, wio) :: ios, x, h => by
    rw [rejectedForSize, h.not_tooLarge hs, Bool.false_or]
    rcases ht : downloadTurn x rio wio with ⟨p, y⟩
    cases p with
    | running => exact not_rejectedForSize hs (h.turn ht).1
    | failed => rfl
    | complete => rfl

theorem saving_start (buf : Nat → UInt8) (s : Bytes) : Saving s ⟨taskNew buf, s, []⟩ :=
  ⟨⟨[], rfl, buffers_empty rfl rfl⟩, rfl, Nat.zero_le _⟩

/-! ## The last write -/

theorem write_in_buffer (h : writeFromTaskbuf t io = (r, t', out)) :
    t.headpos + out.length ≤ taskBufSiz := by
  have hpos : t.headpos < taskBufSiz := Nat.mod_lt _ (by decide)
  have htail : t.tailpos < taskBufSiz := Nat.mod_lt _ (by decide)
  simp only [writeFromTaskbuf] at h
  split at h
  · cases h
    exact Nat.le_of_lt hpos
  · cases io with
    | again => cases h; exact Nat.le_of_lt hpos
    | error => cases h; exact Nat.le_of_lt hpos
    | upTo k =>
      dsimp only at h
      split at h
      · cases h
        exact Nat.le_of_lt hpos
      · cases h
        rw [Ring.length_load]
        have : t.headpos + t.writeCount ≤ taskBufSiz := by
          unfold Task.writeCount Ring.filled
          split <;> omega
        omega

theorem Saving.turn_le (h : Saving s x) (hx : x.sent.length ≤ maxAccepted)
    (ht : downloadTurn x rio wio = (p, y)) : y.sent.length ≤ maxAccepted := by
  obtain ⟨⟨q, hc, hb⟩, hwritten, hsmall⟩ := h
  have hlimit : maxDownload + taskBufSiz + taskBufSiz < 2 ^ 32 := by decide
  rcases hr : readToTaskbuf x.task x.rest rio with ⟨r, t, rest⟩
  rcases hw : writeFromTaskbuf t wio with ⟨r', t', out⟩
  obtain ⟨c, -, hb', hsame, -⟩ := hb.read hr (.inl (by omega))
  simp only [downloadTurn, hr, hw] at ht
  split at ht
  · cases ht
    exact hx
  · split at ht
    · cases ht
      exact hx
    · split at ht
      · cases ht
        exact hx
      · next hmax =>
        rw [hsame, hwritten] at hmax
        have hfit := write_in_buffer hw
        rw [Task.headpos, hb'.head] at hfit
        have hle : (x.sent ++ out).length ≤ maxAccepted := by
          rw [List.length_append]
          unfold maxDownload at hmax
          unfold maxAccepted
          unfold taskBufSiz at hfit ⊢
          omega
        split at ht <;> cases ht <;> exact hle

theorem complete_le {buf : Nat → UInt8} {ios : List (Io × Io)}
    (h : transferLoop downloadTurn ⟨taskNew buf, s, []⟩ ios = (.complete, x)) :
    s.length ≤ maxAccepted := by
  have hinv := (transferLoop_inv downloadTurn
    (I := fun x => Saving s x ∧ x.sent.length ≤ maxAccepted) (C := fun _ => True)
    (fun _ _ _ _ _ h ht => ⟨⟨(h.1.turn ht).1, h.1.turn_le h.2 ht⟩, fun _ => trivial⟩)
    ⟨saving_start buf s, Nat.zero_le _⟩ ios).1
  rw [h] at hinv
  have := (transfer_complete buf ios h).1
  rw [← this]
  exact hinv.2

/-! ## A stream over the limit that is accepted -/

/-- All that has come in is written; `n` bytes so far of `l`. -/
structure Drained (l n : Nat) (x : Transfer) : Prop where
  head : x.task.head = n
  tail : x.task.tail = n
  written : x.task.totalWritten = n
  rest : x.rest.length + n = l

def greedy : Io × Io := (.upTo taskBufSiz, .upTo taskBufSiz)

theorem Drained.turn (h : Drained l n x) (hn : n % taskBufSiz = 0) (hmax : n ≤ maxDownload)
    (hl : n < l) : ∃ y, downloadTurn x greedy.1 greedy.2 = (.running, y) ∧
      Drained l (n + min taskBufSiz (l - n)) y := by
  have hrest := h.rest
  have hlimit : maxDownload + taskBufSiz < 2 ^ 32 := by decide
  have hpos : 0 < taskBufSiz := by decide
  have hroom : x.task.readCount = taskBufSiz := by
    rw [Task.readCount, Task.headpos, Task.tailpos, h.head, h.tail, hn]
    simp [Ring.room]
  generalize ha : min taskBufSiz (l - n) = a
  have hmin : min (max taskBufSiz 1) (min x.task.readCount x.rest.length) = a := by
    omega
  have hmod : (n + a) % 2 ^ 32 = n + a := Nat.mod_eq_of_lt (by omega)
  -- the read
  have hread : readToTaskbuf x.task x.rest greedy.1 = (.tbufOk, { x.task with
      buf := Ring.store x.task.buf x.task.tailpos (x.rest.take a), tail := n + a },
      x.rest.drop a) := by
    simp only [readToTaskbuf, greedy, hmin, h.tail, hmod]
    rw [if_neg (by omega)]
  -- the write
  generalize ht : ({ x.task with
    buf := Ring.store x.task.buf x.task.tailpos (x.rest.take a), tail := n + a } : Task) = t at hread
  have hhead : t.head = n := by rw [← ht]; exact h.head
  have htail : t.tail = n + a := by rw [← ht]
  have hwritten : t.totalWritten = n := by rw [← ht]; exact h.written
  have hcount : min taskBufSiz t.writeCount = a := by
    rw [Task.writeCount, Task.headpos, Task.tailpos, hhead, htail, hn]
    unfold Ring.filled
    unfold taskBufSiz at *
    split <;> omega
  have hwrite : writeFromTaskbuf t greedy.2 = (.tbufOk,
      { t with head := n + a, totalWritten := n + a }, Ring.load t.buf t.headpos a) := by
    simp only [writeFromTaskbuf, greedy, hcount, hhead, htail, hwritten, hmod]
    rw [if_neg (by omega), if_neg (by omega)]
  refine ⟨⟨{ t with head := n + a, totalWritten := n + a }, x.rest.drop a,
    x.sent ++ Ring.load t.buf t.headpos a⟩, ?_, rfl, htail, rfl, ?_⟩
  · simp only [downloadTurn, hread, hwrite, hwritten]
    rw [if_neg (by simp), if_neg (by simp), if_neg (by omega), if_neg (by simp)]
  · rw [List.length_drop]
    omega

theorem Drained.complete (h : Drained l l x) :
    ∃ y, downloadTurn x greedy.1 greedy.2 = (.complete, y) := by
  have hrest : x.rest.length = 0 := by
    have := h.rest
    omega
  have hread : readToTaskbuf x.task x.rest greedy.1 = (.tbufEnd, x.task, x.rest) := by
    simp only [readToTaskbuf, greedy, hrest]
    rw [if_pos (by omega)]
  refine ⟨⟨x.task, x.rest, x.sent⟩, ?_⟩
  simp only [downloadTurn, hread, h.head, h.tail]
  rw [if_neg (by simp), if_pos (by simp)]

/-- Greedy turns from a multiple of `TASKBUFSIZ` on come to the end of the stream. -/
theorem Drained.completes (hl : l ≤ maxAccepted) : ∀ {k n x}, l ≤ n + k * taskBufSiz →
    Drained l n x → (n = l ∨ n < l ∧ n % taskBufSiz = 0) →
    ∃ ios y, transferLoop downloadTurn x ios = (.complete, y) := by
  intro k
  induction k with
  | zero =>
    intro n x hk h hn
    have := h.rest
    obtain rfl : n = l := by omega
    obtain ⟨y, hy⟩ := h.complete
    exact ⟨[greedy], y, by rw [transferLoop, hy]⟩
  | succ k ih =>
    intro n x hk h hn
    obtain rfl | ⟨hlt, hn⟩ := hn
    · obtain ⟨y, hy⟩ := h.complete
      exact ⟨[greedy], y, by rw [transferLoop, hy]⟩
    · have hmax : n ≤ maxDownload := by
        unfold maxAccepted at hl
        unfold maxDownload
        unfold taskBufSiz at *
        omega
      obtain ⟨y, hy, hd⟩ := h.turn hn hmax hlt
      obtain ⟨ios, z, hz⟩ := ih (by rw [Nat.succ_mul] at hk; omega) hd (by
        unfold taskBufSiz at *
        omega)
      exact ⟨greedy :: ios, z, by rw [transferLoop, hy]; exact hz⟩

/-! ## Reported files -/

variable {listen : Peer} {filename name : String} {disk : Disk} {announced : Bool}
  {buf : Nat → UInt8}

theorem taskDownload_tryPeer : ∀ {peers disk buf},
    (taskDownload listen filename (taskNew buf) disk peers).report = .downloaded name announced →
    ∃ p c buf' disk', tryPeer listen filename (taskNew buf') disk' p c =
      .downloaded name (taskDownload listen filename (taskNew buf) disk peers).disk announced
  | [], disk, buf, h => nomatch h
  | (p, c) :: peers, disk, buf, h => by
    cases ha : tryPeer listen filename (taskNew buf) disk p c with
    | tooMany =>
      rw [taskDownload, ha] at h
      cases h
    | running =>
      rw [taskDownload, ha] at h
      cases h
    | downloaded n d b =>
      rw [taskDownload, ha] at h ⊢
      cases h
      exact ⟨p, c, buf, disk, ha⟩
    | tryAgain t n d =>
      rw [taskDownload, ha] at h ⊢
      have ht : (taskDownload listen filename (taskNew t.buf) (removePartial c n d) peers).report =
          .downloaded name announced := h
      exact taskDownload_tryPeer ht

/-- A stream within `maxAccepted` is reported when it comes in full buffers. -/
theorem exists_reported (hs : s ≠ []) (hl : s.length ≤ maxAccepted) : ∃ ios,
    (taskDownload ⟨0, 0⟩ "f" (taskNew fun _ => 0) (fun _ => none)
      [(⟨1, 1⟩, ⟨true, s, fun _ => false, ios, true⟩)]).report = .downloaded "f" true ∧
    (taskDownload ⟨0, 0⟩ "f" (taskNew fun _ => 0) (fun _ => none)
      [(⟨1, 1⟩, ⟨true, s, fun _ => false, ios, true⟩)]).disk "f" = some s := by
  have h0 : Drained s.length 0 ⟨taskNew fun _ => 0, s, []⟩ := ⟨rfl, rfl, rfl, rfl⟩
  obtain ⟨ios, y, hy⟩ := Drained.completes hl (k := 210) (by unfold maxAccepted at hl; omega) h0
    (.inr ⟨List.length_pos_iff.mpr hs, rfl⟩)
  obtain ⟨hsent, hwritten⟩ := transfer_complete (fun _ => 0) ios hy
  have htry : tryPeer ⟨0, 0⟩ "f" (taskNew fun _ => 0) (fun _ => none) ⟨1, 1⟩
      ⟨true, s, fun _ => false, ios, true⟩ =
        .downloaded "f" (Function.update (fun _ => none) "f" (some s)) true := by
    have hopen : openDisk "f" (fun _ => false) (fun _ => none) 50 0 = .saving "f" := by
      simp [openDisk, diskFilename]
    simp only [tryPeer, hopen, hy, hsent, hwritten]
    rw [if_neg (by decide), if_neg (by decide), if_pos (List.length_pos_iff.mpr hs)]
    simp
  refine ⟨ios, ?_⟩
  rw [taskDownload, htry]
  dsimp only
  exact ⟨rfl, Function.update_self ..⟩

end

/-- **The limit is kept** for streams within it and for streams that are longer than the last
write can make them; every stream between the two is reported when it comes in full buffers. -/
theorem limitKept_iff (s : Bytes) :
    LimitKept s ↔ s.length ≤ maxDownload ∨ maxAccepted < s.length := by
  constructor
  · intro h
    refine Classical.or_iff_not_imp_right.mpr fun hl => ?_
    by_cases hs : s = []
    · rw [hs]
      exact Nat.zero_le _
    · obtain ⟨ios, h1, h2⟩ := exists_reported hs (Nat.le_of_not_lt hl)
      exact h.reported _ _ _ _ _ _ _ h1 h2
  · intro h
    refine ⟨fun listen filename buf disk peers name announced hr hd => ?_, fun hs buf ios =>
      not_rejectedForSize hs (saving_start buf s)⟩
    obtain ⟨p, c, buf', disk', ht⟩ := taskDownload_tryPeer hr
    obtain ⟨x, hx, he, -⟩ := tryPeer_complete ht
    rw [he, Function.update_self, (transfer_complete buf' c.ios hx).1] at hd
    obtain rfl := Option.some.inj hd
    exact h.resolve_right (Nat.not_lt_of_le (complete_le hx))

/-- A file of one byte more than the limit. -/
theorem zeros_limit_broken : ¬ LimitKept (List.replicate (maxDownload + 1) 0) := by
  intro h
  have hlen : (List.replicate (maxDownload + 1) (0 : UInt8)).length = maxDownload + 1 :=
    List.length_replicate
  obtain ⟨ios, h1, h2⟩ := exists_reported (s := List.replicate (maxDownload + 1) 0)
    (List.ne_nil_of_length_eq_add_one hlen) (by rw [hlen]; decide)
  have := h.reported _ _ _ _ _ _ _ h1 h2
  omega

end OsLabs.Osp2p
