import OsLabs.Osp2p.Taskbuf

/-!
# Uploads

The transfer loop of `task_upload`: write what the buffer holds to the peer,
read on from the disk. The counters of the buffer are never reset during a
transfer. Below 4 GiB they count what went in and out, and every upload is
faithful; a longer file takes the counters over `2 ^ 32`, where the positions
jump since `TASKBUFSIZ` does not divide `2 ^ 32`.
-/

namespace OsLabs.Osp2p

/-- One turn of the loop; `wio` becomes of its `write`, `rio` of its `read`. -/
def uploadTurn (x : Transfer) (wio rio : Io) : Phase × Transfer :=
  let (r, t, out) := writeFromTaskbuf x.task wio
  let x := { x with task := t, sent := x.sent ++ out }
  if r = .tbufError then (.failed, x)
  else
    let (r, t, rest) := readToTaskbuf x.task x.rest rio
    let x := { x with task := t, rest := rest }
    if r = .tbufError then (.failed, x)
    else if r = .tbufEnd ∧ x.task.head = x.task.tail then (.complete, x)
    else (.running, x)

/-- `task_upload` from the open file on; the buffer holds the old request. -/
def upload (buf : Nat → UInt8) (content : Bytes) (ios : List (Io × Io)) : Phase × Transfer :=
  transferLoop uploadTurn ⟨⟨buf, 0, 0, 0⟩, content, []⟩ ios

/-- However the reads and writes go: what the peer has received are the first bytes
read from the disk, and a completed upload is the whole file. -/
structure UploadFaithful (content : Bytes) : Prop where
  next : ∀ buf ios, ∃ q, content =
    (upload buf content ios).2.sent ++ q ++ (upload buf content ios).2.rest
  complete : ∀ buf ios, (upload buf content ios).1 = .complete →
    (upload buf content ios).2.sent = content

/-! ## Below 4 GiB -/

/-- The buffer holds what was read and has not been sent. -/
def Flow (content : Bytes) (x : Transfer) : Prop :=
  ∃ q, content = x.sent ++ q ++ x.rest ∧ Buffers x.task x.sent q

section

variable {content : Bytes} {x y : Transfer} {p : Phase}

theorem Flow.turn (h : Flow content x) (hlen : content.length < 2 ^ 32) {wio rio : Io}
    (ht : uploadTurn x wio rio = (p, y)) :
    Flow content y ∧ (p = .complete → y.sent = content) := by
  obtain ⟨q, hc, hb⟩ := h
  rcases hw : writeFromTaskbuf x.task wio with ⟨r, t, out⟩
  rcases hr : readToTaskbuf t x.rest rio with ⟨r', t', rest⟩
  simp only [uploadTurn, hw, hr] at ht
  obtain ⟨q', rfl, hb', -⟩ := hb.write hw
  have hc' : content = x.sent ++ out ++ q' ++ x.rest := by
    simp only [hc, List.append_assoc]
  split at ht
  · cases ht
    exact ⟨⟨q', hc', hb'⟩, nofun⟩
  · have hsmall : (x.sent ++ out).length + q'.length + x.rest.length < 2 ^ 32 := by
      rw [hc'] at hlen
      simpa only [List.length_append] using hlen
    obtain ⟨c, hrest, hb'', -, hend⟩ := hb'.read hr (.inr hsmall)
    rw [hrest, ← List.append_assoc, List.append_assoc _ q' c] at hc'
    split at ht
    · cases ht
      exact ⟨⟨_, hc', hb''⟩, nofun⟩
    · split at ht
      · next he =>
        cases ht
        refine ⟨⟨_, hc', hb''⟩, fun _ => ?_⟩
        rw [hend he.1 he.2, hb''.head_eq_tail.mp he.2, List.append_nil, List.append_nil] at hc'
        exact hc'.symm
      · cases ht
        exact ⟨⟨_, hc', hb''⟩, nofun⟩

theorem faithful_of_lt (hlen : content.length < 2 ^ 32) : UploadFaithful content := by
  have h0 : ∀ buf, Flow content ⟨⟨buf, 0, 0, 0⟩, content, []⟩ := fun buf =>
    ⟨[], rfl, buffers_empty rfl rfl⟩
  have hloop : ∀ buf ios, Flow content (upload buf content ios).2 ∧
      ((upload buf content ios).1 = .complete → (upload buf content ios).2.sent = content) :=
    fun buf ios => transferLoop_inv uploadTurn (C := fun x => x.sent = content)
      (fun _ _ _ _ _ h => h.turn hlen) (h0 buf) ios
  refine ⟨fun buf ios => ?_, fun buf ios => (hloop buf ios).2⟩
  obtain ⟨q, hq, -⟩ := (hloop buf ios).1
  exact ⟨q, hq⟩

end

/-! ## Over 4 GiB -/

/-- `n` bytes have been sent one by one and one more has been read. -/
structure Lag (l n : Nat) (x : Transfer) : Prop where
  head : x.task.head = n
  tail : x.task.tail = n + 1
  sent : x.sent.length = n
  rest : x.rest.length + n + 1 = l

section

variable {l n : Nat} {x : Transfer} {content : Bytes}

theorem writeCount_pos (t : Task) : 0 < t.writeCount :=
  Ring.filled_pos (Nat.mod_lt _ (by decide)) _

theorem readCount_pos {t : Task} (h : t.head = t.tail) : 0 < t.readCount := by
  rw [Task.readCount, beq_iff_eq.mpr h]
  exact Ring.room_pos (Nat.mod_lt _ (by decide)) _

theorem Lag.write (h : Lag l n x) (hn : n + 1 < 2 ^ 32) :
    ∃ c, writeFromTaskbuf x.task (.upTo 1) = (.tbufOk,
      { x.task with head := n + 1, totalWritten := (x.task.totalWritten + 1) % 2 ^ 32 }, [c]) := by
  have hne : ¬ x.task.head = x.task.tail := by
    rw [h.head, h.tail]
    omega
  have hmin : min 1 x.task.writeCount = 1 := Nat.min_eq_left (writeCount_pos x.task)
  refine ⟨x.task.buf x.task.headpos, ?_⟩
  simp only [writeFromTaskbuf, if_neg hne, hmin]
  rw [h.head, Nat.mod_eq_of_lt hn]
  rfl

theorem read_one {t : Task} (h : t.head = t.tail) (src : Bytes) (hs : 0 < src.length) :
    readToTaskbuf t src (.upTo 1) = (.tbufOk,
      { t with
        buf := Ring.store t.buf t.tailpos (src.take 1), tail := (t.tail + 1) % 2 ^ 32 },
      src.drop 1) := by
  have hc := readCount_pos h
  have hmin : min (max 1 1) (min t.readCount src.length) = 1 := by omega
  simp only [readToTaskbuf, hmin]
  rfl

theorem Lag.turn (h : Lag l n x) (hn : n + 2 < 2 ^ 32) (hl : n + 1 < l) :
    ∃ y, uploadTurn x (.upTo 1) (.upTo 1) = (.running, y) ∧ Lag l (n + 1) y := by
  obtain ⟨c, hw⟩ := h.write (by omega)
  have hrest := h.rest
  have hr := read_one (t := { x.task with
    head := n + 1, totalWritten := (x.task.totalWritten + 1) % 2 ^ 32 }) h.tail.symm
    x.rest (by omega)
  refine ⟨_, by simp only [uploadTurn, hw, hr]; rfl, ?_⟩
  refine ⟨rfl, ?_, ?_, ?_⟩
  · dsimp only
    rw [h.tail, Nat.mod_eq_of_lt (by omega)]
  · simp [h.sent]
  · simp only [List.length_drop]
    omega

/-- Byte by byte the counters reach any number below `2 ^ 32`. -/
theorem exists_lag (content : Bytes) (buf : Nat → UInt8) (hl : n < content.length) (hn : n + 1 < 2 ^ 32) :
    ∃ x ios, Lag content.length n x ∧
      ∀ ios', upload buf content (ios ++ ios') = transferLoop uploadTurn x ios' := by
  induction n with
  | zero =>
    have hw : writeFromTaskbuf ⟨buf, 0, 0, 0⟩ .again = (.tbufEnd, ⟨buf, 0, 0, 0⟩, []) := rfl
    have hr := read_one (t := ⟨buf, 0, 0, 0⟩) rfl content hl
    have ht : ∃ y, uploadTurn ⟨⟨buf, 0, 0, 0⟩, content, []⟩ .again (.upTo 1) = (.running, y) ∧
        Lag content.length 0 y := by
      refine ⟨_, by simp only [uploadTurn, hw, hr]; rfl, rfl, rfl, rfl, ?_⟩
      simp only [List.length_drop]
      omega
    obtain ⟨y, ht, hy⟩ := ht
    exact ⟨y, [(.again, .upTo 1)], hy, fun ios' => transferLoop_running ht⟩
  | succ n ih =>
    obtain ⟨x, ios, hx, hrun⟩ := ih (by omega) (by omega)
    obtain ⟨y, ht, hy⟩ := hx.turn (by omega) hl
    refine ⟨y, ios ++ [(.upTo 1, .upTo 1)], hy, fun ios' => ?_⟩
    rw [List.append_assoc, hrun]
    exact transferLoop_running ht

/-- The wrap-around: `tail` becomes 0 with one unread byte in the buffer. -/
theorem Lag.wrap (h : Lag l (2 ^ 32 - 2) x) (hl : 2 ^ 32 ≤ l) :
    ∃ y, uploadTurn x (.upTo 1) (.upTo 1) = (.running, y) ∧ y.task.head = 2 ^ 32 - 1 ∧
      y.task.tail = 0 ∧ y.sent.length = 2 ^ 32 - 1 ∧ y.rest.length + 2 ^ 32 = l := by
  obtain ⟨c, hw⟩ := h.write (by omega)
  have hrest := h.rest
  have hr := read_one (t := { x.task with
    head := 2 ^ 32 - 2 + 1, totalWritten := (x.task.totalWritten + 1) % 2 ^ 32 }) h.tail.symm
    x.rest (by omega)
  refine ⟨_, by simp only [uploadTurn, hw, hr]; rfl, rfl, ?_, ?_, ?_⟩
  · have := h.tail
    dsimp only
    omega
  · simp [h.sent]
  · simp only [List.length_drop]
    omega

/-- Behind the wrap-around the code takes the rest of the buffer for unread bytes. -/
theorem write_wrapped {t : Task} (h1 : t.head = 2 ^ 32 - 1) (h2 : t.tail = 0) :
    ∃ t' out, writeFromTaskbuf t (.upTo taskBufSiz) = (.tbufOk, t', out) ∧ out.length = 32705 := by
  have hcount : t.writeCount = 32705 := by
    rw [Task.writeCount, Task.headpos, Task.tailpos, h1, h2]
    decide
  have hne : ¬ t.head = t.tail := by
    rw [h1, h2]
    decide
  simp only [writeFromTaskbuf, if_neg hne, hcount]
  exact ⟨_, _, rfl, Ring.length_load ..⟩

theorem not_faithful_of_le (hl : 2 ^ 32 ≤ content.length) : ¬ UploadFaithful content := by
  intro hf
  obtain ⟨x, ios, hx, hrun⟩ := exists_lag content (n := 2 ^ 32 - 2) (fun _ => 0)
    (by omega) (by omega)
  obtain ⟨y, ht, h1, h2, hs, hr⟩ := hx.wrap hl
  obtain ⟨t', out, hw, ho⟩ := write_wrapped h1 h2
  obtain ⟨q, hq⟩ := hf.next (fun _ => 0)
    (ios ++ [(.upTo 1, .upTo 1), (.upTo taskBufSiz, .error)])
  have hlast : (transferLoop uploadTurn y [(.upTo taskBufSiz, .error)]).2 =
      ⟨t', y.rest, y.sent ++ out⟩ := by
    simp only [transferLoop, uploadTurn, hw]
    rfl
  rw [hrun, transferLoop_running ht, hlast] at hq
  -- more bytes have been handed out than were put in
  have := congrArg List.length hq
  simp only [List.length_append] at this
  omega

end

/-- **Uploads are faithful below 4 GiB only**: however the reads from the disk and
the writes to the peer go, the peer gets the bytes of the file in order, each
once, if and only if the file is shorter than `2 ^ 32` bytes. -/
theorem uploadFaithful_iff (content : Bytes) :
    UploadFaithful content ↔ content.length < 2 ^ 32 :=
  ⟨fun h => Nat.lt_of_not_le fun hl => not_faithful_of_le hl h, faithful_of_lt⟩

/-- A file of 4 GiB of zeros. -/
theorem zeros_not_faithful : ¬ UploadFaithful (List.replicate (2 ^ 32) 0) :=
  not_faithful_of_le (Nat.le_of_eq List.length_replicate.symm)

end OsLabs.Osp2p
