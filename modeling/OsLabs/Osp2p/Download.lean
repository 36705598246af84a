import OsLabs.Osp2p.Taskbuf

/-!
# Downloads

`taskDownload` goes through the list of peers: it opens a new file, moves the
stream of the peer into it through the task buffer and, where that fails or gives
nothing, removes the file and goes on with the next peer. `Conduct` says how the
connection to a peer and the local disk behave meanwhile.

The 20 MiB limit keeps the counters of the buffer far from their wrap-around.
The message sent to the peer (see `Osp2p.Messages`) and the texts printed are
left out, file names are not cut at `FILENAMESIZ`.
-/

namespace OsLabs.Osp2p

/-- The address of a `peer_t`. -/
structure Peer where
  addr : Nat
  port : Nat
  deriving DecidableEq, Repr

/-- What happens while one peer is tried. -/
structure Conduct where
  /-- `open_socket` succeeds. -/
  connects : Bool
  /-- All that the peer sends before the connection ends. -/
  stream : Bytes
  /-- The `i`-th `open` fails with another error than `EEXIST`. -/
  openFails : Nat → Bool
  /-- What becomes of the `read` and the `write` of each turn. -/
  ios : List (Io × Io)
  /-- `unlink` succeeds. -/
  unlinks : Bool

/-- The files of the current directory. -/
abbrev Disk := String → Option Bytes

/-- The limit on `total_written`. -/
def maxDownload : Nat := 20 * 1024 * 1024

/-- One turn of the loop of `task_download`. -/
def downloadTurn (x : Transfer) (rio wio : Io) : Phase × Transfer :=
  let (r, t, rest) := readToTaskbuf x.task x.rest rio
  let x := { x with task := t, rest := rest }
  if r = .tbufError then (.failed, x)
  else if r = .tbufEnd ∧ x.task.head = x.task.tail then (.complete, x)
  else if maxDownload < x.task.totalWritten then (.failed, x)
  else
    let (r, t, out) := writeFromTaskbuf x.task wio
    let x := { x with task := t, sent := x.sent ++ out }
    if r = .tbufError then (.failed, x) else (.running, x)

/-- The `i`-th name tried for the local file. -/
def diskFilename (filename : String) (i : Nat) : String :=
  if i = 0 then filename else filename ++ "~" ++ toString i ++ "~"

inductive Opened where
  | cannotOpen (name : String)
  | saving (name : String)
  | tooMany

/-- The search for a new file; `n` names are left to try. An empty name cannot be opened. -/
def openDisk (filename : String) (openFails : Nat → Bool) (disk : Disk) : (n i : Nat) → Opened
  | 0, _ => .tooMany
  | n + 1, i =>
    if diskFilename filename i = "" ∨ openFails i = true then .cannotOpen (diskFilename filename i)
    else if (disk (diskFilename filename i)).isSome then openDisk filename openFails disk n (i + 1)
    else .saving (diskFilename filename i)

/-- `task_new`; `malloc` leaves anything in the buffer. -/
def taskNew (buf : Nat → UInt8) : Task := ⟨buf, 0, 0, 0⟩

/-- `task_pop_peer`, less the peer list. -/
def taskPopPeer (t : Task) : Task := { t with head := 0, tail := 0, totalWritten := 0 }

/-- How the call for one peer ends. -/
inductive Attempt where
  /-- At `try_again`, with the name in `disk_filename`. -/
  | tryAgain (t : Task) (name : String) (disk : Disk)
  /-- `announced` tells whether the tracker is informed. -/
  | downloaded (name : String) (disk : Disk) (announced : Bool)
  | tooMany
  /-- The transfer loop has not ended. -/
  | running

/-- `task_download` for the first peer of the list. -/
def tryPeer (listen : Peer) (filename : String) (t : Task) (disk : Disk) (p : Peer) (c : Conduct) :
    Attempt :=
  if p = listen then .tryAgain t "" disk
  else if c.connects = false then .tryAgain t "" disk
  else
    match openDisk filename c.openFails disk 50 0 with
    | .cannotOpen name => .tryAgain t name disk
    | .tooMany => .tooMany
    | .saving name =>
      let (phase, x) := transferLoop downloadTurn ⟨t, c.stream, []⟩ c.ios
      let disk := Function.update disk name (some x.sent)
      match phase with
      | .running => .running
      | .failed => .tryAgain x.task name disk
      | .complete =>
        if 0 < x.task.totalWritten then .downloaded name disk (filename == name)
        else .tryAgain x.task name disk

/-- `if (t->disk_filename[0]) unlink(t->disk_filename)`. -/
def removePartial (c : Conduct) (name : String) (disk : Disk) : Disk :=
  if name = "" ∨ c.unlinks = false then disk else Function.update disk name none

inductive Report where
  | noPeers
  | downloaded (name : String) (announced : Bool)
  | tooMany
  | running
  deriving DecidableEq, Repr

/-- The files at the end, the peers tried in order, and what is reported. -/
structure Download where
  disk : Disk
  tried : List Peer
  report : Report

/-- `task_download`, which calls itself for the rest of the list. -/
def taskDownload (listen : Peer) (filename : String) (t : Task) (disk : Disk) :
    List (Peer × Conduct) → Download
  | [] => ⟨disk, [], .noPeers⟩
  | (p, c) :: peers =>
    match tryPeer listen filename t disk p c with
    | .tryAgain t name disk =>
      let d := taskDownload listen filename (taskPopPeer t) (removePartial c name disk) peers
      { d with tried := p :: d.tried }
    | .downloaded name disk announced => ⟨disk, [p], .downloaded name announced⟩
    | .tooMany => ⟨disk, [p], .tooMany⟩
    | .running => ⟨disk, [p], .running⟩

/-! ## One transfer -/

/-- The file holds the front of the stream and the buffer what follows. -/
structure Saving (stream : Bytes) (x : Transfer) : Prop where
  flow : ∃ q, stream = x.sent ++ q ++ x.rest ∧ Buffers x.task x.sent q
  written : x.task.totalWritten = x.sent.length
  small : x.sent.length ≤ maxDownload + taskBufSiz

section

variable {stream : Bytes} {x y : Transfer} {p : Phase} {rio wio : Io}

theorem Saving.turn (h : Saving stream x) (ht : downloadTurn x rio wio = (p, y)) :
    Saving stream y ∧ (p = .complete → y.sent = stream ∧ y.task.totalWritten = y.sent.length) := by
  obtain ⟨⟨q, hc, hb⟩, hwritten, hsmall⟩ := h
  have hlimit : maxDownload + taskBufSiz + taskBufSiz < 2 ^ 32 := by decide
  rcases hr : readToTaskbuf x.task x.rest rio with ⟨r, t, rest⟩
  rcases hw : writeFromTaskbuf t wio with ⟨r', t', out⟩
  simp only [downloadTurn, hr, hw] at ht
  obtain ⟨c, hrest, hb', hsame, hend⟩ := hb.read hr (.inl (by omega))
  rw [← hsame] at hwritten
  rw [hrest, ← List.append_assoc, List.append_assoc _ q c] at hc
  split at ht
  · cases ht
    exact ⟨⟨⟨_, hc, hb'⟩, hwritten, hsmall⟩, nofun⟩
  · split at ht
    · next he =>
      cases ht
      refine ⟨⟨⟨_, hc, hb'⟩, hwritten, hsmall⟩, fun _ => ⟨?_, hwritten⟩⟩
      rw [hend he.1 he.2, hb'.head_eq_tail.mp he.2, List.append_nil, List.append_nil] at hc
      exact hc.symm
    · split at ht
      · cases ht
        exact ⟨⟨⟨_, hc, hb'⟩, hwritten, hsmall⟩, nofun⟩
      · next hmax =>
        obtain ⟨q', hq, hb'', hmore⟩ := hb'.write hw
        have hq' := congrArg List.length hq
        have hle := hb'.holds.length_le
        simp only [List.length_append] at hq' hle
        rw [hwritten] at hmax hmore
        have hsaving : Saving stream ⟨t', rest, x.sent ++ out⟩ := by
          refine ⟨⟨q', ?_, hb''⟩, ?_, ?_⟩
          · rw [hc, hq]
            simp only [List.append_assoc]
          · rw [List.length_append]
            exact hmore (by omega)
          · rw [List.length_append]
            omega
        split at ht <;> cases ht <;> exact ⟨hsaving, nofun⟩

theorem transfer_complete (buf : Nat → UInt8) (ios : List (Io × Io))
    (h : transferLoop downloadTurn ⟨taskNew buf, stream, []⟩ ios = (.complete, x)) :
    x.sent = stream ∧ x.task.totalWritten = stream.length := by
  have h0 : Saving stream ⟨taskNew buf, stream, []⟩ :=
    ⟨⟨[], rfl, buffers_empty rfl rfl⟩, rfl, Nat.zero_le _⟩
  have := (transferLoop_inv downloadTurn
    (C := fun x => x.sent = stream ∧ x.task.totalWritten = x.sent.length)
    (fun _ _ _ _ _ h => h.turn) h0 ios).2
  rw [h] at this
  obtain ⟨h1, h2⟩ := this rfl
  exact ⟨h1, h1 ▸ h2⟩

end

/-! ## All peers -/

section

variable {listen p : Peer} {filename name : String} {disk disk' : Disk} {c : Conduct}
  {buf : Nat → UInt8} {announced : Bool}

theorem openDisk_saving : ∀ {n i : Nat}, openDisk filename c.openFails disk n i = .saving name →
    disk name = none ∧ name ≠ ""
  | 0, _, h => nomatch h
  | n + 1, i, h => by
    rw [openDisk] at h
    split at h
    · cases h
    · next hno =>
      split at h
      · exact openDisk_saving h
      · next hnew =>
        cases h
        exact ⟨Option.not_isSome_iff_eq_none.mp hnew, fun e => hno (.inl e)⟩

theorem tryPeer_complete
    (h : tryPeer listen filename (taskNew buf) disk p c = .downloaded name disk' announced) :
    ∃ x, transferLoop downloadTurn ⟨taskNew buf, c.stream, []⟩ c.ios = (.complete, x) ∧
      disk' = Function.update disk name (some x.sent) ∧ 0 < x.task.totalWritten := by
  simp only [tryPeer] at h
  split at h
  · cases h
  · split at h
    · cases h
    · split at h
      · cases h
      · cases h
      · rcases hx : transferLoop downloadTurn ⟨taskNew buf, c.stream, []⟩ c.ios with ⟨phase, x⟩
        rw [hx] at h
        cases phase with
        | running => cases h
        | failed => cases h
        | complete =>
          simp only at h
          split at h
          · next hpos =>
            cases h
            exact ⟨x, rfl, rfl, hpos⟩
          · cases h

/-- What a successful call has saved: all of the stream, in a new file. -/
theorem tryPeer_downloaded
    (h : tryPeer listen filename (taskNew buf) disk p c = .downloaded name disk' announced) :
    disk' = Function.update disk name (some c.stream) ∧ c.stream ≠ [] := by
  obtain ⟨x, hx, rfl, hpos⟩ := tryPeer_complete h
  obtain ⟨hs, hlen⟩ := transfer_complete buf c.ios hx
  rw [hs]
  exact ⟨rfl, List.length_pos_iff.mp (hlen ▸ hpos)⟩

/-- Files that are as they were, but for some that are gone. -/
def Remains (disk disk' : Disk) : Prop := ∀ n, disk' n = none ∨ disk' n = disk n

theorem Remains.refl (disk : Disk) : Remains disk disk := fun _ => .inr rfl

theorem remains_removed (disk : Disk) (name : String) (o : Option Bytes) :
    Remains disk (Function.update (Function.update disk name o) name none) := by
  intro n
  by_cases e : n = name
  · rw [e, Function.update_self]
    exact .inl rfl
  · rw [Function.update_of_ne e, Function.update_of_ne e]
    exact .inr rfl

theorem removePartial_of_ne (hu : c.unlinks = true) (hn : name ≠ "") (d : Disk) :
    removePartial c name d = Function.update d name none := by
  rw [removePartial, if_neg]
  simp [hu, hn]

theorem tryPeer_tryAgain {t : Task} {d : Disk} (hu : c.unlinks = true)
    (h : tryPeer listen filename (taskNew buf) disk p c = .tryAgain t name d) :
    Remains disk (removePartial c name d) := by
  -- no file of the peer's yet
  have unopened : ∀ n, Remains disk (removePartial c n disk) := by
    intro n
    by_cases hn : n = ""
    · rw [removePartial, if_pos (.inl hn)]
      exact .refl disk
    · rw [removePartial_of_ne hu hn]
      simpa using remains_removed disk n (disk n)
  simp only [tryPeer] at h
  split at h
  · cases h
    exact unopened ""
  · split at h
    · cases h
      exact unopened ""
    · split at h
      · cases h
        exact unopened _
      · cases h
      · next ho =>
        have hn := (openDisk_saving ho).2
        rcases hx : transferLoop downloadTurn ⟨taskNew buf, c.stream, []⟩ c.ios with ⟨phase, x⟩
        rw [hx] at h
        cases phase with
        | running => cases h
        | failed =>
          cases h
          rw [removePartial_of_ne hu hn]
          exact remains_removed _ _ _
        | complete =>
          simp only at h
          split at h
          · cases h
          · cases h
            rw [removePartial_of_ne hu hn]
            exact remains_removed _ _ _

end

/-- The first peer breaks off behind its first byte, and its file cannot be removed; the second
sends one byte. -/
def stubbornFile : List (Peer × Conduct) :=
  [(⟨1, 1⟩, ⟨true, [1, 2], fun _ => false, [(.upTo 1, .upTo 1), (.error, .again)], false⟩),
    (⟨2, 1⟩, ⟨true, [7], fun _ => false, [(.upTo 1, .upTo 1), (.upTo 1, .again)], true⟩)]

/-- The first peer sends nothing; the second sends three bytes, the last one after
an interrupted read. -/
def twoPeers : List (Peer × Conduct) :=
  [(⟨1, 1⟩, ⟨true, [], fun _ => false, [(.upTo 8, .upTo 8)], true⟩),
    (⟨2, 1⟩, ⟨true, [7, 8, 9], fun _ => false,
      [(.upTo 2, .upTo 1), (.again, .upTo 1), (.upTo 1, .upTo 8), (.upTo 1, .again)], true⟩)]

end OsLabs.Osp2p
