import Mathlib.Data.List.Perm.Basic
import Mathlib.Logic.Function.Basic
import OsLabs.Lib.ByteMem
import OsLabs.Lib.Runs

/-!
# The ramdisk data: requests

`processRequest` is `osprd_process_request`, one turn of the loop of
`osprd_process_request_queue`. The block layer keeps a queue for each device. It may
append requests at any time, hand them out in any order, and take a request of several
pieces back one piece at a time (`end_request` advances `sector`, `current_nr_sectors` and
`buffer` to the next piece). The rest of the kernel writes the memory as it likes, except
for the data arrays.

`sectors_linear`: over every such run each device is an array of sectors of its own.
Sector numbers (`sector_t`), lengths and addresses have 32 bits.
-/

namespace OsLabs.Osprd

def sectorSize : Nat := 512

/-- `READ` and `WRITE` of the block layer. -/
def READ : Nat := 0

def WRITE : Nat := 1

abbrev nosprd : Nat := 4

/-- `struct request`: its current piece, and the length and the buffer of every later one. -/
structure Request where
  fsRequest : Bool
  dataDir : Nat
  sector : Nat
  currentNrSectors : Nat
  buffer : Nat
  later : List (Nat × Nat)
  deriving DecidableEq, Repr

/-- The module parameter and the arrays that `setup_device` gets from `vmalloc`. -/
structure Arrays where
  nsectors : Nat
  data : Fin nosprd → Nat
  below : ∀ i, data i + nsectors * sectorSize ≤ 2 ^ 32
  apart : ∀ i j, i ≠ j →
    data i + nsectors * sectorSize ≤ data j ∨ data j + nsectors * sectorSize ≤ data i

variable (D : Arrays)

/-- The memory after the call, and the `uptodate` of its `end_request`. -/
def processRequest (i : Fin nosprd) (m : Mem) (req : Request) : Mem × Bool :=
  if req.fsRequest = false then (m, false)
  else
    let ptr := (D.data i + req.sector * sectorSize) % 2 ^ 32
    if (req.sector + req.currentNrSectors) % 2 ^ 32 > D.nsectors then (m, false)
    else if req.dataDir = READ then
      (m.copy m req.buffer ptr (req.currentNrSectors * sectorSize % 2 ^ 32), true)
    else if req.dataDir = WRITE then
      (m.copy m ptr req.buffer (req.currentNrSectors * sectorSize % 2 ^ 32), true)
    else (m, false)

/-- What `end_request` leaves of the request. -/
def Request.next (req : Request) : Option Request :=
  match req.later with
  | [] => none
  | (n, b) :: later => some { req with
      sector := req.sector + req.currentNrSectors, currentNrSectors := n, buffer := b, later }

def endRequest (q : List Request) (req : Request) : List Request :=
  req.next.toList ++ q.erase req

/-! ## Runs -/

structure Drives where
  mem : Mem
  queue : Fin nosprd → List Request

inductive Event where
  /-- The block layer queues a request. -/
  | submit (i : Fin nosprd) (req : Request)
  /-- The rest of the kernel leaves this memory behind. -/
  | kernel (m : Mem)
  /-- One turn of the loop: the request from `elv_next_request`, the result for its current
  piece, and the bytes of its buffer after the turn. -/
  | turn (i : Fin nosprd) (req : Request) (uptodate : Bool) (bytes : List UInt8)

/-- A piece of a request that the block layer may send to a driver: no wraparound, and
a buffer outside the data arrays. -/
structure Piece (sector nr buffer : Nat) : Prop where
  sectors : sector + nr < 2 ^ 32
  room : buffer + nr * sectorSize < 2 ^ 32
  apart : ∀ i, buffer + nr * sectorSize ≤ D.data i ∨
    D.data i + D.nsectors * sectorSize ≤ buffer

/-- The pieces of a request, with their sectors. -/
def piecesFrom (sector : Nat) : List (Nat × Nat) → List (Nat × Nat × Nat)
  | [] => []
  | (n, b) :: l => (sector, n, b) :: piecesFrom (sector + n) l

def Request.pieces (req : Request) : List (Nat × Nat × Nat) :=
  piecesFrom req.sector ((req.currentNrSectors, req.buffer) :: req.later)

/-- What the rest of the kernel promises: proper requests, and to leave the data arrays alone. -/
def Allowed (s : Drives) : Event → Prop
  | .submit _ req => req.fsRequest = true → ∀ p ∈ req.pieces, Piece D p.1 p.2.1 p.2.2
  | .kernel m => ∀ i x, x < D.nsectors * sectorSize → m (D.data i + x) = s.mem (D.data i + x)
  | .turn .. => True

def Drives.step (s : Drives) : Event → Drives → Prop
  | .submit i req, s' =>
    s' = { s with queue := Function.update s.queue i (s.queue i ++ [req]) }
  | .kernel m, s' => s' = { s with mem := m }
  | .turn i req uptodate bytes, s' =>
    req ∈ s.queue i ∧ (processRequest D i s.mem req).2 = uptodate ∧
      s' = ⟨(processRequest D i s.mem req).1,
        Function.update s.queue i (endRequest (s.queue i) req)⟩ ∧
      bytes = s'.mem.load req.buffer (req.currentNrSectors * sectorSize)

/-- `setup_device` has cleared the arrays, and the queues are empty. -/
def drives : System Drives Event where
  Init s := (∀ i x, x < D.nsectors * sectorSize → s.mem (D.data i + x) = 0) ∧
    ∀ i, s.queue i = []
  Step := Drives.step D

/-! ## The array of sectors -/

/-- Byte `x` of device `i` after the turns of a history (newest first): what the last
successful write that covers it has stored. -/
def content : List Event → Fin nosprd → Nat → UInt8
  | [], _, _ => 0
  | .turn j req true bytes :: h, i, x =>
    if j = i ∧ req.dataDir = WRITE ∧ req.sector * sectorSize ≤ x ∧
        x < req.sector * sectorSize + req.currentNrSectors * sectorSize then
      bytes.getD (x - req.sector * sectorSize) 0
    else content h i x
  | _ :: h, i, x => content h i x

/-- The pieces that the requests of a history have brought to device `i`. -/
def submitted (i : Fin nosprd) : List Event → List (Nat × Nat × Nat)
  | [] => []
  | .submit j req :: h => (if j = i then req.pieces else []) ++ submitted i h
  | _ :: h => submitted i h

/-- The pieces that `end_request` has completed on device `i`. -/
def completed (i : Fin nosprd) : List Event → List (Nat × Nat × Nat)
  | [] => []
  | .turn j req _ _ :: h =>
    (if j = i then [(req.sector, req.currentNrSectors, req.buffer)] else []) ++ completed i h
  | _ :: h => completed i h

/-- The requests that the driver performs. -/
structure Request.Good (req : Request) : Prop where
  fs : req.fsRequest = true
  fits : req.sector + req.currentNrSectors ≤ D.nsectors
  dir : req.dataDir = READ ∨ req.dataDir = WRITE

/-- Every turn of the history was right: exactly the good pieces succeeded, and a read
found what the turns before it had written. -/
def Served : List Event → Prop
  | [] => True
  | .turn i req uptodate bytes :: h =>
    ((uptodate = true ↔ req.Good D) ∧
      (uptodate = true → req.dataDir = READ → ∀ k < req.currentNrSectors * sectorSize,
        bytes.getD k 0 = content h i (req.sector * sectorSize + k))) ∧ Served h
  | _ :: h => Served h

/-! ## One turn -/

variable {D} {i : Fin nosprd} {m : Mem} {req req' : Request}

theorem next_pieces :
    req.pieces = (req.sector, req.currentNrSectors, req.buffer) ::
      (req.next.elim [] Request.pieces) := by
  unfold Request.pieces Request.next piecesFrom
  split
  · next h =>
    rw [h]
    rfl
  · next h =>
    rw [h]
    rfl

theorem next_fsRequest (h : req.next = some req') : req'.fsRequest = req.fsRequest := by
  unfold Request.next at h
  split at h
  · cases h
  · cases h
    rfl

/-- A request the driver does not perform is ended with an error, and nothing else. -/
theorem processRequest_bad (hp : req.fsRequest = true → Piece D req.sector req.currentNrSectors req.buffer)
    (h : ¬ req.Good D) : processRequest D i m req = (m, false) := by
  unfold processRequest
  split
  · rfl
  · next hfs =>
    rw [Bool.not_eq_false] at hfs
    split
    · rfl
    · next hle =>
      rw [Nat.mod_eq_of_lt (hp hfs).sectors] at hle
      rw [if_neg fun hd => h ⟨hfs, by omega, .inl hd⟩, if_neg fun hd => h ⟨hfs, by omega, .inr hd⟩]

/-- The addresses of a good piece do not wrap around. -/
theorem Request.Good.address (h : req.Good D) (i : Fin nosprd)
    (hp : Piece D req.sector req.currentNrSectors req.buffer) (hn : 0 < req.currentNrSectors) :
    (D.data i + req.sector * sectorSize) % 2 ^ 32 = D.data i + req.sector * sectorSize ∧
      req.currentNrSectors * sectorSize % 2 ^ 32 = req.currentNrSectors * sectorSize := by
  have hb := D.below i
  have hf := h.fits
  have hr := hp.room
  unfold sectorSize at *
  exact ⟨Nat.mod_eq_of_lt (by omega), Nat.mod_eq_of_lt (by omega)⟩

theorem copy_zero (a b : Nat) : m.copy m a b 0 = m := by
  funext x
  unfold Mem.copy
  rw [if_neg (by omega)]

/-- A good piece is copied. -/
theorem processRequest_good (h : req.Good D)
    (hp : Piece D req.sector req.currentNrSectors req.buffer) :
    processRequest D i m req =
      (if req.dataDir = READ then
        m.copy m req.buffer (D.data i + req.sector * sectorSize) (req.currentNrSectors * sectorSize)
      else
        m.copy m (D.data i + req.sector * sectorSize) req.buffer (req.currentNrSectors * sectorSize),
      true) := by
  unfold processRequest
  rw [if_neg (by simp [h.fs])]
  dsimp only
  rw [Nat.mod_eq_of_lt hp.sectors, if_neg (Nat.not_lt.2 h.fits)]
  rcases Nat.eq_zero_or_pos req.currentNrSectors with hn | hn
  · rw [hn, Nat.zero_mul, Nat.zero_mod]
    simp only [copy_zero]
    rcases h.dir with hd | hd
    · rw [if_pos hd, if_pos hd]
    · rw [hd, if_neg (by decide), if_pos rfl, if_neg (by decide)]
  · obtain ⟨hptr, hlen⟩ := h.address i hp hn
    rw [hptr, hlen]
    rcases h.dir with hd | hd
    · rw [if_pos hd, if_pos hd]
    · rw [hd, if_neg (by decide), if_pos rfl, if_neg (by decide)]

theorem processRequest_uptodate
    (hp : req.fsRequest = true → Piece D req.sector req.currentNrSectors req.buffer) :
    (processRequest D i m req).2 = true ↔ req.Good D := by
  constructor
  · intro hup
    by_contra hbad
    rw [processRequest_bad hp hbad] at hup
    cases hup
  · intro h
    rw [processRequest_good h (hp h.fs)]

/-- The buffer of a good piece ends with the sectors (read) or is left as it was (write). -/
theorem processRequest_buffer (h : req.Good D)
    (hp : Piece D req.sector req.currentNrSectors req.buffer) {k : Nat}
    (hk : k < req.currentNrSectors * sectorSize) :
    (processRequest D i m req).1 (req.buffer + k) =
      if req.dataDir = READ then m (D.data i + (req.sector * sectorSize + k))
      else m (req.buffer + k) := by
  rw [processRequest_good h hp]
  dsimp only
  split
  · unfold Mem.copy
    rw [if_pos (by omega)]
    congr 1
    omega
  · have hfit : req.sector * sectorSize + req.currentNrSectors * sectorSize ≤
        D.nsectors * sectorSize := by
      rw [← Nat.add_mul]
      exact Nat.mul_le_mul_right _ h.fits
    have := hp.apart i
    unfold Mem.copy
    rw [if_neg (by omega)]

/-- Only a piece of device `i` in the array of device `i` is written. -/
theorem processRequest_data (hp : req.fsRequest = true → Piece D req.sector req.currentNrSectors req.buffer)
    {j : Fin nosprd} {x : Nat} (hx : x < D.nsectors * sectorSize) :
    (processRequest D i m req).1 (D.data j + x) =
      if (processRequest D i m req).2 = true ∧ i = j ∧ req.dataDir = WRITE ∧ req.sector * sectorSize ≤ x ∧
          x < req.sector * sectorSize + req.currentNrSectors * sectorSize then
        m (req.buffer + (x - req.sector * sectorSize))
      else m (D.data j + x) := by
  by_cases h : req.Good D
  · have hfit : req.sector * sectorSize + req.currentNrSectors * sectorSize ≤
        D.nsectors * sectorSize := by
      rw [← Nat.add_mul]
      exact Nat.mul_le_mul_right _ h.fits
    have hpc := hp h.fs
    rw [processRequest_good h hpc]
    dsimp only
    rcases h.dir with hd | hd
    · rw [if_pos hd, hd, if_neg (by simp [READ, WRITE])]
      unfold Mem.copy
      have := hpc.apart j
      rw [if_neg (by omega)]
    · rw [hd, if_neg (by decide)]
      unfold Mem.copy
      by_cases hij : i = j
      · subst hij
        by_cases hin : req.sector * sectorSize ≤ x ∧
            x < req.sector * sectorSize + req.currentNrSectors * sectorSize
        · rw [if_pos (by omega), if_pos ⟨rfl, rfl, rfl, hin⟩]
          congr 1
          omega
        · rw [if_neg (by omega), if_neg fun hc => hin hc.2.2.2]
      · have := D.apart i j hij
        rw [if_neg (by omega), if_neg fun hc => hij hc.2.1]
  · rw [processRequest_bad hp h, if_neg fun hc => Bool.false_ne_true hc.1]

theorem turn_step {s : Drives} (hr : req ∈ s.queue i) : (drives D).Step s
    (.turn i req (processRequest D i s.mem req).2
      ((processRequest D i s.mem req).1.load req.buffer (req.currentNrSectors * sectorSize)))
    ⟨(processRequest D i s.mem req).1, Function.update s.queue i (endRequest (s.queue i) req)⟩ :=
  ⟨hr, rfl, rfl, rfl⟩

/-! ## Every run -/

variable {s s' : Drives} {h : List Event}

structure DrivesInv (D : Arrays) (h : List Event) (s : Drives) : Prop where
  proper : ∀ i, ∀ req ∈ s.queue i, req.fsRequest = true →
    ∀ p ∈ req.pieces, Piece D p.1 p.2.1 p.2.2
  stored : ∀ i x, x < D.nsectors * sectorSize → s.mem (D.data i + x) = content h i x
  served : Served D h
  pieces : ∀ i, (submitted i h).Perm (completed i h ++ (s.queue i).flatMap Request.pieces)

theorem drivesInv_init (hi : (drives D).Init s) : DrivesInv D [] s where
  proper i req hr := by
    rw [hi.2 i] at hr
    cases hr
  stored := hi.1
  served := trivial
  pieces i := by
    rw [hi.2 i]
    exact .nil

theorem DrivesInv.submit (hI : DrivesInv D h s) {j : Fin nosprd} (hg : Allowed D s (.submit j req)) :
    DrivesInv D (.submit j req :: h)
      { s with queue := Function.update s.queue j (s.queue j ++ [req]) } where
  proper i r hr := by
    rcases eq_or_ne i j with rfl | hij
    · simp only [Function.update_self, List.mem_append, List.mem_singleton] at hr
      rcases hr with hr | rfl
      · exact hI.proper i r hr
      · exact hg
    · simp only [Function.update_of_ne hij] at hr
      exact hI.proper i r hr
  stored := hI.stored
  served := hI.served
  pieces i := by
    rcases eq_or_ne i j with rfl | hij
    · simp only [submitted, completed, Function.update_self, if_pos, List.flatMap_append,
        List.flatMap_cons, List.flatMap_nil, List.append_nil]
      rw [← List.append_assoc]
      exact List.perm_append_comm.trans ((hI.pieces i).append_right _)
    · simp only [submitted, completed, Function.update_of_ne hij, if_neg hij.symm, List.nil_append]
      exact hI.pieces i

/-- Taking a piece back and queueing the rest of the request loses no piece. -/
theorem endRequest_pieces {q : List Request} (hr : req ∈ q) :
    (q.flatMap Request.pieces).Perm
      ((req.sector, req.currentNrSectors, req.buffer) ::
        (endRequest q req).flatMap Request.pieces) := by
  have hq : (q.flatMap Request.pieces).Perm ((req :: q.erase req).flatMap Request.pieces) :=
    (List.perm_cons_erase hr).flatMap_right _
  refine hq.trans ?_
  rw [List.flatMap_cons, next_pieces, endRequest, List.flatMap_append]
  cases req.next with
  | none => exact .refl _
  | some r => simp

/-- What stays queued is proper. -/
theorem DrivesInv.endRequest_proper (hI : DrivesInv D h s) (hr : req ∈ s.queue i) :
    ∀ r ∈ endRequest (s.queue i) req, r.fsRequest = true →
      ∀ p ∈ r.pieces, Piece D p.1 p.2.1 p.2.2 := by
  intro r hmem hfs p hp
  rcases List.mem_append.1 hmem with hnext | hold
  · rw [Option.mem_toList] at hnext
    have hfs' := next_fsRequest hnext
    apply hI.proper i req hr (hfs'.symm.trans hfs)
    rw [next_pieces, hnext]
    exact List.mem_cons_of_mem _ hp
  · exact hI.proper i r (List.mem_of_mem_erase hold) hfs p hp

theorem DrivesInv.turn (hI : DrivesInv D h s) {j : Fin nosprd} (hr : req ∈ s.queue j) :
    DrivesInv D
      (.turn j req (processRequest D j s.mem req).2
        ((processRequest D j s.mem req).1.load req.buffer (req.currentNrSectors * sectorSize)) :: h)
      ⟨(processRequest D j s.mem req).1,
        Function.update s.queue j (endRequest (s.queue j) req)⟩ := by
  have hp : req.fsRequest = true → Piece D req.sector req.currentNrSectors req.buffer := by
    intro hfs
    apply hI.proper j req hr hfs (req.sector, req.currentNrSectors, req.buffer)
    rw [next_pieces]
    exact List.mem_cons_self
  have hload : ∀ k < req.currentNrSectors * sectorSize,
      ((processRequest D j s.mem req).1.load req.buffer
        (req.currentNrSectors * sectorSize)).getD k 0 =
        (processRequest D j s.mem req).1 (req.buffer + k) := by
    intro k hk
    rw [List.getD_eq_getElem _ _ (by simpa using hk), Mem.getElem_load]
  constructor
  · intro i r hmem
    rcases eq_or_ne i j with rfl | hij
    · simp only [Function.update_self] at hmem
      exact hI.endRequest_proper hr r hmem
    · simp only [Function.update_of_ne hij] at hmem
      exact hI.proper i r hmem
  · intro i x hx
    dsimp only
    rw [processRequest_data hp hx]
    cases hup : (processRequest D j s.mem req).2 with
    | false => exact (if_neg fun hc => Bool.false_ne_true hc.1).trans (hI.stored i x hx)
    | true =>
      have hgood := (processRequest_uptodate hp).1 hup
      by_cases hc : j = i ∧ req.dataDir = WRITE ∧ req.sector * sectorSize ≤ x ∧
          x < req.sector * sectorSize + req.currentNrSectors * sectorSize
      · rw [if_pos ⟨rfl, hc⟩, content, if_pos hc, hload _ (by omega),
          processRequest_buffer hgood (hp hgood.fs) (by omega),
          if_neg (by rw [hc.2.1]; decide)]
      · rw [if_neg fun h => hc h.2, content, if_neg hc]
        exact hI.stored i x hx
  · refine ⟨⟨processRequest_uptodate hp, fun hup hread k hk => ?_⟩, hI.served⟩
    have hgood := (processRequest_uptodate hp).1 hup
    have hfit := Nat.mul_le_mul_right sectorSize hgood.fits
    rw [Nat.add_mul] at hfit
    rw [hload k hk, processRequest_buffer hgood (hp hgood.fs) hk, if_pos hread]
    exact hI.stored j _ (by omega)
  · intro i
    rcases eq_or_ne i j with rfl | hij
    · simp only [submitted, completed, Function.update_self, if_pos, List.singleton_append]
      refine (hI.pieces i).trans ?_
      exact ((endRequest_pieces hr).append_left _).trans List.perm_middle
    · simp only [submitted, completed, Function.update_of_ne hij, if_neg hij.symm, List.nil_append]
      exact hI.pieces i

/-- **Each device is an array of sectors.** However the block layer orders the requests of
the four devices and whatever the rest of the kernel does in between: a device holds what
the last successful writes to it have stored, a piece succeeds exactly if it is good, a
read returns what was stored before it, and each piece is completed once. -/
theorem sectors_linear (D : Arrays) : ∀ h s, (drives D).RunIf (Allowed D) h s →
    (∀ i x, x < D.nsectors * sectorSize → s.mem (D.data i + x) = content h i x) ∧
      Served D h ∧
      ∀ i, (submitted i h).Perm (completed i h ++ (s.queue i).flatMap Request.pieces) := by
  intro h s hr
  have hI := hr.inv (I := DrivesInv D) (fun _ => drivesInv_init) (by
    intro h s e s' hI hg hs
    cases e with
    | submit i req =>
      cases hs
      exact hI.submit hg
    | kernel m =>
      cases hs
      exact ⟨hI.proper, fun i x hx => (hg i x hx).trans (hI.stored i x hx), hI.served, hI.pieces⟩
    | turn i req uptodate bytes =>
      obtain ⟨hr, rfl, rfl, rfl⟩ := hs
      exact hI.turn hr)
  exact ⟨hI.stored, hI.served, hI.pieces⟩

/-- Four ramdisks of one sector each. -/
def oneSector : Arrays where
  nsectors := 1
  data i := i.val * sectorSize
  below i := by
    have hi : i.val < 4 := i.isLt
    unfold sectorSize
    omega
  apart i j hij := by
    have := Fin.val_ne_of_ne hij
    unfold sectorSize
    omega

/-- A memory with sevens behind the arrays, and a request to write a sector of them. -/
def sevens : Mem := fun x => if 4096 ≤ x then 7 else 0

def writeSevens : Request := ⟨true, WRITE, 0, 1, 4096, []⟩

theorem writeSevens_piece : Piece oneSector 0 1 4096 := by
  refine ⟨by decide, by decide, fun i => .inr ?_⟩
  have hi : i.val < 4 := i.isLt
  simp only [oneSector, sectorSize]
  omega

theorem writeSevens_good : writeSevens.Good oneSector := ⟨rfl, by decide, .inr rfl⟩

theorem writeSevens_bytes : List.replicate sectorSize 7 =
    (processRequest oneSector 2 sevens writeSevens).1.load writeSevens.buffer
      (writeSevens.currentNrSectors * sectorSize) := by
  have hlen : writeSevens.currentNrSectors * sectorSize = sectorSize := Nat.one_mul _
  refine List.ext_getElem (by rw [Mem.length_load, hlen, List.length_replicate]) fun k _ h => ?_
  rw [Mem.length_load] at h
  rw [List.getElem_replicate, Mem.getElem_load,
    processRequest_buffer writeSevens_good writeSevens_piece h, if_neg (by decide)]
  exact (if_pos (Nat.le_add_right 4096 k)).symm

theorem sectors_linear_sevens : ∃ s, (drives oneSector).RunIf (Allowed oneSector)
    [.turn 2 writeSevens true (List.replicate sectorSize 7), .submit 2 writeSevens, .kernel sevens]
    s ∧ s.mem (oneSector.data 2 + 5) = 7 := by
  have hsevens : Allowed oneSector ⟨fun _ => 0, fun _ => []⟩ (.kernel sevens) := by
    intro i x hx
    have hi : i.val < 4 := i.isLt
    refine if_neg ?_
    simp only [oneSector, sectorSize] at hx ⊢
    omega
  have hrun : (drives oneSector).RunIf (Allowed oneSector) [.submit 2 writeSevens, .kernel sevens]
      ⟨sevens, Function.update (fun _ => []) 2 [writeSevens]⟩ := by
    refine .step (.step (.init ⟨fun _ _ _ => rfl, fun _ => rfl⟩) hsevens rfl) (fun _ p hp => ?_) rfl
    obtain rfl := List.mem_singleton.1 hp
    exact writeSevens_piece
  have hmem : writeSevens ∈ Function.update (fun _ => []) (2 : Fin nosprd) [writeSevens] 2 := by
    rw [Function.update_self]
    exact List.mem_singleton_self _
  have hok := (processRequest_uptodate (i := 2) (m := sevens) fun _ => writeSevens_piece).2
    writeSevens_good
  have hstep := turn_step (D := oneSector) (i := 2)
    (s := ⟨sevens, Function.update (fun _ => []) 2 [writeSevens]⟩) hmem
  have hturn := hrun.step (G := Allowed oneSector) (by trivial) hstep
  rw [hok, ← writeSevens_bytes] at hturn
  refine ⟨_, hturn, ?_⟩
  rw [(sectors_linear oneSector _ _ hturn).1 2 5 (by decide), content, if_pos (by decide),
    List.getD_replicate _ (by decide)]

end OsLabs.Osprd
