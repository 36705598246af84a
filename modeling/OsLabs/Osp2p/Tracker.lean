import OsLabs.Osp2p.Taskbuf

/-!
# Tracker responses

`readTrackerResponse` scans the task buffer for a terminator line and reads on
until there is one. The position of the scan only moves forward, but a terminator
line counts only when the last byte received is a newline. So a line that is
scanned before its last byte is there is passed for good: whether a response is
recognised depends on where the network cuts it (`readTrackerResponse_iff`).
-/

namespace OsLabs.Osp2p

open Scan

/-! ## The code -/

/-- The test for a line that starts with three digits. -/
def startsCode (buf : Nat → UInt8) (pos : Nat) : Bool :=
  (pos == 0 || buf (pos - 1) == byte '\n') && isdigit (buf pos) && isdigit (buf (pos + 1)) &&
    isdigit (buf (pos + 2))

inductive Scanned where
  /-- The terminator line is there; `split_pos` is returned. -/
  | found (splitPos : Nat)
  | more (pos : Nat) (splitPos : Option Nat)
  deriving DecidableEq, Repr

/-- The `for` loop; `left` turns are left until `pos + 3 < tail` fails. -/
def scanLines (buf : Nat → UInt8) (tail : Nat) : (left pos : Nat) → Option Nat → Scanned
  | 0, pos, split => .more pos split
  | left + 1, pos, split =>
    if startsCode buf pos then
      if tail ≤ pos + 4 then .more pos (some (split.getD pos))
      else if isspace (buf (pos + 3)) && buf (tail - 1) == byte '\n' then
        .found (split.getD pos)
      else scanLines buf tail left (pos + 1) (some (split.getD pos))
    else scanLines buf tail left (pos + 1) split

def scanResponse (buf : Nat → UInt8) (tail pos : Nat) (split : Option Nat) : Scanned :=
  scanLines buf tail (tail - (pos + 3)) pos split

inductive TrackerReply where
  | returned (splitPos : Nat) (t : Task)
  /-- `die("tracker read error")`. -/
  | readError
  /-- `die("tracker connection closed prematurely!")`. -/
  | closed
  /-- In the `read` that nothing becomes of. -/
  | waiting (t : Task)

def readResponse (t : Task) (src : Bytes) (pos : Nat) (split : Option Nat) (ios : List Io) :
    TrackerReply :=
  match scanResponse t.buf t.tail pos split with
  | .found splitPos => .returned splitPos { t with buf := Ring.store t.buf t.tail [0] }
  | .more pos split =>
    match ios with
    | [] => .waiting t
    | io :: ios =>
      match readToTaskbuf t src io with
      | (.tbufError, _) => .readError
      | (.tbufEnd, _) => .closed
      | (_, t, src) => readResponse t src pos split ios

/-- `read_tracker_response`; `src` is what the tracker sends. -/
def readTrackerResponse (t : Task) (src : Bytes) (ios : List Io) : TrackerReply :=
  readResponse { t with head := 0, tail := 0 } src 0 none ios

/-! ## Well-formed responses -/

def hasCode : Bytes → Bool
  | a :: b :: c :: _ => isdigit a && isdigit b && isdigit c
  | _ => false

def CodeLine (sep : UInt8) (l : Bytes) : Prop :=
  ∃ a b c text, l = a :: b :: c :: sep :: text ∧ isdigit a = true ∧ isdigit b = true ∧
    isdigit c = true

/-- Lines of the data portion, context lines and a terminator line, less their newlines. -/
structure Response where
  data : List Bytes
  context : List Bytes
  terminator : Bytes
  no_newline : ∀ l ∈ data ++ context ++ [terminator], byte '\n' ∉ l
  data_lines : ∀ l ∈ data, hasCode l = false
  context_lines : ∀ l ∈ context, CodeLine (byte '-') l
  terminator_line : CodeLine (byte ' ') terminator

def linesOf (ls : List Bytes) : Bytes := ls.flatMap fun l => l ++ [byte '\n']

namespace Response

variable (r : Response)

def bytes : Bytes := linesOf (r.data ++ r.context ++ [r.terminator])

/-- Where the first line stands that starts with three digits. -/
def dataLength : Nat := (linesOf r.data).length

/-- Where the terminator line stands. -/
def terminatorPos : Nat := (linesOf (r.data ++ r.context)).length

end Response

/-! ## What the scan sees -/

/-- What the scan meets in a response of `l` bytes whose first code stands at `d`
and whose terminator line stands at `e`. -/
structure Shape (buf : Nat → UInt8) (l d e : Nat) : Prop where
  le : d ≤ e
  fits : e + 5 ≤ l
  last : buf (l - 1) = byte '\n'
  no_newline : ∀ i, e ≤ i → i + 1 < l → buf i ≠ byte '\n'
  first : startsCode buf d = true
  before : ∀ i < d, startsCode buf i = false
  context : ∀ i < e, startsCode buf i = true → i + 5 ≤ e ∧ isspace (buf (i + 3)) = false
  terminator : startsCode buf e = true ∧ isspace (buf (e + 3)) = true

/-- `split_pos` is right for a scan that stands at `pos`. -/
def SplitOk (d pos : Nat) (split : Option Nat) : Prop := split = some d ∨ split = none ∧ pos ≤ d

section

variable {buf f : Nat → UInt8} {l d e tail : Nat}

theorem SplitOk.getD {pos : Nat} {split : Option Nat} (h : SplitOk d pos split) (hd : d ≤ pos) :
    split.getD pos = d := by
  rcases h with rfl | ⟨rfl, h⟩
  · rfl
  · exact Nat.le_antisymm h hd

theorem Shape.first_le (h : Shape f l d e) {i : Nat} (hi : startsCode f i = true) : d ≤ i := by
  by_contra hlt
  rw [h.before i (Nat.lt_of_not_le hlt)] at hi
  cases hi

theorem Shape.after (h : Shape f l d e) {i : Nat} (hi : e < i) (hil : i < l) :
    startsCode f i = false := by
  have hne := h.no_newline (i - 1) (by omega) (by omega)
  have h0 : (i == 0) = false := by simp; omega
  rw [startsCode, h0, beq_eq_false_iff_ne.mpr hne]
  rfl

/-- The buffer holds the first `tail` bytes. -/
def Arrived (buf f : Nat → UInt8) (tail : Nat) : Prop := ∀ i < tail, buf i = f i

theorem Arrived.startsCode (h : Arrived buf f tail) {i : Nat} (hi : i + 3 < tail) :
    startsCode buf i = startsCode f i := by
  rw [Osp2p.startsCode, Osp2p.startsCode, h (i - 1) (by omega), h i (by omega),
    h (i + 1) (by omega), h (i + 2) (by omega)]

theorem scanResponse_of_le {pos : Nat} {split : Option Nat} (h : tail ≤ pos + 3) :
    scanResponse buf tail pos split = .more pos split := by
  rw [scanResponse, Nat.sub_eq_zero_of_le h, scanLines]

theorem scanResponse_of_lt {pos : Nat} {split : Option Nat} (h : pos + 3 < tail) :
    scanResponse buf tail pos split =
      if startsCode buf pos then
        if tail ≤ pos + 4 then .more pos (some (split.getD pos))
        else if isspace (buf (pos + 3)) && buf (tail - 1) == byte '\n' then
          .found (split.getD pos)
        else scanResponse buf tail (pos + 1) (some (split.getD pos))
      else scanResponse buf tail (pos + 1) split := by
  rw [scanResponse, show tail - (pos + 3) = tail - (pos + 1 + 3) + 1 by omega, scanLines]
  rfl

/-- Until the fifth byte of the terminator line is passed the scan does not get over its start. -/
theorem Shape.scan_before (h : Shape f l d e) (ha : Arrived buf f tail) (ht : tail ≤ e + 4)
    {pos : Nat} {split : Option Nat} (hp : pos ≤ e) (hs : SplitOk d pos split) :
    ∃ pos' split', scanResponse buf tail pos split = .more pos' split' ∧ pos' ≤ e ∧
      SplitOk d pos' split' := by
  by_cases hlt : pos + 3 < tail
  · rw [scanResponse_of_lt hlt, ha.startsCode hlt]
    by_cases hcode : startsCode f pos = true
    · rw [if_pos hcode, hs.getD (h.first_le hcode)]
      by_cases hbreak : tail ≤ pos + 4
      · rw [if_pos hbreak]
        exact ⟨pos, some d, rfl, hp, .inl rfl⟩
      · have hsp := (h.context pos (by omega) hcode).2
        rw [if_neg hbreak, ha (pos + 3) hlt, hsp, Bool.false_and, if_neg Bool.false_ne_true]
        exact h.scan_before ha ht (by omega) (.inl rfl)
    · rw [if_neg hcode]
      have hpe : pos ≠ e := fun e => hcode (e ▸ h.terminator.1)
      have hpd : pos ≠ d := fun e => hcode (e ▸ h.first)
      refine h.scan_before ha ht (by omega) (hs.imp_right fun hs => ⟨hs.1, ?_⟩)
      have := hs.2
      omega
  · exact ⟨pos, split, scanResponse_of_le (by omega), hp, hs⟩
termination_by tail - pos

theorem Shape.scan_reach (h : Shape f l d e) (ha : Arrived buf f tail) (ht : e + 4 < tail)
    {pos : Nat} {split : Option Nat} (hp : pos ≤ e) (hs : SplitOk d pos split) :
    scanResponse buf tail pos split =
      if buf (tail - 1) == byte '\n' then .found d
      else scanResponse buf tail (e + 1) (some d) := by
  rw [scanResponse_of_lt (by omega), ha.startsCode (by omega)]
  by_cases hcode : startsCode f pos = true
  · rw [if_pos hcode, hs.getD (h.first_le hcode), if_neg (by omega), ha (pos + 3) (by omega)]
    by_cases hpe : pos = e
    · rw [hpe, h.terminator.2, Bool.true_and]
    · have hsp := (h.context pos (by omega) hcode).2
      rw [hsp, Bool.false_and, if_neg Bool.false_ne_true]
      exact h.scan_reach ha ht (by omega) (.inl rfl)
  · rw [if_neg hcode]
    have hpe : pos ≠ e := fun e => hcode (e ▸ h.terminator.1)
    have hpd : pos ≠ d := fun e => hcode (e ▸ h.first)
    refine h.scan_reach ha ht (by omega) (hs.imp_right fun hs => ⟨hs.1, ?_⟩)
    have := hs.2
    omega
termination_by tail - pos

/-- Behind the start of the terminator line the scan finds nothing any more. -/
theorem Shape.scan_after (h : Shape f l d e) (ha : Arrived buf f tail) (ht : tail ≤ l)
    {pos : Nat} (split : Option Nat) (hp : e < pos) :
    ∃ pos', scanResponse buf tail pos split = .more pos' split ∧ e < pos' := by
  by_cases hlt : pos + 3 < tail
  · rw [scanResponse_of_lt hlt, ha.startsCode hlt, h.after hp (by omega),
      if_neg Bool.false_ne_true]
    exact h.scan_after ha ht _ (by omega)
  · exact ⟨pos, scanResponse_of_le (by omega), hp⟩
termination_by tail - pos

theorem Shape.scan_last (h : Shape f l d e) (ha : Arrived buf f l) {pos : Nat}
    {split : Option Nat} (hp : pos ≤ e) (hs : SplitOk d pos split) :
    scanResponse buf l pos split = .found d := by
  have hfits := h.fits
  rw [h.scan_reach ha (by omega) hp hs, ha (l - 1) (by omega), h.last, beq_self_eq_true]
  rfl

theorem Shape.scan_cut (h : Shape f l d e) (ha : Arrived buf f tail) (ht : e + 4 < tail)
    (hl : tail < l) {pos : Nat} {split : Option Nat} (hp : pos ≤ e) (hs : SplitOk d pos split) :
    ∃ pos' split', scanResponse buf tail pos split = .more pos' split' ∧ e < pos' := by
  have hlast : (buf (tail - 1) == byte '\n') = false := by
    rw [ha (tail - 1) (by omega)]
    exact beq_eq_false_iff_ne.mpr (h.no_newline _ (by omega) (by omega))
  rw [h.scan_reach ha ht hp hs, hlast, if_neg Bool.false_ne_true]
  obtain ⟨pos', hscan, hpos⟩ :=
    h.scan_after ha (Nat.le_of_lt hl) (some d) (Nat.lt_succ_self e)
  exact ⟨pos', some d, hscan, hpos⟩

end

/-! ## Reading on -/

/-- How many bytes a read delivers while there are enough. -/
def Io.size : Io → Nat
  | .upTo k => max k 1
  | .again | .error => 0

def delivered (ios : List Io) : Nat := (ios.map Io.size).sum

@[simp] theorem delivered_nil : delivered [] = 0 := rfl

@[simp] theorem delivered_cons (io : Io) (ios : List Io) :
    delivered (io :: ios) = io.size + delivered ios := by
  rw [delivered, List.map_cons, List.sum_cons, delivered]

/-- The byte at `i` of a text. -/
def byteAt (b : Bytes) (i : Nat) : UInt8 := b[i]?.getD 0

theorem byteAt_of_lt {b : Bytes} {i : Nat} (h : i < b.length) : byteAt b i = b[i] := by
  rw [byteAt, List.getElem?_eq_getElem h, Option.getD_some]

/-- The buffer has received `q`, and `src` is on its way. -/
structure Receiving (resp : Bytes) (t : Task) (q src : Bytes) : Prop where
  buffers : Buffers t [] q
  text : q ++ src = resp
  fits : resp.length < taskBufSiz

section

variable {resp q src : Bytes} {t : Task} {d e pos : Nat} {split : Option Nat} {ios : List Io}

theorem readResponse_found {splitPos : Nat}
    (h : scanResponse t.buf t.tail pos split = .found splitPos) :
    readResponse t src pos split ios =
      .returned splitPos { t with buf := Ring.store t.buf t.tail [0] } := by
  rw [readResponse.eq_def, h]

theorem readResponse_nil {pos' : Nat} {split' : Option Nat}
    (h : scanResponse t.buf t.tail pos split = .more pos' split') :
    readResponse t src pos split [] = .waiting t := by
  rw [readResponse, h]

theorem readResponse_cons {pos' : Nat} {split' : Option Nat} {io : Io}
    (h : scanResponse t.buf t.tail pos split = .more pos' split') :
    readResponse t src pos split (io :: ios) =
      match readToTaskbuf t src io with
      | (.tbufError, _) => .readError
      | (.tbufEnd, _) => .closed
      | (_, t, src) => readResponse t src pos' split' ios := by
  rw [readResponse, h]

theorem Receiving.tail (h : Receiving resp t q src) : t.tail = q.length := by
  rw [h.buffers.tail, List.length_nil, Nat.zero_add]

theorem Receiving.length (h : Receiving resp t q src) : q.length + src.length = resp.length := by
  rw [← h.text, List.length_append]

theorem Receiving.arrived (h : Receiving resp t q src) :
    Arrived t.buf (byteAt resp) q.length := by
  intro i hi
  have hcell := h.buffers.holds.get i hi
  have hlen := h.buffers.holds.length_le
  rw [List.length_nil, Nat.zero_add, Nat.mod_eq_of_lt (by omega)] at hcell
  have hi' : i < resp.length := by
    have := h.length
    omega
  rw [hcell, byteAt_of_lt hi']
  simp only [← h.text, List.getElem_append_left hi]

theorem Receiving.readCount (h : Receiving resp t q src) : t.readCount = taskBufSiz - q.length := by
  have h1 := h.fits
  have h2 := h.length
  have hhead : t.head = 0 := h.buffers.head
  rw [Task.readCount, Task.headpos, Task.tailpos, hhead, h.tail, Nat.zero_mod,
    Nat.mod_eq_of_lt (by omega), Ring.room]
  by_cases hz : q.length = 0
  · rw [hz]
    rfl
  · rw [if_pos]
    simp
    omega

theorem Receiving.read (h : Receiving resp t q src) {k : Nat} (hk : max k 1 ≤ src.length) :
    ∃ t', readToTaskbuf t src (.upTo k) = (.tbufOk, t', src.drop (max k 1)) ∧
      Receiving resp t' (q ++ src.take (max k 1)) (src.drop (max k 1)) := by
  have h1 := h.fits
  have h2 := h.length
  have hcount := h.readCount
  have hamt : min (max k 1) (min t.readCount src.length) = max k 1 := by omega
  have hlen : (src.take (max k 1)).length = max k 1 := List.length_take_of_le hk
  have hput := h.buffers.put (c := src.take (max k 1)) (by omega) (by
    have : taskBufSiz < 2 ^ 32 := by decide
    rw [List.length_nil]
    omega)
  rw [hlen] at hput
  refine ⟨_, ?_, hput, ?_, h.fits⟩
  · simp only [readToTaskbuf, hamt]
    rw [if_neg (by omega)]
  · rw [List.append_assoc, List.take_append_drop, h.text]

theorem Receiving.returned (h : Receiving resp t q src)
    (hshape : Shape (byteAt resp) resp.length d e)
    (hp : pos ≤ e) (hs : SplitOk d pos split) (hall : q.length = resp.length) :
    ∃ t', readResponse t src pos split ios = .returned d t' ∧ t'.tail = resp.length ∧
      Ring.load t'.buf 0 resp.length = resp := by
  have ha := h.arrived
  have htail := h.tail
  rw [hall] at ha htail
  have hscan : scanResponse t.buf t.tail pos split = .found d := by
    rw [htail]
    exact hshape.scan_last ha hp hs
  refine ⟨_, readResponse_found hscan, htail, ?_⟩
  refine List.ext_getElem (Ring.length_load ..) fun i h1 h2 => ?_
  simp only [Ring.load, List.getElem_map, List.getElem_range, Nat.zero_add]
  rw [htail, Ring.store_of_lt _ _ h2, ha i h2, byteAt_of_lt h2]

/-- A response that is not cut inside its terminator line is returned. -/
theorem readResponse_returns (hshape : Shape (byteAt resp) resp.length d e)
    (h : Receiving resp t q src) (hp : pos ≤ e) (hs : SplitOk d pos split)
    (herr : .error ∉ ios) (hall : q.length + delivered ios = resp.length)
    (hcut : ∀ pre, pre <+: ios →
      ¬ (e + 4 < q.length + delivered pre ∧ q.length + delivered pre < resp.length)) :
    ∃ t', readResponse t src pos split ios = .returned d t' ∧ t'.tail = resp.length ∧
      Ring.load t'.buf 0 resp.length = resp := by
  induction ios generalizing t q src pos split with
  | nil => exact h.returned hshape hp hs hall
  | cons io ios ih =>
    by_cases hlast : q.length = resp.length
    · exact h.returned hshape hp hs hlast
    · have hlen := h.length
      have hbefore : q.length ≤ e + 4 := by
        have := hcut [] (List.nil_prefix ..)
        rw [delivered_nil] at this
        omega
      have ha := h.arrived
      obtain ⟨pos', split', hscan, hp', hs'⟩ := hshape.scan_before ha hbefore hp hs
      rw [← h.tail] at hscan
      rw [delivered_cons] at hall
      rw [readResponse_cons hscan]
      have herr' : .error ∉ ios := fun hm => herr (List.mem_cons_of_mem _ hm)
      cases io with
      | error => exact (herr List.mem_cons_self).elim
      | again =>
        rw [Io.size, Nat.zero_add] at hall
        refine ih h hp' hs' herr' hall fun pre hpre => ?_
        have := hcut (.again :: pre) (List.cons_prefix_cons.mpr ⟨rfl, hpre⟩)
        rwa [delivered_cons, Io.size, Nat.zero_add] at this
      | upTo k =>
        rw [Io.size] at hall
        obtain ⟨t', hread, h'⟩ := h.read (k := k) (by omega)
        rw [hread]
        have hlen' : (q ++ src.take (max k 1)).length = q.length + max k 1 := by
          rw [List.length_append, List.length_take]
          omega
        refine ih h' hp' hs' herr' (by omega) fun pre hpre => ?_
        have := hcut (.upTo k :: pre) (List.cons_prefix_cons.mpr ⟨rfl, hpre⟩)
        rwa [delivered_cons, Io.size, ← Nat.add_assoc, ← hlen'] at this

theorem Receiving.scan_passed (h : Receiving resp t q src)
    (hshape : Shape (byteAt resp) resp.length d e) (split : Option Nat) (hp : e < pos) :
    ∃ pos', scanResponse t.buf t.tail pos split = .more pos' split ∧ e < pos' := by
  have hlen := h.length
  rw [h.tail]
  exact hshape.scan_after h.arrived (by omega) _ hp

theorem Receiving.scan_more (h : Receiving resp t q src)
    (hshape : Shape (byteAt resp) resp.length d e) (hp : pos ≤ e) (hs : SplitOk d pos split)
    (hq : q.length < resp.length) :
    ∃ pos' split', scanResponse t.buf t.tail pos split = .more pos' split' ∧
      (e < pos' ∨ pos' ≤ e ∧ SplitOk d pos' split' ∧ q.length ≤ e + 4) := by
  rw [h.tail]
  by_cases hqe : q.length ≤ e + 4
  · obtain ⟨pos', split', hscan, hp', hs'⟩ := hshape.scan_before h.arrived hqe hp hs
    exact ⟨pos', split', hscan, .inr ⟨hp', hs', hqe⟩⟩
  · obtain ⟨pos', split', hscan, hp'⟩ := hshape.scan_cut h.arrived (by omega) hq hp hs
    exact ⟨pos', split', hscan, .inl hp'⟩

/-- A scan that is behind the start of the terminator line never returns. -/
theorem readResponse_passed (hshape : Shape (byteAt resp) resp.length d e)
    (h : Receiving resp t q src) (hp : e < pos) (hall : q.length + delivered ios = resp.length)
    (splitPos : Nat) (t' : Task) : readResponse t src pos split ios ≠ .returned splitPos t' := by
  induction ios generalizing t q src pos split with
  | nil =>
    obtain ⟨pos', hscan, -⟩ := h.scan_passed hshape split hp
    rw [readResponse_nil hscan]
    nofun
  | cons io ios ih =>
    obtain ⟨pos', hscan, hp'⟩ := h.scan_passed hshape split hp
    have hlen := h.length
    rw [delivered_cons] at hall
    rw [readResponse_cons hscan]
    cases io with
    | error => nofun
    | again =>
      rw [Io.size, Nat.zero_add] at hall
      exact ih h hp' hall
    | upTo k =>
      rw [Io.size] at hall
      obtain ⟨t'', hread, h'⟩ := h.read (k := k) (by omega)
      rw [hread]
      refine ih h' hp' ?_
      rw [List.length_append, List.length_take]
      omega

theorem readResponse_cut (hshape : Shape (byteAt resp) resp.length d e)
    (h : Receiving resp t q src) (hp : pos ≤ e) (hs : SplitOk d pos split)
    (hall : q.length + delivered ios = resp.length) {pre : List Io} (hpre : pre <+: ios)
    (hcut : e + 4 < q.length + delivered pre ∧ q.length + delivered pre < resp.length)
    (splitPos : Nat) (t' : Task) : readResponse t src pos split ios ≠ .returned splitPos t' := by
  induction ios generalizing t q src pos split pre with
  | nil =>
    obtain ⟨pos', split', hscan, -⟩ := h.scan_more hshape hp hs (by omega)
    rw [readResponse_nil hscan]
    nofun
  | cons io ios ih =>
    obtain ⟨pos', split', hscan, hor⟩ := h.scan_more hshape hp hs (by omega)
    have hlen := h.length
    rw [delivered_cons] at hall
    rw [readResponse_cons hscan]
    cases io with
    | error => nofun
    | again =>
      rw [Io.size, Nat.zero_add] at hall
      rcases hor with hp' | ⟨hp', hs', hq⟩
      · exact readResponse_passed hshape h hp' hall splitPos t'
      · rcases List.prefix_cons_iff.mp hpre with rfl | ⟨pre', rfl, hpre'⟩
        · rw [delivered_nil] at hcut
          omega
        · rw [delivered_cons, Io.size, Nat.zero_add] at hcut
          exact ih h hp' hs' hall hpre' hcut
    | upTo k =>
      rw [Io.size] at hall
      obtain ⟨t'', hread, h'⟩ := h.read (k := k) (by omega)
      rw [hread]
      have hlen' : (q ++ src.take (max k 1)).length = q.length + max k 1 := by
        rw [List.length_append, List.length_take]
        omega
      rcases hor with hp' | ⟨hp', hs', hq⟩
      · exact readResponse_passed hshape h' hp' (by omega) splitPos t'
      · rcases List.prefix_cons_iff.mp hpre with rfl | ⟨pre', rfl, hpre'⟩
        · rw [delivered_nil] at hcut
          omega
        · rw [delivered_cons, Io.size, ← Nat.add_assoc, ← hlen'] at hcut
          exact ih h' hp' hs' (by omega) hpre' hcut

end

/-! ## The shape of a well-formed response -/

section

variable {ls pre post : List Bytes} {l : Bytes} {i : Nat}

@[simp] theorem linesOf_nil : linesOf [] = [] := rfl

@[simp] theorem linesOf_cons (l : Bytes) (ls : List Bytes) :
    linesOf (l :: ls) = l ++ byte '\n' :: linesOf ls := by
  rw [linesOf, List.flatMap_cons, List.append_assoc, List.singleton_append, linesOf]

theorem linesOf_append (ls ms : List Bytes) : linesOf (ls ++ ms) = linesOf ls ++ linesOf ms :=
  List.flatMap_append

theorem exists_line : ∀ (ls : List Bytes) {i : Nat}, i < (linesOf ls).length →
    ∃ pre l post, ls = pre ++ l :: post ∧ (linesOf pre).length ≤ i ∧
      i ≤ (linesOf pre).length + l.length
  | [], i, h => absurd h (Nat.not_lt_zero i)
  | l :: ls, i, h => by
    by_cases hl : i ≤ l.length
    · exact ⟨[], l, ls, rfl, Nat.zero_le i, by simpa using hl⟩
    · rw [linesOf_cons, List.length_append, List.length_cons] at h
      obtain ⟨pre, m, post, rfl, h1, h2⟩ := exists_line ls (i := i - (l.length + 1))
        (by omega)
      refine ⟨l :: pre, m, post, rfl, ?_, ?_⟩
      all_goals
        rw [linesOf_cons, List.length_append, List.length_cons]
        omega

theorem byteAt_append (x y : Bytes) (i : Nat) : byteAt (x ++ y) (x.length + i) = byteAt y i := by
  rw [byteAt, byteAt, List.getElem?_append_right (Nat.le_add_right ..), Nat.add_sub_cancel_left]

theorem byteAt_line (pre post : List Bytes) {j : Nat} (hj : j < l.length) :
    byteAt (linesOf (pre ++ l :: post)) ((linesOf pre).length + j) = l[j] := by
  rw [linesOf_append, linesOf_cons, byteAt_append, byteAt_of_lt (by simp; omega),
    List.getElem_append_left hj]

theorem byteAt_newline (pre post : List Bytes) (l : Bytes) :
    byteAt (linesOf (pre ++ l :: post)) ((linesOf pre).length + l.length) = byte '\n' := by
  rw [linesOf_append, linesOf_cons, byteAt_append, ← Nat.add_zero l.length, byteAt_append]
  rfl

theorem line_start : (linesOf pre).length = 0 ∨
    byteAt (linesOf (pre ++ post)) ((linesOf pre).length - 1) = byte '\n' := by
  rcases List.eq_nil_or_concat pre with rfl | ⟨pre, l, rfl⟩
  · exact .inl rfl
  · right
    have hlen : (linesOf (pre ++ [l])).length - 1 = (linesOf pre).length + l.length := by
      simp [linesOf_append]
    rw [List.concat_eq_append, hlen, List.append_assoc]
    exact byteAt_newline _ _ _

/-- Where a line starts, the scan looks at its first three bytes. -/
theorem startsCode_line :
    startsCode (byteAt (linesOf (pre ++ l :: post))) (linesOf pre).length = hasCode l := by
  have hstart : ((linesOf pre).length == 0 ||
      byteAt (linesOf (pre ++ l :: post)) ((linesOf pre).length - 1) == byte '\n') = true := by
    rw [Bool.or_eq_true, beq_iff_eq, beq_iff_eq]
    exact line_start
  have hdigit : isdigit (byte '\n') = false := by decide
  have hend := byteAt_newline pre post l
  have hget := fun j (hj : j < l.length) => byteAt_line pre post hj
  rw [startsCode, hstart, Bool.true_and]
  match l, hend, hget with
  | [], hend, _ =>
    rw [List.length_nil, Nat.add_zero] at hend
    rw [hend, hdigit]
    rfl
  | [a], hend, _ =>
    rw [List.length_singleton] at hend
    rw [hend, hdigit, Bool.and_false]
    rfl
  | [a, b], hend, _ =>
    rw [List.length_cons, List.length_singleton] at hend
    rw [hend, hdigit, Bool.and_false]
    rfl
  | a :: b :: c :: l, _, hget =>
    have h0 := hget 0 (by simp)
    have h1 := hget 1 (by simp)
    have h2 := hget 2 (by simp)
    rw [Nat.add_zero] at h0
    rw [h0, h1, h2]
    rfl

theorem startsCode_inside (hl : byte '\n' ∉ l) (h1 : (linesOf pre).length < i)
    (h2 : i ≤ (linesOf pre).length + l.length) :
    startsCode (byteAt (linesOf (pre ++ l :: post))) i = false := by
  have hj : i - 1 - (linesOf pre).length < l.length := by omega
  have hbyte := byteAt_line pre post hj
  rw [show (linesOf pre).length + (i - 1 - (linesOf pre).length) = i - 1 by omega] at hbyte
  have hne : (l[i - 1 - (linesOf pre).length] == byte '\n') = false :=
    beq_eq_false_iff_ne.mpr fun e => hl (e ▸ List.getElem_mem hj)
  have h0 : (i == 0) = false := beq_eq_false_iff_ne.mpr (by omega)
  rw [startsCode, hbyte, hne, h0]
  rfl

end

theorem CodeLine.hasCode {sep : UInt8} {l : Bytes} (h : CodeLine sep l) : hasCode l = true := by
  obtain ⟨a, b, c, text, rfl, ha, hb, hc⟩ := h
  rw [Osp2p.hasCode, ha, hb, hc]
  rfl

theorem CodeLine.sep {sep : UInt8} {l : Bytes} (h : CodeLine sep l) :
    ∃ hl : 3 < l.length, l[3] = sep := by
  obtain ⟨a, b, c, text, rfl, -⟩ := h
  exact ⟨by simp, rfl⟩

/-- **A well-formed response has the shape that the scan looks for.** -/
theorem Response.shape (r : Response) :
    Shape (byteAt r.bytes) r.bytes.length r.dataLength r.terminatorPos := by
  obtain ⟨ht3, hsep⟩ := r.terminator_line.sep
  have hlen : r.bytes.length = r.terminatorPos + r.terminator.length + 1 := by
    simp only [Response.bytes, Response.terminatorPos, linesOf_append, linesOf_cons, linesOf_nil,
      List.length_append, List.length_cons, List.length_nil]
    omega
  have hterm : r.bytes = linesOf ((r.data ++ r.context) ++ r.terminator :: []) := rfl
  have hle : r.dataLength ≤ r.terminatorPos := by
    rw [Response.terminatorPos, linesOf_append, List.length_append]
    exact Nat.le_add_right ..
  have hnl : ∀ l ∈ r.data ++ r.context, byte '\n' ∉ l := fun l hl =>
    r.no_newline l (List.mem_append_left _ hl)
  refine ⟨hle, by omega, ?_, fun i h1 h2 => ?_, ?_, fun i hi => ?_, fun i hi hcode => ?_, ?_, ?_⟩
  · rw [show r.bytes.length - 1 = (linesOf (r.data ++ r.context)).length + r.terminator.length by
      rw [hlen]; rfl]
    exact byteAt_newline _ _ _
  · have hj : i - (linesOf (r.data ++ r.context)).length < r.terminator.length := by
      unfold Response.terminatorPos at h1 hlen
      omega
    have hbyte := byteAt_line (r.data ++ r.context) [] hj
    rw [Nat.add_sub_cancel' (show (linesOf (r.data ++ r.context)).length ≤ i from h1)] at hbyte
    rw [hterm, hbyte]
    exact fun e => r.no_newline r.terminator (by simp) (e ▸ List.getElem_mem hj)
  · -- the first context line, or the terminator line
    have hfirst : ∃ l post, r.context ++ [r.terminator] = l :: post ∧ hasCode l = true := by
      cases hc : r.context with
      | nil => exact ⟨_, [], rfl, r.terminator_line.hasCode⟩
      | cons l ls => exact ⟨l, _, rfl, (r.context_lines l (hc ▸ List.mem_cons_self)).hasCode⟩
    obtain ⟨l, post, hl, hcode⟩ := hfirst
    rw [Response.bytes, List.append_assoc, hl, Response.dataLength, startsCode_line, hcode]
  · obtain ⟨pre, l, post, hd, h1, h2⟩ := exists_line _ hi
    have hl : l ∈ r.data := hd ▸ List.mem_append_right _ List.mem_cons_self
    have hb : r.bytes = linesOf (pre ++ l :: (post ++ r.context ++ [r.terminator])) := by
      rw [Response.bytes, hd]
      simp only [List.append_assoc, List.cons_append]
    rw [hb]
    rcases Nat.eq_or_lt_of_le h1 with rfl | h1
    · rw [startsCode_line]
      exact r.data_lines l hl
    · exact startsCode_inside (hnl l (List.mem_append_left _ hl)) h1 h2
  · obtain ⟨pre, l, post, hd, h1, h2⟩ := exists_line _ hi
    have hl : l ∈ r.data ++ r.context := hd ▸ List.mem_append_right _ List.mem_cons_self
    have hb : r.bytes = linesOf (pre ++ l :: (post ++ [r.terminator])) := by
      rw [Response.bytes, hd]
      simp only [List.append_assoc, List.cons_append]
    rw [hb] at hcode ⊢
    rcases Nat.eq_or_lt_of_le h1 with rfl | h1
    · rw [startsCode_line] at hcode
      rcases List.mem_append.mp hl with hdata | hctx
      · rw [r.data_lines l hdata] at hcode
        cases hcode
      · obtain ⟨h3, hdash⟩ := (r.context_lines l hctx).sep
        refine ⟨?_, ?_⟩
        · rw [Response.terminatorPos, hd, linesOf_append, linesOf_cons, List.length_append,
            List.length_append, List.length_cons]
          omega
        · rw [byteAt_line _ _ h3, hdash]
          decide
    · rw [startsCode_inside (hnl l hl) h1 h2] at hcode
      cases hcode
  · rw [hterm, Response.terminatorPos, startsCode_line]
    exact r.terminator_line.hasCode
  · rw [hterm, Response.terminatorPos, byteAt_line _ _ ht3, hsep]
    decide

/-- The response is returned with its last byte: all of it is in the buffer, and the
result is where the first line with three digits starts. -/
def Recognised (t : Task) (r : Response) (ios : List Io) : Prop :=
  ∃ t', readTrackerResponse t r.bytes ios = .returned r.dataLength t' ∧
    t'.tail = r.bytes.length ∧ Ring.load t'.buf 0 r.bytes.length = r.bytes

/-- **A tracker response is recognised exactly when no read ends inside its terminator
line**, behind the fifth byte and in front of the newline; `ios` are the reads that
deliver the response, with interrupted ones in between. -/
theorem readTrackerResponse_iff (t : Task) (r : Response)
    (hr : r.bytes.length < taskBufSiz) {ios : List Io} (herr : .error ∉ ios)
    (hall : delivered ios = r.bytes.length) :
    Recognised t r ios ↔ ∀ pre, pre <+: ios →
      ¬ (r.terminatorPos + 4 < delivered pre ∧ delivered pre < r.bytes.length) := by
  have h0 : Receiving r.bytes { t with head := 0, tail := 0 } [] r.bytes :=
    ⟨buffers_empty rfl rfl, rfl, hr⟩
  have hall' : ([] : Bytes).length + delivered ios = r.bytes.length := by
    rw [List.length_nil, Nat.zero_add, hall]
  constructor
  · rintro ⟨t', hret, -⟩ pre hpre hcut
    refine readResponse_cut r.shape h0 (Nat.zero_le _) (.inr ⟨rfl, Nat.zero_le _⟩) hall' hpre
      ?_ _ _ hret
    rwa [List.length_nil, Nat.zero_add]
  · intro hcut
    refine readResponse_returns r.shape h0 (Nat.zero_le _) (.inr ⟨rfl, Nat.zero_le _⟩) herr hall' ?_
    simpa using hcut

/-- The response `200 ok` and its newline. -/
def okResponse : Response where
  data := []
  context := []
  terminator := [byte '2', byte '0', byte '0', byte ' ', byte 'o', byte 'k']
  no_newline := by decide
  data_lines := nofun
  context_lines := nofun
  terminator_line := ⟨_, _, _, _, rfl, by decide, by decide, by decide⟩

theorem readTrackerResponse_okResponse :
    Recognised ⟨fun _ => 0, 0, 0, 0⟩ okResponse [.upTo 4, .again, .upTo 3] := by
  refine (readTrackerResponse_iff _ okResponse (by decide) (by decide) rfl).mpr ?_
  intro pre hpre
  rcases List.prefix_cons_iff.mp hpre with rfl | ⟨pre, rfl, h1⟩
  · decide
  rcases List.prefix_cons_iff.mp h1 with rfl | ⟨pre, rfl, h2⟩
  · decide
  rcases List.prefix_cons_iff.mp h2 with rfl | ⟨pre, rfl, h3⟩
  · decide
  · rw [List.prefix_nil.mp h3]
    decide

/-- Cut behind its fifth byte the response is passed: with all bytes received the code
waits for more. -/
theorem okResponse_cut : ¬ Recognised ⟨fun _ => 0, 0, 0, 0⟩ okResponse [.upTo 5, .upTo 2] := by
  rintro ⟨t', h, -⟩
  have : readTrackerResponse ⟨fun _ => 0, 0, 0, 0⟩ okResponse.bytes [.upTo 5, .upTo 2] =
      .waiting _ := rfl
  rw [this] at h
  cases h

end OsLabs.Osp2p
