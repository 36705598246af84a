import OsLabs.Lib.Md5

/-!
# ospfsformat: the digest of a file

`md5.c` of lab3. The begun block stands in the first `count` bytes of `buf`; a full
buffer is worked off at the next call. What `ospfsformat` computes over the pieces that
`read` returns is the digest of the whole file, up to the length from which `do_final`
gets the number of bits wrong (`md5Final_digest`).
-/

namespace OsLabs.Ospfs

open OsLabs.Md5 (Byte Word Reg Regs Round Line)
open BlockStream (absorb push overwrite)

/-! ## transform -/

def rol (x : Word) (n : Nat) : Word := (x <<< n) ||| (x >>> (32 - n))

def FF (b c d : Word) : Word := d ^^^ (b &&& (c ^^^ d))

def FG (b c d : Word) : Word := FF d b c

def FH (b c d : Word) : Word := b ^^^ c ^^^ d

def FI (b c d : Word) : Word := c ^^^ (b ||| ~~~d)

def roundFn : Round → Word → Word → Word → Word
  | .F => FF
  | .G => FG
  | .H => FH
  | .I => FI

/-- The macro `OP`, with its three statements. -/
def OP (correctWords : Nat → Word) (r : Regs) (l : Line) : Regs :=
  let r := r.set l.a (r.get l.a + (roundFn l.round (r.get l.b) (r.get l.c) (r.get l.d) +
    correctWords l.k + l.t))
  let r := r.set l.a (rol (r.get l.a) l.s)
  r.set l.a (r.get l.a + r.get l.b)

/-- The lines of `transform`; in round 1 the pointer `cwp` goes through the words. -/
def transformLines : List Line :=
  [⟨.F, .A, .B, .C, .D, 0, 7, 0xd76aa478⟩, ⟨.F, .D, .A, .B, .C, 1, 12, 0xe8c7b756⟩,
    ⟨.F, .C, .D, .A, .B, 2, 17, 0x242070db⟩, ⟨.F, .B, .C, .D, .A, 3, 22, 0xc1bdceee⟩,
    ⟨.F, .A, .B, .C, .D, 4, 7, 0xf57c0faf⟩, ⟨.F, .D, .A, .B, .C, 5, 12, 0x4787c62a⟩,
    ⟨.F, .C, .D, .A, .B, 6, 17, 0xa8304613⟩, ⟨.F, .B, .C, .D, .A, 7, 22, 0xfd469501⟩,
    ⟨.F, .A, .B, .C, .D, 8, 7, 0x698098d8⟩, ⟨.F, .D, .A, .B, .C, 9, 12, 0x8b44f7af⟩,
    ⟨.F, .C, .D, .A, .B, 10, 17, 0xffff5bb1⟩, ⟨.F, .B, .C, .D, .A, 11, 22, 0x895cd7be⟩,
    ⟨.F, .A, .B, .C, .D, 12, 7, 0x6b901122⟩, ⟨.F, .D, .A, .B, .C, 13, 12, 0xfd987193⟩,
    ⟨.F, .C, .D, .A, .B, 14, 17, 0xa679438e⟩, ⟨.F, .B, .C, .D, .A, 15, 22, 0x49b40821⟩,
    ⟨.G, .A, .B, .C, .D, 1, 5, 0xf61e2562⟩, ⟨.G, .D, .A, .B, .C, 6, 9, 0xc040b340⟩,
    ⟨.G, .C, .D, .A, .B, 11, 14, 0x265e5a51⟩, ⟨.G, .B, .C, .D, .A, 0, 20, 0xe9b6c7aa⟩,
    ⟨.G, .A, .B, .C, .D, 5, 5, 0xd62f105d⟩, ⟨.G, .D, .A, .B, .C, 10, 9, 0x02441453⟩,
    ⟨.G, .C, .D, .A, .B, 15, 14, 0xd8a1e681⟩, ⟨.G, .B, .C, .D, .A, 4, 20, 0xe7d3fbc8⟩,
    ⟨.G, .A, .B, .C, .D, 9, 5, 0x21e1cde6⟩, ⟨.G, .D, .A, .B, .C, 14, 9, 0xc33707d6⟩,
    ⟨.G, .C, .D, .A, .B, 3, 14, 0xf4d50d87⟩, ⟨.G, .B, .C, .D, .A, 8, 20, 0x455a14ed⟩,
    ⟨.G, .A, .B, .C, .D, 13, 5, 0xa9e3e905⟩, ⟨.G, .D, .A, .B, .C, 2, 9, 0xfcefa3f8⟩,
    ⟨.G, .C, .D, .A, .B, 7, 14, 0x676f02d9⟩, ⟨.G, .B, .C, .D, .A, 12, 20, 0x8d2a4c8a⟩,
    ⟨.H, .A, .B, .C, .D, 5, 4, 0xfffa3942⟩, ⟨.H, .D, .A, .B, .C, 8, 11, 0x8771f681⟩,
    ⟨.H, .C, .D, .A, .B, 11, 16, 0x6d9d6122⟩, ⟨.H, .B, .C, .D, .A, 14, 23, 0xfde5380c⟩,
    ⟨.H, .A, .B, .C, .D, 1, 4, 0xa4beea44⟩, ⟨.H, .D, .A, .B, .C, 4, 11, 0x4bdecfa9⟩,
    ⟨.H, .C, .D, .A, .B, 7, 16, 0xf6bb4b60⟩, ⟨.H, .B, .C, .D, .A, 10, 23, 0xbebfbc70⟩,
    ⟨.H, .A, .B, .C, .D, 13, 4, 0x289b7ec6⟩, ⟨.H, .D, .A, .B, .C, 0, 11, 0xeaa127fa⟩,
    ⟨.H, .C, .D, .A, .B, 3, 16, 0xd4ef3085⟩, ⟨.H, .B, .C, .D, .A, 6, 23, 0x04881d05⟩,
    ⟨.H, .A, .B, .C, .D, 9, 4, 0xd9d4d039⟩, ⟨.H, .D, .A, .B, .C, 12, 11, 0xe6db99e5⟩,
    ⟨.H, .C, .D, .A, .B, 15, 16, 0x1fa27cf8⟩, ⟨.H, .B, .C, .D, .A, 2, 23, 0xc4ac5665⟩,
    ⟨.I, .A, .B, .C, .D, 0, 6, 0xf4292244⟩, ⟨.I, .D, .A, .B, .C, 7, 10, 0x432aff97⟩,
    ⟨.I, .C, .D, .A, .B, 14, 15, 0xab9423a7⟩, ⟨.I, .B, .C, .D, .A, 5, 21, 0xfc93a039⟩,
    ⟨.I, .A, .B, .C, .D, 12, 6, 0x655b59c3⟩, ⟨.I, .D, .A, .B, .C, 3, 10, 0x8f0ccc92⟩,
    ⟨.I, .C, .D, .A, .B, 10, 15, 0xffeff47d⟩, ⟨.I, .B, .C, .D, .A, 1, 21, 0x85845dd1⟩,
    ⟨.I, .A, .B, .C, .D, 8, 6, 0x6fa87e4f⟩, ⟨.I, .D, .A, .B, .C, 15, 10, 0xfe2ce6e0⟩,
    ⟨.I, .C, .D, .A, .B, 6, 15, 0xa3014314⟩, ⟨.I, .B, .C, .D, .A, 13, 21, 0x4e0811a1⟩,
    ⟨.I, .A, .B, .C, .D, 4, 6, 0xf7537e82⟩, ⟨.I, .D, .A, .B, .C, 11, 10, 0xbd3af235⟩,
    ⟨.I, .C, .D, .A, .B, 2, 15, 0x2ad7d2bb⟩, ⟨.I, .B, .C, .D, .A, 9, 21, 0xeb86d391⟩]

structure Md5Context where
  regs : Regs
  nblocks : Nat
  buf : List Byte
  count : Nat
  finalized : Bool
  size : buf.length = 64

namespace Md5Context

def transform (hd : Md5Context) (data : List Byte) : Md5Context :=
  { hd with regs := hd.regs.add (transformLines.foldl (OP (Md5.word data)) hd.regs) }

/-- `transform`, and the two statements behind it. -/
def work (hd : Md5Context) (data : List Byte) : Md5Context :=
  { hd.transform data with count := 0, nblocks := (hd.nblocks + 1) % 2 ^ 32 }

def put (hd : Md5Context) (x : Byte) : Md5Context :=
  { hd with
    buf := hd.buf.set hd.count x
    count := hd.count + 1
    size := by rw [List.length_set, hd.size] }

def store (hd : Md5Context) (i : Nat) (l : List Byte) : Md5Context :=
  { hd with
    buf := overwrite hd.buf i l
    size := by rw [BlockStream.length_overwrite, hd.size] }

/-- `md5_update(hd, NULL, 0)`. -/
def flush (hd : Md5Context) : Md5Context :=
  if hd.count = 64 then hd.work hd.buf else hd

/-- The loop that copies to the buffer as long as there is input and room. -/
def fill : Md5Context → List Byte → Md5Context × List Byte
  | hd, [] => (hd, [])
  | hd, x :: inbuf => if hd.count < 64 then fill (hd.put x) inbuf else (hd, x :: inbuf)

/-- The loop over the whole blocks of the input. -/
def blocks (hd : Md5Context) (inbuf : List Byte) : Md5Context × List Byte :=
  if 64 ≤ inbuf.length then blocks (hd.work (inbuf.take 64)) (inbuf.drop 64) else (hd, inbuf)
termination_by inbuf.length
decreasing_by rw [List.length_drop]; omega

def updateBlocks (hd : Md5Context) (inbuf : List Byte) : Md5Context :=
  let (hd, inbuf) := hd.blocks inbuf
  (hd.fill inbuf).1

/-- The loop `while (hd->count < n) hd->buf[hd->count++] = 0`, with what it has to do. -/
def zeros : Nat → Md5Context → Md5Context
  | 0, hd => hd
  | k + 1, hd => zeros k (hd.put 0)

end Md5Context

/-- `md5_init` on memory that has not been initialized. -/
def md5Init (ctx : Md5Context) : Md5Context :=
  { ctx with
    regs := ⟨0x67452301, 0xefcdab89, 0x98badcfe, 0x10325476⟩
    nblocks := 0
    count := 0
    finalized := false }

def md5Update (hd : Md5Context) (inbuf : List Byte) : Md5Context :=
  let hd := hd.flush
  if hd.count ≠ 0 then
    let (hd, inbuf) := hd.fill inbuf
    let hd := hd.flush
    if inbuf = [] then hd else hd.updateBlocks inbuf
  else hd.updateBlocks inbuf

/-- `lsb` and `msb` of `do_final`. -/
def bitCount (nblocks count : Nat) : Nat × Nat :=
  let msb := 0
  let t := nblocks
  let lsb := t * 64 % 2 ^ 32
  let msb := if lsb < t then msb + 1 else msb
  let msb := msb + t / 2 ^ 26
  let t := lsb
  let lsb := (t + count) % 2 ^ 32
  let msb := if lsb < t then msb + 1 else msb
  let t := lsb
  let lsb := t * 8 % 2 ^ 32
  let msb := if lsb < t then msb + 1 else msb
  (lsb, (msb + t / 2 ^ 29) % 2 ^ 32)

/-- Enough room for the count, or one extra block. -/
def doFinalPad (hd : Md5Context) : Md5Context :=
  if hd.count < 56 then
    let hd := hd.put 0x80
    hd.zeros (56 - hd.count)
  else
    let hd := hd.put 0x80
    let hd := hd.zeros (64 - hd.count)
    hd.flush.store 0 (List.replicate 56 0)

def doFinal (hd : Md5Context) : Md5Context :=
  let hd := hd.flush
  let (lsb, msb) := bitCount hd.nblocks hd.count
  let hd := doFinalPad hd
  let hd := hd.store 56 (Md5.littleEndian 4 lsb ++ Md5.littleEndian 4 msb)
  let hd := hd.transform hd.buf
  let hd := hd.store 0 (Md5.littleEndian 4 hd.regs.A.toNat ++ Md5.littleEndian 4 hd.regs.B.toNat ++
    Md5.littleEndian 4 hd.regs.C.toNat ++ Md5.littleEndian 4 hd.regs.D.toNat)
  { hd with finalized := true }

/-- `md5_final`: the digest and the context it leaves. -/
def md5Final (ctx : Md5Context) : List Byte × Md5Context :=
  let ctx := if ctx.finalized then ctx else doFinal ctx
  (ctx.buf.take 16, ctx)

/-! ## transform works off one block -/

theorem ff_eq (x y z : Word) : FF x y z = Round.F.fn x y z := by
  ext i hi
  simp only [FF, Round.fn, BitVec.getElem_xor, BitVec.getElem_and, BitVec.getElem_or,
    BitVec.getElem_not]
  cases x[i] <;> cases y[i] <;> cases z[i] <;> rfl

theorem roundFn_eq (f : Round) (b c d : Word) : roundFn f b c d = f.fn b c d := by
  cases f with
  | F => exact ff_eq b c d
  | G =>
    show FF d b c = _
    rw [ff_eq, Round.fn, Round.fn, BitVec.and_comm d b, BitVec.and_comm _ c]
  | H => rfl
  | I => rfl

theorem op_eq {x : Nat → Word} {r : Regs} {l : Line} (hab : l.b ≠ l.a) (hs : l.s < 32) :
    OP x r l = l.perform x r := by
  unfold OP Line.perform
  dsimp only
  rw [Regs.set_set, Regs.set_set, Regs.get_set, if_pos rfl, Regs.get_set, if_pos rfl, Regs.get_set, if_neg hab, Regs.get_set,
    if_neg hab, rol, Md5.rotate_eq hs, roundFn_eq, BitVec.add_comm (r.get l.b), ← BitVec.add_assoc,
    ← BitVec.add_assoc]

theorem transformLines_eq : transformLines = Md5.lines := by decide +kernel

theorem foldl_op {x : Nat → Word} {ls : List Line} (h : ∀ l ∈ ls, l.b ≠ l.a ∧ l.s < 32)
    (r : Regs) : ls.foldl (OP x) r = ls.foldl (Line.perform x) r := by
  induction ls generalizing r with
  | nil => rfl
  | cons l ls ih =>
    obtain ⟨hl, hls⟩ := List.forall_mem_cons.1 h
    rw [List.foldl_cons, List.foldl_cons, op_eq hl.1 hl.2, ih hls]

variable {hd : Md5Context} {l data : List Byte} {n : Nat}

theorem transform_regs : (hd.transform data).regs = Md5.compress hd.regs data := by
  show hd.regs.add _ = hd.regs.add _
  rw [foldl_op (by decide +kernel), transformLines_eq]

/-! ## The context as a stream in blocks -/

namespace Md5Context

/-- The registers and the begun block that the context stands for: a full buffer is
as good as worked off. -/
def view (hd : Md5Context) : Regs × List Byte :=
  if hd.count < 64 then (hd.regs, hd.buf.take hd.count) else (Md5.compress hd.regs hd.buf, [])

def total (hd : Md5Context) : Nat := 64 * hd.nblocks + hd.count

/-- Absorbs the stream `l` into the context `hd`, which may still be full. -/
structure Takes (hd : Md5Context) (l : List Byte) (hd' : Md5Context) : Prop where
  view : hd'.view = absorb 64 Md5.compress hd.view l
  total : hd.total + l.length < 2 ^ 38 → hd'.total = hd.total + l.length
  finalized : hd'.finalized = hd.finalized
  room : hd'.count ≤ 64

variable {hd' hd'' : Md5Context} {l' : List Byte}

theorem Takes.refl (h : hd.count ≤ 64) : Takes hd [] hd := ⟨BlockStream.absorb_nil.symm, fun _ => rfl, rfl, h⟩

theorem Takes.append (h : Takes hd l hd') (h' : Takes hd' l' hd'') : Takes hd (l ++ l') hd'' := by
  refine ⟨?_, fun hlt => ?_, h'.finalized.trans h.finalized, h'.room⟩
  · rw [h'.view, h.view, BlockStream.absorb_append]
  · rw [List.length_append] at hlt ⊢
    have ht := h.total (by omega)
    have ht' := h'.total (by omega)
    omega

theorem view_of_lt (h : hd.count < 64) : hd.view = (hd.regs, hd.buf.take hd.count) := if_pos h

theorem length_take_count (h : hd.count ≤ 64) : (hd.buf.take hd.count).length = hd.count := by
  rw [List.length_take, hd.size]
  omega

theorem put_takes (h : hd.count < 64) (x : Byte) : Takes hd [x] (hd.put x) := by
  have hbuf : (hd.put x).buf.take (hd.count + 1) = hd.buf.take hd.count ++ [x] :=
    BlockStream.take_set (by rw [hd.size]; exact h)
  refine ⟨?_, fun _ => (Nat.add_assoc ..).symm, rfl, h⟩
  show (put hd x).view = push 64 Md5.compress hd.view x
  have hlen := length_take_count h.le
  rw [view_of_lt h, push]
  dsimp only
  rw [hlen, ← hbuf]
  unfold view
  show (if hd.count + 1 < 64 then _ else _) = _
  split
  · rfl
  · rw [List.take_of_length_le (by rw [(hd.put x).size]; omega)]
    rfl

theorem work_regs : (hd.work data).regs = Md5.compress hd.regs data := by
  rw [← transform_regs]
  simp only [work]

theorem work_count : (hd.work data).count = 0 := by
  simp only [work]

theorem work_nblocks : (hd.work data).nblocks = (hd.nblocks + 1) % 2 ^ 32 := by
  simp only [work, transform]

theorem work_finalized : (hd.work data).finalized = hd.finalized := by
  rw [work, transform]

theorem work_view : (hd.work data).view = (Md5.compress hd.regs data, []) := by
  rw [view_of_lt (by rw [work_count]; decide), work_regs, work_count, List.take_zero]

theorem work_total (h : 64 * hd.nblocks + 64 < 2 ^ 38) :
    (hd.work data).total = 64 * hd.nblocks + 64 := by
  rw [total, work_count, work_nblocks, Nat.mod_eq_of_lt (by omega)]
  omega

theorem flush_takes (h : hd.count ≤ 64) : Takes hd [] hd.flush ∧ hd.flush.count < 64 := by
  unfold flush
  split
  · next hfull =>
    refine ⟨⟨?_, fun hlt => ?_, work_finalized, by rw [work_count]; decide⟩,
      by rw [work_count]; decide⟩
    · rw [BlockStream.absorb_nil, work_view, view, if_neg (by omega)]
    · unfold total at hlt
      rw [hfull] at hlt
      rw [work_total hlt, total, hfull, List.length_nil]
  · exact ⟨.refl h, by omega⟩

/-- The copying loop takes a first part of the input, and stops when the buffer is full. -/
theorem fill_takes (h : hd.count ≤ 64) (l : List Byte) :
    ∃ a, l = a ++ (hd.fill l).2 ∧ Takes hd a (hd.fill l).1 ∧
      ((hd.fill l).2 = [] ∨ (hd.fill l).1.count = 64) := by
  induction l generalizing hd with
  | nil => exact ⟨[], rfl, .refl h, .inl rfl⟩
  | cons x l ih =>
    unfold fill
    split
    · next hlt =>
      obtain ⟨a, hl, ha, hend⟩ := ih (put_takes hlt x).room
      exact ⟨x :: a, by rw [List.cons_append, ← hl], (put_takes hlt x).append ha, hend⟩
    · next hge =>
      have hfull : hd.count = 64 := by omega
      exact ⟨[], rfl, .refl h, .inr hfull⟩

theorem fill_short (h : hd.count + l.length < 64) : (hd.fill l).2 = [] := by
  induction l generalizing hd with
  | nil => rfl
  | cons x l ih =>
    rw [List.length_cons] at h
    rw [fill, if_pos (by omega)]
    exact ih (show hd.count + 1 + l.length < 64 by omega)

theorem work_takes (h : hd.count = 0) (hdata : data.length = 64) :
    Takes hd data (hd.work data) := by
  refine ⟨?_, fun hlt => ?_, work_finalized, by rw [work_count]; decide⟩
  · rw [work_view, view_of_lt (by omega), h, List.take_zero,
      BlockStream.absorb_block hdata (by decide)]
  · unfold total at hlt
    rw [work_total (by omega), total]
    omega

theorem blocks_takes (h : hd.count = 0) (l : List Byte) :
    ∃ a, l = a ++ (hd.blocks l).2 ∧ Takes hd a (hd.blocks l).1 ∧ (hd.blocks l).1.count = 0 ∧
      (hd.blocks l).2.length < 64 := by
  fun_induction blocks hd l with
  | case1 hd l hlen ih =>
    obtain ⟨a, hl, ha, hend⟩ := ih work_count
    refine ⟨l.take 64 ++ a, ?_, .append (work_takes h (List.length_take_of_le hlen)) ha, hend⟩
    rw [List.append_assoc, ← hl, List.take_append_drop]
  | case2 hd l hlen =>
    have hlen : l.length < 64 := by omega
    exact ⟨[], rfl, .refl (by omega), h, hlen⟩

theorem updateBlocks_takes (h : hd.count = 0) (l : List Byte) : Takes hd l (hd.updateBlocks l) := by
  obtain ⟨a, hl, ha, hzero, hlt⟩ := blocks_takes h l
  unfold updateBlocks
  generalize hd.blocks l = p at *
  obtain ⟨a', hl', ha', -⟩ := fill_takes ha.room p.2
  rw [fill_short (by omega), List.append_nil] at hl'
  rw [hl, hl']
  exact ha.append ha'

end Md5Context

open Md5Context (Takes)

theorem md5Update_takes (h : hd.count ≤ 64) (l : List Byte) : Takes hd l (md5Update hd l) := by
  obtain ⟨hflush, hlt⟩ := Md5Context.flush_takes h
  unfold md5Update
  dsimp only
  split
  · obtain ⟨a, hl, ha, hend⟩ := Md5Context.fill_takes hlt.le l
    generalize hd.flush.fill l = p at *
    obtain ⟨hflush', hlt'⟩ := Md5Context.flush_takes ha.room
    have hnil := (hflush.append ha).append hflush'
    rw [List.nil_append, List.append_nil] at hnil
    split
    · next hp =>
      rw [hp, List.append_nil] at hl
      rwa [hl]
    · next hp =>
      have hzero : p.1.flush.count = 0 := by
        rw [Md5Context.flush, if_pos (hend.resolve_left hp), Md5Context.work_count]
      rw [hl]
      exact hnil.append (Md5Context.updateBlocks_takes hzero _)
  · next hz => exact hflush.append (Md5Context.updateBlocks_takes (by omega) l)

theorem md5Updates_takes (h : hd.count ≤ 64) (pieces : List (List Byte)) :
    Takes hd pieces.flatten (pieces.foldl md5Update hd) := by
  induction pieces generalizing hd with
  | nil => exact .refl h
  | cons l pieces ih =>
    rw [List.foldl_cons, List.flatten_cons]
    have hl := md5Update_takes h l
    exact hl.append (ih hl.room)

/-! ## do_final -/

/-- The high word has the bits above 2 ^ 32 bytes once instead of eight times, and a
carry for every shift that wraps. -/
theorem bitCount_eq {nblocks count n : Nat} (hcount : count < 64)
    (hn : 64 * nblocks + count = n) :
    bitCount nblocks count = (8 * n % 2 ^ 32,
      ((if nblocks * 64 % 2 ^ 32 < nblocks then 1 else 0) + n / 2 ^ 32 +
        (if 8 * n % 2 ^ 32 < n % 2 ^ 32 then 1 else 0) + n % 2 ^ 32 / 2 ^ 29) % 2 ^ 32) := by
  have hlow : (nblocks * 64 % 2 ^ 32 + count) % 2 ^ 32 = n % 2 ^ 32 := by omega
  have hcarry : ¬ n % 2 ^ 32 < nblocks * 64 % 2 ^ 32 := by omega
  have hbits : n % 2 ^ 32 * 8 % 2 ^ 32 = 8 * n % 2 ^ 32 := by omega
  have hhigh : nblocks / 2 ^ 26 = n / 2 ^ 32 := by omega
  unfold bitCount
  dsimp only
  rw [hlow, if_neg hcarry, hbits, hhigh]
  split <;> split <;> simp only [Nat.zero_add, Nat.add_zero, Nat.add_assoc]

/-- The length in bits is right for fewer than 2 ^ 32 bytes, unless the last shift wraps
below what it shifts: then the carry is counted twice. -/
theorem bitCount_iff {nblocks count n : Nat} (hcount : count < 64)
    (hn : 64 * nblocks + count = n) (hlt : n < 2 ^ 38) :
    bitCount nblocks count = (8 * n % 2 ^ 32, 8 * n / 2 ^ 32) ↔
      n < 2 ^ 32 ∧ n ≤ 8 * n % 2 ^ 32 := by
  have hsmall : n < 2 ^ 32 → ¬ nblocks * 64 % 2 ^ 32 < nblocks := by omega
  have htop : 8 * n / 2 ^ 32 = 8 * (n / 2 ^ 32) + n % 2 ^ 32 / 2 ^ 29 := by omega
  have hmid : n % 2 ^ 32 / 2 ^ 29 < 8 := by omega
  have hhigh : n / 2 ^ 32 < 64 := by omega
  have hzero : n / 2 ^ 32 = 0 ↔ n < 2 ^ 32 := by omega
  rw [bitCount_eq hcount hn, Prod.mk.injEq, and_iff_right rfl, htop, ← hzero]
  rw [← hzero] at hsmall
  clear htop hlt hn
  generalize nblocks * 64 % 2 ^ 32 = t at *
  generalize n % 2 ^ 32 / 2 ^ 29 = mid at *
  constructor
  · intro h
    have hq : n / 2 ^ 32 = 0 := by
      generalize n / 2 ^ 32 = q at *
      split at h <;> split at h <;> omega
    refine ⟨hq, Nat.le_of_not_lt fun hwrap => ?_⟩
    rw [Nat.mod_eq_of_lt (hzero.1 hq), if_pos hwrap, hq] at h
    split at h <;> omega
  · rintro ⟨hq, hle⟩
    rw [if_neg (hsmall hq), Nat.mod_eq_of_lt (hzero.1 hq), if_neg (Nat.not_lt.2 hle), hq]
    omega

namespace Md5Context

theorem zeros_takes (hd : Md5Context) (k : Nat) (h : hd.count + k ≤ 64) :
    Takes hd (List.replicate k 0) (hd.zeros k) ∧ (hd.zeros k).count = hd.count + k := by
  induction k generalizing hd with
  | zero => exact ⟨.refl h, rfl⟩
  | succ k ih =>
    obtain ⟨ht, hc⟩ := ih (hd.put 0) (show hd.count + 1 + k ≤ 64 by omega)
    refine ⟨(put_takes (by omega) 0).append ht, hc.trans ?_⟩
    show hd.count + 1 + k = _
    omega

theorem store_take (hd : Md5Context) (i : Nat) (l : List Byte) (h : i + l.length ≤ 64) :
    (hd.store i l).buf.take (i + l.length) = hd.buf.take i ++ l :=
  BlockStream.take_overwrite (by rw [hd.size]; exact h)

theorem store_regs {i : Nat} : (hd.store i l).regs = hd.regs := by
  rw [store]

end Md5Context

theorem doFinalPad_view (h : hd.count < 64) :
    ((doFinalPad hd).regs, (doFinalPad hd).buf.take 56) =
      absorb 64 Md5.compress hd.view (0x80 :: List.replicate ((119 - hd.count) % 64) 0) := by
  have hput := Md5Context.put_takes h 0x80
  unfold doFinalPad
  dsimp only
  split
  · next hlt =>
    have hk : (119 - hd.count) % 64 = 56 - (hd.put 0x80).count := by
      show _ = 56 - (hd.count + 1)
      omega
    have hroom : (hd.put 0x80).count ≤ 56 := hlt
    obtain ⟨hz, hcount⟩ := Md5Context.zeros_takes (hd.put 0x80)
      (56 - (hd.put 0x80).count) (by omega)
    rw [Nat.add_sub_cancel' hroom] at hcount
    rw [hk, ← List.singleton_append, ← (hput.append hz).view,
      Md5Context.view_of_lt (by omega), hcount]
  · next hge =>
    have hk : (119 - hd.count) % 64 = 64 - (hd.put 0x80).count + 56 := by
      show _ = 64 - (hd.count + 1) + 56
      omega
    obtain ⟨hz, hcount⟩ := Md5Context.zeros_takes (hd.put 0x80)
      (64 - (hd.put 0x80).count) (by have : (hd.put 0x80).count ≤ 64 := h; omega)
    have hfull : ((hd.put 0x80).zeros (64 - (hd.put 0x80).count)).count = 64 := by
      have : (hd.put 0x80).count ≤ 64 := h
      omega
    have hflush := (hput.append hz).append (Md5Context.flush_takes hz.room).1
    generalize (hd.put 0x80).zeros (64 - (hd.put 0x80).count) = hd' at *
    have hzero : hd'.flush.count = 0 := by
      rw [Md5Context.flush, if_pos hfull, Md5Context.work_count]
    have hview := hflush.view
    rw [Md5Context.view_of_lt (by omega), hzero, List.take_zero, List.append_nil] at hview
    rw [hk, List.replicate_add, ← List.singleton_append, ← List.append_assoc,
      BlockStream.absorb_append, ← hview, BlockStream.absorb_short (by simp)]
    have hstore := Md5Context.store_take hd'.flush 0
      (List.replicate 56 (0 : Byte)) (by simp)
    rw [List.length_replicate, Nat.zero_add, List.take_zero] at hstore
    rw [hstore, Md5Context.store_regs]

theorem doFinal_buf (h : hd.count ≤ 64) {lsb msb : Nat}
    (hbits : bitCount hd.flush.nblocks hd.flush.count = (lsb, msb)) :
    (doFinal hd).buf.take 16 = Md5.output (absorb 64 Md5.compress hd.view
      (0x80 :: (List.replicate ((119 - hd.flush.count) % 64) 0 ++
        (Md5.littleEndian 4 lsb ++ Md5.littleEndian 4 msb)))).1 := by
  obtain ⟨hflush, hlt⟩ := Md5Context.flush_takes h
  have hview := hflush.view
  rw [BlockStream.absorb_nil] at hview
  have hpad := doFinalPad_view hlt
  rw [hview] at hpad
  have hlen : (Md5.littleEndian 4 lsb ++ Md5.littleEndian 4 msb).length = 8 := by
    simp [Md5.littleEndian]
  unfold doFinal
  dsimp only
  rw [hbits]
  dsimp only
  generalize Md5.littleEndian 4 lsb ++ Md5.littleEndian 4 msb = count at *
  generalize doFinalPad hd.flush = padded at *
  have hbuf : (padded.store 56 count).buf = padded.buf.take 56 ++ count := by
    have htake := Md5Context.store_take padded 56 count (by omega)
    rwa [hlen, List.take_of_length_le (by rw [(padded.store 56 count).size])] at htake
  have hfull : (padded.buf.take 56).length + count.length = 64 := by
    rw [List.length_take, padded.size, hlen]
    rfl
  have hne : count ≠ [] := by
    rintro rfl
    cases hlen
  have hregs : ((padded.store 56 count).transform (padded.store 56 count).buf).regs =
      (absorb 64 Md5.compress hd.view
        (0x80 :: (List.replicate ((119 - hd.flush.count) % 64) 0 ++ count))).1 := by
    rw [transform_regs, Md5Context.store_regs, ← List.cons_append, BlockStream.absorb_append,
      ← hpad, BlockStream.absorb_full hfull hne, hbuf]
  rw [← hregs]
  generalize (padded.store 56 count).transform (padded.store 56 count).buf = last
  have hout := Md5Context.store_take last 0 (Md5.output last.regs)
    (by simp [Md5.output, Md5.littleEndian])
  rw [List.take_zero, List.nil_append] at hout
  simpa [Md5.output, Md5.littleEndian] using hout

theorem md5Final_open (h : hd.finalized = false) :
    (md5Final hd).1 = (doFinal hd).buf.take 16 := by
  simp only [md5Final, h, Bool.false_eq_true, if_false]

theorem md5Init_count (ctx : Md5Context) : (md5Init ctx).count = 0 := by
  simp only [md5Init]

theorem md5Init_total (ctx : Md5Context) : (md5Init ctx).total = 0 := by
  simp only [Md5Context.total, md5Init, Nat.mul_zero, Nat.add_zero]

theorem md5Init_view (ctx : Md5Context) : (md5Init ctx).view = (Md5.start, []) := by
  rw [Md5Context.view_of_lt (by rw [md5Init_count]; decide), md5Init_count, List.take_zero]
  simp only [md5Init, Md5.start]

/-- **The digest of a file.** However `read` divides a file, `md5_update` and `md5_final`
give the MD5 digest of its bytes when `bitCount` has its length in bits, and below
2 ^ 38 bytes that is exactly when the file has fewer than 2 ^ 32 bytes and `n` is at most
`8 * n` in 32 bits, as it is below 2 ^ 29 bytes. -/
theorem md5Final_digest (ctx : Md5Context) (pieces : List (List Byte)) {n : Nat}
    (hn : pieces.flatten.length = n) (hlt : n < 2 ^ 38) :
    let hd := (pieces.foldl md5Update (md5Init ctx)).flush
    (bitCount hd.nblocks hd.count = (8 * n % 2 ^ 32, 8 * n / 2 ^ 32) ↔
      n < 2 ^ 32 ∧ n ≤ 8 * n % 2 ^ 32) ∧
    (n < 2 ^ 32 ∧ n ≤ 8 * n % 2 ^ 32 →
      (md5Final (pieces.foldl md5Update (md5Init ctx))).1 = Md5.digest pieces.flatten) := by
  have hinit : (md5Init ctx).count ≤ 64 := by
    rw [md5Init_count]
    decide
  have htakes := md5Updates_takes hinit pieces
  have hfin : (pieces.foldl md5Update (md5Init ctx)).finalized = false := htakes.finalized
  obtain ⟨hflush, hcount⟩ := Md5Context.flush_takes htakes.room
  have hall := htakes.append hflush
  have htotal := hall.total (by rw [md5Init_total, List.append_nil]; omega)
  rw [List.append_nil, md5Init_total, hn, Nat.zero_add, Md5Context.total] at htotal
  have hiff := bitCount_iff hcount htotal hlt
  have hmod : (119 - (pieces.foldl md5Update (md5Init ctx)).flush.count) % 64 =
      (119 - n % 64) % 64 := by
    rw [← htotal, Nat.mul_add_mod, Nat.mod_eq_of_lt hcount]
  refine ⟨hiff, fun hcond => ?_⟩
  have hbuf := doFinal_buf htakes.room (hiff.2 hcond)
  rw [htakes.view, md5Init_view, ← BlockStream.absorb_append, hmod] at hbuf
  rw [md5Final_open hfin, hbuf, Md5.digest, Md5.padding, hn, Md5.littleEndian_eight]

def blankContext : Md5Context := ⟨⟨0, 0, 0, 0⟩, 7, List.replicate 64 0xff, 3, true, by simp⟩

/-- `abc`, read in two pieces. -/
theorem md5Final_digest_abc :
    (md5Final ([[0x61, 0x62], [0x63]].foldl md5Update (md5Init blankContext))).1 =
      Md5.digest [0x61, 0x62, 0x63] :=
  (md5Final_digest blankContext [[0x61, 0x62], [0x63]] rfl (by decide)).2 (by decide)

end OsLabs.Ospfs
