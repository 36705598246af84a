import OsLabs.Lib.CInt
import OsLabs.Lib.Md5

/-!
# osppeer: the digest of a file

`md5.c` of lab4. The message is counted in bits, in two words; where the begun block
ends in `buf` follows from the count. `md5_append` in any pieces whose length an `int` can
add 63 to and `md5_finish` give the digest of the message, of every length
(`md5Finish_digest`).
-/

namespace OsLabs.Osp2p

open OsLabs.Md5 (Byte Word Reg Regs Round Line)
open BlockStream (absorb overwrite)

/-! ## md5_process -/

def rotateLeft (x : Word) (n : Nat) : Word := (x <<< n) ||| (x >>> (32 - n))

def tMask : Word := ~~~0

/-- The macros `F`, `G`, `H` and `I`. -/
def macroFn : Round → Word → Word → Word → Word
  | .F, x, y, z => (x &&& y) ||| (~~~x &&& z)
  | .G, x, y, z => (x &&& z) ||| (y &&& ~~~z)
  | .H, x, y, z => x ^^^ y ^^^ z
  | .I, x, y, z => y ^^^ (x ||| ~~~z)

/-- The macro `SET`, with its two statements. -/
def SET (x : Nat → Word) (r : Regs) (l : Line) : Regs :=
  let t := r.get l.a + macroFn l.round (r.get l.b) (r.get l.c) (r.get l.d) + x l.k + l.t
  r.set l.a (rotateLeft t l.s + r.get l.b)

/-- The lines of `md5_process`; `a`, `b`, `c` and `d` are the registers. -/
def processLines : List Line :=
  [⟨.F, .A, .B, .C, .D, 0, 7, tMask ^^^ 0x28955b87⟩, ⟨.F, .D, .A, .B, .C, 1, 12, tMask ^^^ 0x173848a9⟩,
    ⟨.F, .C, .D, .A, .B, 2, 17, 0x242070db⟩, ⟨.F, .B, .C, .D, .A, 3, 22, tMask ^^^ 0x3e423111⟩,
    ⟨.F, .A, .B, .C, .D, 4, 7, tMask ^^^ 0x0a83f050⟩, ⟨.F, .D, .A, .B, .C, 5, 12, 0x4787c62a⟩,
    ⟨.F, .C, .D, .A, .B, 6, 17, tMask ^^^ 0x57cfb9ec⟩, ⟨.F, .B, .C, .D, .A, 7, 22, tMask ^^^ 0x02b96afe⟩,
    ⟨.F, .A, .B, .C, .D, 8, 7, 0x698098d8⟩, ⟨.F, .D, .A, .B, .C, 9, 12, tMask ^^^ 0x74bb0850⟩,
    ⟨.F, .C, .D, .A, .B, 10, 17, tMask ^^^ 0x0000a44e⟩, ⟨.F, .B, .C, .D, .A, 11, 22, tMask ^^^ 0x76a32841⟩,
    ⟨.F, .A, .B, .C, .D, 12, 7, 0x6b901122⟩, ⟨.F, .D, .A, .B, .C, 13, 12, tMask ^^^ 0x02678e6c⟩,
    ⟨.F, .C, .D, .A, .B, 14, 17, tMask ^^^ 0x5986bc71⟩, ⟨.F, .B, .C, .D, .A, 15, 22, 0x49b40821⟩,
    ⟨.G, .A, .B, .C, .D, 1, 5, tMask ^^^ 0x09e1da9d⟩, ⟨.G, .D, .A, .B, .C, 6, 9, tMask ^^^ 0x3fbf4cbf⟩,
    ⟨.G, .C, .D, .A, .B, 11, 14, 0x265e5a51⟩, ⟨.G, .B, .C, .D, .A, 0, 20, tMask ^^^ 0x16493855⟩,
    ⟨.G, .A, .B, .C, .D, 5, 5, tMask ^^^ 0x29d0efa2⟩, ⟨.G, .D, .A, .B, .C, 10, 9, 0x02441453⟩,
    ⟨.G, .C, .D, .A, .B, 15, 14, tMask ^^^ 0x275e197e⟩, ⟨.G, .B, .C, .D, .A, 4, 20, tMask ^^^ 0x182c0437⟩,
    ⟨.G, .A, .B, .C, .D, 9, 5, 0x21e1cde6⟩, ⟨.G, .D, .A, .B, .C, 14, 9, tMask ^^^ 0x3cc8f829⟩,
    ⟨.G, .C, .D, .A, .B, 3, 14, tMask ^^^ 0x0b2af278⟩, ⟨.G, .B, .C, .D, .A, 8, 20, 0x455a14ed⟩,
    ⟨.G, .A, .B, .C, .D, 13, 5, tMask ^^^ 0x561c16fa⟩, ⟨.G, .D, .A, .B, .C, 2, 9, tMask ^^^ 0x03105c07⟩,
    ⟨.G, .C, .D, .A, .B, 7, 14, 0x676f02d9⟩, ⟨.G, .B, .C, .D, .A, 12, 20, tMask ^^^ 0x72d5b375⟩,
    ⟨.H, .A, .B, .C, .D, 5, 4, tMask ^^^ 0x0005c6bd⟩, ⟨.H, .D, .A, .B, .C, 8, 11, tMask ^^^ 0x788e097e⟩,
    ⟨.H, .C, .D, .A, .B, 11, 16, 0x6d9d6122⟩, ⟨.H, .B, .C, .D, .A, 14, 23, tMask ^^^ 0x021ac7f3⟩,
    ⟨.H, .A, .B, .C, .D, 1, 4, tMask ^^^ 0x5b4115bb⟩, ⟨.H, .D, .A, .B, .C, 4, 11, 0x4bdecfa9⟩,
    ⟨.H, .C, .D, .A, .B, 7, 16, tMask ^^^ 0x0944b49f⟩, ⟨.H, .B, .C, .D, .A, 10, 23, tMask ^^^ 0x4140438f⟩,
    ⟨.H, .A, .B, .C, .D, 13, 4, 0x289b7ec6⟩, ⟨.H, .D, .A, .B, .C, 0, 11, tMask ^^^ 0x155ed805⟩,
    ⟨.H, .C, .D, .A, .B, 3, 16, tMask ^^^ 0x2b10cf7a⟩, ⟨.H, .B, .C, .D, .A, 6, 23, 0x04881d05⟩,
    ⟨.H, .A, .B, .C, .D, 9, 4, tMask ^^^ 0x262b2fc6⟩, ⟨.H, .D, .A, .B, .C, 12, 11, tMask ^^^ 0x1924661a⟩,
    ⟨.H, .C, .D, .A, .B, 15, 16, 0x1fa27cf8⟩, ⟨.H, .B, .C, .D, .A, 2, 23, tMask ^^^ 0x3b53a99a⟩,
    ⟨.I, .A, .B, .C, .D, 0, 6, tMask ^^^ 0x0bd6ddbb⟩, ⟨.I, .D, .A, .B, .C, 7, 10, 0x432aff97⟩,
    ⟨.I, .C, .D, .A, .B, 14, 15, tMask ^^^ 0x546bdc58⟩, ⟨.I, .B, .C, .D, .A, 5, 21, tMask ^^^ 0x036c5fc6⟩,
    ⟨.I, .A, .B, .C, .D, 12, 6, 0x655b59c3⟩, ⟨.I, .D, .A, .B, .C, 3, 10, tMask ^^^ 0x70f3336d⟩,
    ⟨.I, .C, .D, .A, .B, 10, 15, tMask ^^^ 0x00100b82⟩, ⟨.I, .B, .C, .D, .A, 1, 21, tMask ^^^ 0x7a7ba22e⟩,
    ⟨.I, .A, .B, .C, .D, 8, 6, 0x6fa87e4f⟩, ⟨.I, .D, .A, .B, .C, 15, 10, tMask ^^^ 0x01d3191f⟩,
    ⟨.I, .C, .D, .A, .B, 6, 15, tMask ^^^ 0x5cfebceb⟩, ⟨.I, .B, .C, .D, .A, 13, 21, 0x4e0811a1⟩,
    ⟨.I, .A, .B, .C, .D, 4, 6, tMask ^^^ 0x08ac817d⟩, ⟨.I, .D, .A, .B, .C, 11, 10, tMask ^^^ 0x42c50dca⟩,
    ⟨.I, .C, .D, .A, .B, 2, 15, 0x2ad7d2bb⟩, ⟨.I, .B, .C, .D, .A, 9, 21, tMask ^^^ 0x14792c6e⟩]

def md5Process (abcd : Regs) (data : List Byte) : Regs :=
  abcd.add (processLines.foldl (SET (Md5.word data)) abcd)

/-! ## The state -/

structure Md5State where
  count0 : Nat
  count1 : Nat
  abcd : Regs
  buf : List Byte
  size : buf.length = 64

namespace Md5State

def addCount (pms : Md5State) (nbytes : Nat) : Md5State :=
  let nbits := nbytes * 8 % 2 ^ 32
  let count1 := (pms.count1 + nbytes / 2 ^ 29) % 2 ^ 32
  let count0 := (pms.count0 + nbits) % 2 ^ 32
  { pms with
    count0 := count0
    count1 := if count0 < nbits then (count1 + 1) % 2 ^ 32 else count1 }

/-- `memcpy(pms->buf + offset, p, ..)`. -/
def copy (pms : Md5State) (offset : Nat) (p : List Byte) : Md5State :=
  { pms with
    buf := overwrite pms.buf offset p
    size := by rw [BlockStream.length_overwrite, pms.size] }

end Md5State

def md5Init (pms : Md5State) : Md5State :=
  { pms with
    count0 := 0
    count1 := 0
    abcd := ⟨0x67452301, tMask ^^^ 0x10325476, tMask ^^^ 0x67452301, 0x10325476⟩ }

def processBlocks (abcd : Regs) (p : List Byte) : Regs × List Byte :=
  if 64 ≤ p.length then processBlocks (md5Process abcd (p.take 64)) (p.drop 64) else (abcd, p)
termination_by p.length
decreasing_by rw [List.length_drop]; omega

/-- The full blocks, and what is left of the piece. -/
def appendBlocks (pms : Md5State) (p : List Byte) : Md5State :=
  let (abcd, left) := processBlocks pms.abcd p
  { pms with abcd := abcd }.copy 0 left

/-- The length of the first copy. `nbytes` is an `int`, and so is the sum. -/
def copyLength (offset nbytes : Nat) : Nat :=
  if CInt.wrap (offset + nbytes : Nat) > 64 then 64 - offset else nbytes

/-- What follows the first copy, which ends at `last` of the block. -/
def appendRest (pms : Md5State) (last : Nat) (p : List Byte) : Md5State :=
  if CInt.wrap last < 64 then pms
  else appendBlocks { pms with abcd := md5Process pms.abcd pms.buf } p

def md5Append (pms : Md5State) (data : List Byte) : Md5State :=
  let offset := pms.count0 / 8 % 64
  if data.length = 0 then pms
  else
    let pms := pms.addCount data.length
    if offset ≠ 0 then
      let copy := copyLength offset data.length
      appendRest (pms.copy offset (data.take copy)) (offset + copy) (data.drop copy)
    else appendBlocks pms data

def pad : List Byte := 0x80 :: List.replicate 63 0

def md5Finish (pms : Md5State) : List Byte :=
  let data := Md5.littleEndian 4 pms.count0 ++ Md5.littleEndian 4 pms.count1
  let pms := md5Append pms (pad.take ((55 + 2 ^ 32 - pms.count0 / 8) % 2 ^ 32 % 64 + 1))
  let pms := md5Append pms data
  Md5.littleEndian 4 pms.abcd.A.toNat ++ Md5.littleEndian 4 pms.abcd.B.toNat ++
    Md5.littleEndian 4 pms.abcd.C.toNat ++ Md5.littleEndian 4 pms.abcd.D.toNat

/-! ## md5_process works off one block -/

theorem macroFn_eq (f : Round) (x y z : Word) : macroFn f x y z = f.fn x y z := by
  cases f <;> rfl

theorem set_eq {x : Nat → Word} {r : Regs} {l : Line} (hs : l.s < 32) :
    SET x r l = l.perform x r := by
  rw [SET, Line.perform, macroFn_eq, rotateLeft, Md5.rotate_eq hs, BitVec.add_comm (r.get l.b)]

theorem processLines_eq : processLines = Md5.lines := by decide +kernel

theorem foldl_set {x : Nat → Word} {ls : List Line} (h : ∀ l ∈ ls, l.s < 32) (r : Regs) :
    ls.foldl (SET x) r = ls.foldl (Line.perform x) r := by
  induction ls generalizing r with
  | nil => rfl
  | cons l ls ih =>
    obtain ⟨hl, hls⟩ := List.forall_mem_cons.1 h
    rw [List.foldl_cons, List.foldl_cons, set_eq hl, ih hls]

theorem md5Process_eq : md5Process = Md5.compress := by
  funext abcd data
  rw [md5Process, foldl_set (by decide +kernel), processLines_eq, Md5.compress]

theorem processBlocks_eq (abcd : Regs) (p : List Byte) :
    processBlocks abcd p = absorb 64 Md5.compress (abcd, []) p := by
  fun_induction processBlocks abcd p with
  | case1 abcd p hlen ih =>
    have hblock := BlockStream.absorb_block (f := Md5.compress) (s := abcd)
      (List.length_take_of_le hlen) (by decide)
    rw [ih, md5Process_eq, ← hblock, ← BlockStream.absorb_append, List.take_append_drop]
  | case2 abcd p hlen =>
    rw [BlockStream.absorb_short (by rw [List.length_nil]; omega), List.nil_append]

/-! ## The state as a stream in blocks -/

/-- The state has taken the message. -/
structure Taken (pms : Md5State) (message : List Byte) : Prop where
  count0 : pms.count0 = 8 * message.length % 2 ^ 32
  count1 : pms.count1 = 8 * message.length / 2 ^ 32 % 2 ^ 32
  stream : (pms.abcd, pms.buf.take (message.length % 64)) =
    absorb 64 Md5.compress (Md5.start, []) message

variable {pms : Md5State} {message data : List Byte}

theorem addCount_eq {n k : Nat} (h0 : pms.count0 = 8 * n % 2 ^ 32)
    (h1 : pms.count1 = 8 * n / 2 ^ 32 % 2 ^ 32) :
    (pms.addCount k).count0 = 8 * (n + k) % 2 ^ 32 ∧
      (pms.addCount k).count1 = 8 * (n + k) / 2 ^ 32 % 2 ^ 32 := by
  unfold Md5State.addCount
  dsimp only
  rw [h0, h1]
  have hlow : (8 * n % 2 ^ 32 + k * 8 % 2 ^ 32) % 2 ^ 32 = 8 * (n + k) % 2 ^ 32 := by omega
  rw [hlow]
  refine ⟨rfl, ?_⟩
  split <;> omega

theorem take_copy (pms : Md5State) {offset : Nat} {p : List Byte} (h : offset + p.length ≤ 64) :
    (pms.copy offset p).buf.take (offset + p.length) = pms.buf.take offset ++ p :=
  BlockStream.take_overwrite (by rw [pms.size]; exact h)

/-- The full blocks and the rest, behind a message that ends with a block. -/
theorem appendBlocks_stream (p : List Byte) :
    ((appendBlocks pms p).abcd, (appendBlocks pms p).buf.take (p.length % 64)) =
      absorb 64 Md5.compress (pms.abcd, []) p := by
  have hlen : (absorb 64 Md5.compress (pms.abcd, []) p).2.length = p.length % 64 := by
    rw [BlockStream.absorb_length (by decide) (Nat.zero_lt_succ 63), List.length_nil, Nat.zero_add]
  rw [← processBlocks_eq] at hlen
  rw [← processBlocks_eq, appendBlocks]
  generalize processBlocks pms.abcd p = q at *
  have hroom : 0 + q.2.length ≤ 64 := by omega
  have hcopy := take_copy { pms with abcd := q.1 } hroom
  rw [Nat.zero_add, List.take_zero, List.nil_append, hlen] at hcopy
  exact Prod.ext rfl hcopy

/-- The first copy takes the piece, or what is missing of the block. -/
theorem copyLength_cases {offset n : Nat} (h : offset < 64) (hn : n + 63 < 2 ^ 31) :
    copyLength offset n ≤ n ∧
      (copyLength offset n = n ∧ offset + n < 64 ∧
          CInt.wrap (offset + copyLength offset n : Nat) < 64 ∨
        copyLength offset n = 64 - offset ∧
          ¬ CInt.wrap (offset + copyLength offset n : Nat) < 64) := by
  unfold copyLength
  rw [CInt.wrap_natCast (by omega)]
  split
  · rw [CInt.wrap_natCast (by omega)]
    omega
  · rw [CInt.wrap_natCast (by omega)]
    omega

theorem appendRest_count (pms : Md5State) (last : Nat) (p : List Byte) :
    (appendRest pms last p).count0 = pms.count0 ∧ (appendRest pms last p).count1 = pms.count1 := by
  unfold appendRest
  split
  · exact ⟨rfl, rfl⟩
  · exact ⟨rfl, rfl⟩

theorem md5Append_count (pms : Md5State) (h : data ≠ []) :
    (md5Append pms data).count0 = (pms.addCount data.length).count0 ∧
      (md5Append pms data).count1 = (pms.addCount data.length).count1 := by
  unfold md5Append
  dsimp only
  rw [if_neg (by simpa using h)]
  split
  · exact appendRest_count _ _ _
  · exact ⟨rfl, rfl⟩

theorem md5Append_stream {offset : Nat} (hoffset : pms.count0 / 8 % 64 = offset)
    (hnil : data ≠ []) (hdata : data.length + 63 < 2 ^ 31) :
    ((md5Append pms data).abcd, (md5Append pms data).buf.take ((offset + data.length) % 64)) =
      absorb 64 Md5.compress (pms.abcd, pms.buf.take offset) data := by
  have hlt : offset < 64 := by omega
  have hlen : (pms.buf.take offset).length = offset := by
    rw [List.length_take, pms.size]
    omega
  unfold md5Append
  dsimp only
  rw [hoffset]
  rw [if_neg (by simpa using hnil)]
  split
  · obtain ⟨hle, hcase⟩ := copyLength_cases hlt hdata
    generalize copyLength offset data.length = copy at *
    have htake : (data.take copy).length = copy := List.length_take_of_le hle
    have hroom : offset + (data.take copy).length ≤ 64 := by omega
    have hcopy := take_copy (pms.addCount data.length) hroom
    have hsame : (pms.addCount data.length).buf = pms.buf := rfl
    rw [htake, hsame] at hcopy
    rcases hcase with ⟨rfl, hshort, hint⟩ | ⟨hcopy64, hfull⟩
    · rw [appendRest, if_pos hint, Nat.mod_eq_of_lt hshort, hcopy, List.take_length,
        BlockStream.absorb_short (by omega)]
      rfl
    · have hne : data.take copy ≠ [] := by
        intro he
        rw [he, List.length_nil] at htake
        omega
      have hblock := BlockStream.absorb_full (f := Md5.compress) (s := pms.abcd)
        (show (pms.buf.take offset).length + (data.take copy).length = 64 by omega) hne
      rw [show offset + copy = 64 by omega, List.take_of_length_le (by
        rw [((pms.addCount data.length).copy offset (data.take copy)).size])] at hcopy
      have hrest : (offset + data.length) % 64 = (data.drop copy).length % 64 := by
        rw [List.length_drop]
        omega
      rw [appendRest, if_neg hfull, hrest, appendBlocks_stream, ← List.take_append_drop copy data,
        BlockStream.absorb_append, List.take_append_drop, hblock, ← hcopy, md5Process_eq]
      rfl
  · next hzero =>
    have hzero : offset = 0 := by omega
    rw [hzero, Nat.zero_add, appendBlocks_stream, List.take_zero]
    rfl

theorem Taken.append (h : Taken pms message) (hdata : data.length + 63 < 2 ^ 31) :
    Taken (md5Append pms data) (message ++ data) := by
  by_cases hnil : data = []
  · subst hnil
    rwa [List.append_nil]
  obtain ⟨h0, h1⟩ := md5Append_count pms hnil
  obtain ⟨hadd0, hadd1⟩ := addCount_eq h.count0 h.count1
  refine ⟨by rw [h0, hadd0, List.length_append], by rw [h1, hadd1, List.length_append], ?_⟩
  rw [BlockStream.absorb_append, ← h.stream, ← md5Append_stream (by rw [h.count0]; omega) hnil hdata,
    List.length_append, Nat.mod_add_mod]

theorem start_eq : (⟨0x67452301, tMask ^^^ 0x10325476, tMask ^^^ 0x67452301, 0x10325476⟩ : Regs) =
    Md5.start := by decide

theorem taken_init (pms : Md5State) : Taken (md5Init pms) [] :=
  ⟨rfl, rfl, Prod.ext start_eq rfl⟩

theorem taken_appends (pms : Md5State) {pieces : List (List Byte)}
    (hp : ∀ data ∈ pieces, data.length + 63 < 2 ^ 31) :
    Taken (pieces.foldl md5Append (md5Init pms)) pieces.flatten := by
  induction pieces using List.reverseRecOn with
  | nil => exact taken_init pms
  | append_singleton pieces data ih =>
    rw [List.foldl_append, List.flatten_append, List.flatten_singleton]
    exact (ih fun d hd => hp d (List.mem_append_left _ hd)).append (hp data (by simp))

/-- What `md5_finish` appends first fills the block up to 56 bytes. -/
theorem pad_take {n : Nat} :
    pad.take ((55 + 2 ^ 32 - 8 * n % 2 ^ 32 / 8) % 2 ^ 32 % 64 + 1) =
      0x80 :: List.replicate ((119 - n % 64) % 64) 0 := by
  have hk : (55 + 2 ^ 32 - 8 * n % 2 ^ 32 / 8) % 2 ^ 32 % 64 = (119 - n % 64) % 64 := by omega
  rw [hk, pad, List.take_succ_cons, List.take_replicate, Nat.min_eq_left (by omega)]

/-- **The digest of a file.** However a file is divided into pieces that leave room in an
`int`, `md5_append` and `md5_finish` give the MD5 digest of its bytes. -/
theorem md5Finish_digest (pms : Md5State) {pieces : List (List Byte)}
    (hp : ∀ data ∈ pieces, data.length + 63 < 2 ^ 31) :
    md5Finish (pieces.foldl md5Append (md5Init pms)) = Md5.digest pieces.flatten := by
  have h := taken_appends pms hp
  generalize pieces.foldl md5Append (md5Init pms) = pms at *
  generalize pieces.flatten = message at *
  have hdata : Md5.littleEndian 4 pms.count0 ++ Md5.littleEndian 4 pms.count1 =
      Md5.littleEndian 8 (8 * message.length) := by
    rw [h.count0, h.count1, Md5.littleEndian_mod (n := 8 * message.length / 2 ^ 32),
      ← Md5.littleEndian_eight]
  have hpad : (0x80 :: List.replicate ((119 - message.length % 64) % 64) (0 : Byte)).length + 63 <
      2 ^ 31 := by
    rw [List.length_cons, List.length_replicate]
    omega
  have hlen : (Md5.littleEndian 8 (8 * message.length)).length + 63 < 2 ^ 31 := by
    rw [Md5.littleEndian, List.length_map, List.length_range]
    decide
  have hall := ((h.append hpad).append hlen).stream
  rw [List.append_assoc, List.cons_append] at hall
  rw [md5Finish, hdata, h.count0, pad_take, Md5.digest, Md5.padding, ← hall]
  rfl

def unset : Md5State := ⟨0, 0, ⟨0, 0, 0, 0⟩, List.replicate 64 0, List.length_replicate⟩

/-- Three pieces of `abc`, with an empty one. -/
theorem md5Finish_digest_abc :
    md5Finish ([[0x61], [], [0x62, 0x63]].foldl md5Append (md5Init unset)) =
      Md5.digest [0x61, 0x62, 0x63] :=
  md5Finish_digest unset (by decide)

end OsLabs.Osp2p
