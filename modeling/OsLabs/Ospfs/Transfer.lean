import OsLabs.Lib.Chunks
import OsLabs.Ospfs.Volume
import Mathlib.Data.List.TakeWhile

/-!
# OSPFS: reading and writing

The copying loops of `ospfs_read` and `ospfs_write` move a file's bytes block
by block. Piece `k` of a transfer fails when `ospfs_inode_blockno` gives 0 at its
first position or when the copy fails. Each piece that does not fail advances
`*f_pos`, so the loop ends behind the last byte or where the first failing piece
begins.
-/

namespace OsLabs.Ospfs

open Chunks

variable {m m' : Mem} {oi count pos k p q fuel i : Nat} {out : Bytes}
  {copyToUser : Nat → Bool} {buffer : Nat → Option UInt8}

/-! ## Pieces -/

theorem chunk_eq (h : cut 1024 pos k < pos + count) :
    chunk count (reach 1024 pos count k - pos) (reach 1024 pos count k) =
      reach 1024 pos count (k + 1) - reach 1024 pos count k := by
  have hle : pos ≤ cut 1024 pos k := le_cut (by decide)
  have hnext : cut 1024 pos (k + 1) = 1024 * (cut 1024 pos k / 1024 + 1) := cut_succ (by decide)
  rw [reach_of_lt h]
  unfold chunk reach
  simp only [hnext]
  split <;> omega

theorem reach_lt_succ (h : cut 1024 pos k < pos + count) :
    reach 1024 pos count k < reach 1024 pos count (k + 1) := by
  have hnext : cut 1024 pos (k + 1) = 1024 * (cut 1024 pos k / 1024 + 1) := cut_succ (by decide)
  rw [reach_of_lt h]
  unfold reach
  omega

theorem same_block (count : Nat) (h : cut 1024 pos k ≤ p) (h' : p < reach 1024 pos count (k + 1)) :
    p / 1024 = cut 1024 pos k / 1024 :=
  div_of_mem_piece (by decide) h (Nat.lt_of_lt_of_le h' (Nat.min_le_left _ _))

theorem inodeBlockno_block (h : ospfsInodeBlockno m oi p ≠ 0) (hq : q < oiSize m oi)
    (hb : q / 1024 = p / 1024) : ospfsInodeBlockno m oi q = ospfsInodeBlockno m oi p := by
  have hp : ¬ (p ≥ oiSize m oi ∨ oiFtype m oi = ftypeSymlink) := by
    intro hp
    unfold ospfsInodeBlockno at h
    exact h (if_pos hp)
  unfold ospfsInodeBlockno
  rw [if_neg hp, if_neg (by rintro (hge | hty); omega; exact hp (.inr hty)), hb]

/-! ## `ospfs_read` -/

/-- The count of `ospfs_read` after its test against the size. -/
def readCount (m : Mem) (oi count fPos : Nat) : Nat :=
  if loffEnd count fPos > oiSize m oi then (((oiSize m oi : Int) - fPos) % 2 ^ 32).toNat else count

theorem ospfsRead_eq : ospfsRead m oi count pos copyToUser =
    readLoop m oi (readCount m oi count pos) copyToUser (readCount m oi count pos) 0 0 pos [] := rfl

/-- Piece `k` is due and cannot be read, or not be copied to the user. -/
def readFails (m : Mem) (oi count pos : Nat) (copyToUser : Nat → Bool) (k : Nat) : Prop :=
  cut 1024 pos k < pos + count ∧
    (ospfsInodeBlockno m oi (cut 1024 pos k % 2 ^ 32) = 0 ∨ copyToUser k = false)

/-- The bytes copied from position `pos` up to `q`; below the file's size they are the file's. -/
structure Delivered (m : Mem) (oi pos q : Nat) (out : Bytes) : Prop where
  length : pos + out.length = q
  byte : ∀ i (h : i < out.length), pos + i < oiSize m oi →
    ospfsInodeBlockno m oi (pos + i) ≠ 0 ∧ out[i] = m (ospfsInodeData m oi (pos + i))

/-- How the loop of a transfer can end. -/
def Ended (fails : Nat → Prop) (pos count : Nat) (t : Transfer) : Prop :=
  (t.ret = .ok count ∧ t.fPos = pos + count ∧ ∀ j, ¬ fails j) ∨
    ∃ e j, t.ret = .error e ∧ t.fPos = cut 1024 pos j ∧ FirstFailure fails j

theorem Delivered.step (h : Delivered m oi pos (reach 1024 pos count k) out)
    (hlt : cut 1024 pos k < pos + count)
    (h0 : ospfsInodeBlockno m oi (cut 1024 pos k % 2 ^ 32) ≠ 0) :
    Delivered m oi pos (reach 1024 pos count (k + 1))
      (out ++ m.load (ospfsBlock (ospfsInodeBlockno m oi (cut 1024 pos k % 2 ^ 32)) +
        cut 1024 pos k % 1024) (reach 1024 pos count (k + 1) - reach 1024 pos count k)) := by
  have hsize : oiSize m oi < 2 ^ 32 := Mem.get32_lt
  have hle : pos ≤ cut 1024 pos k := le_cut (by decide)
  have hlast := reach_lt_succ hlt
  have hlen := h.length
  rw [reach_of_lt hlt] at hlen hlast ⊢
  refine ⟨?_, fun i hi hin => ?_⟩
  · rw [List.length_append, Mem.length_load]
    omega
  rw [List.length_append, Mem.length_load] at hi
  rcases Nat.lt_or_ge i out.length with hold | hnew
  · rw [List.getElem_append_left hold]
    exact h.byte i hold hin
  · have hblock : (pos + i) / 1024 = cut 1024 pos k / 1024 :=
      same_block count (by omega) (by omega)
    have hmod : cut 1024 pos k % 2 ^ 32 = cut 1024 pos k := Nat.mod_eq_of_lt (by omega)
    rw [hmod] at h0
    have hno := inodeBlockno_block h0 hin hblock
    refine ⟨hno.trans_ne h0, ?_⟩
    rw [List.getElem_append_right hnew, Mem.getElem_load, hmod]
    unfold ospfsInodeData
    rw [hno]
    congr 1
    omega

theorem Ended.done {fails : Nat → Prop} (h : pos + count ≤ cut 1024 pos k)
    (hdue : ∀ j, fails j → cut 1024 pos j < pos + count) (hpast : ∀ j < k, ¬ fails j) :
    Ended fails pos count ⟨.ok count, pos + count, out⟩ := by
  refine .inl ⟨rfl, rfl, fun j hj => ?_⟩
  rcases Nat.lt_or_ge j k with hjk | hkj
  · exact hpast j hjk hj
  · have hmono : cut 1024 pos k ≤ cut 1024 pos j := (cut_strictMono (by decide)).monotone hkj
    have := hdue j hj
    omega

/-- **The loop of `ospfs_read`** from piece `k` on. -/
theorem readLoop_run (hfuel : pos + count ≤ reach 1024 pos count k + fuel)
    (hpast : ∀ j < k, ¬ readFails m oi count pos copyToUser j)
    (hout : Delivered m oi pos (reach 1024 pos count k) out) :
    ∃ t, readLoop m oi count copyToUser fuel k (reach 1024 pos count k - pos)
        (reach 1024 pos count k) out = some t ∧
      Ended (readFails m oi count pos copyToUser) pos count t ∧
      Delivered m oi pos t.fPos t.out := by
  induction fuel generalizing k out with
  | zero =>
    have hend : reach 1024 pos count k = pos + count := Nat.le_antisymm reach_le hfuel
    have hge : pos + count ≤ cut 1024 pos k := hend.symm.trans_le (Nat.min_le_left _ _)
    rw [hend] at hout ⊢
    refine ⟨_, ?_, .done hge (fun j hj => hj.1) hpast, hout⟩
    rw [Nat.add_sub_cancel_left, readLoop, if_neg (Nat.lt_irrefl count)]
  | succ fuel ih =>
    by_cases hlt : cut 1024 pos k < pos + count
    case neg =>
      have hend : reach 1024 pos count k = pos + count := Nat.min_eq_right (Nat.not_lt.1 hlt)
      rw [hend] at hout ⊢
      refine ⟨_, ?_, .done (Nat.not_lt.1 hlt) (fun j hj => hj.1) hpast, hout⟩
      rw [Nat.add_sub_cancel_left, readLoop, if_neg (Nat.lt_irrefl count)]
    have hle : pos ≤ cut 1024 pos k := le_cut (by decide)
    have hreach := reach_of_lt hlt
    have hmono := reach_lt_succ hlt
    rw [readLoop, if_pos (by omega)]
    by_cases h0 : ospfsInodeBlockno m oi (cut 1024 pos k % 2 ^ 32) = 0
    · refine ⟨⟨.error .eIo, cut 1024 pos k, out⟩, ?_,
        .inr ⟨_, k, rfl, rfl, ⟨hlt, .inl h0⟩, hpast⟩, ?_⟩
      · simp only [hreach, h0, if_true]
      · rwa [hreach] at hout
    by_cases hc : copyToUser k = false
    · refine ⟨⟨.error .eFault, cut 1024 pos k, out⟩, ?_,
        .inr ⟨_, k, rfl, rfl, ⟨hlt, .inr hc⟩, hpast⟩, ?_⟩
      · simp only [hreach, h0, hc, if_false, Bool.false_eq_true]
      · rwa [hreach] at hout
    have hpast' : ∀ j < k + 1, ¬ readFails m oi count pos copyToUser j := by
      intro j hj hf
      rcases Nat.lt_succ_iff_lt_or_eq.1 hj with hjk | rfl
      · exact hpast j hjk hf
      · exact hf.2.elim h0 hc
    obtain ⟨t, ht, hres⟩ := ih (by omega) hpast' (hout.step hlt h0)
    refine ⟨t, ?_, hres⟩
    have hamount : reach 1024 pos count k - pos +
        (reach 1024 pos count (k + 1) - reach 1024 pos count k) =
          reach 1024 pos count (k + 1) - pos := by omega
    have hnext : reach 1024 pos count k +
        (reach 1024 pos count (k + 1) - reach 1024 pos count k) =
          reach 1024 pos count (k + 1) := by omega
    rw [← ht, chunk_eq hlt]
    simp only [hamount, hnext, Bool.eq_true_of_not_eq_false hc, if_true]
    rw [hreach, if_neg h0]

theorem readLoop_start (m : Mem) (oi count pos : Nat) (copyToUser : Nat → Bool) :
    ∃ t, readLoop m oi count copyToUser count 0 0 pos [] = some t ∧
      Ended (readFails m oi count pos copyToUser) pos count t ∧
      Delivered m oi pos t.fPos t.out := by
  have hfuel : pos + count ≤ reach 1024 pos count 0 + count := by rw [reach_zero]
  have hpast : ∀ j < 0, ¬ readFails m oi count pos copyToUser j :=
    fun _ hj => absurd hj (Nat.not_lt_zero _)
  have hout : Delivered m oi pos (reach 1024 pos count 0) [] :=
    ⟨by rw [reach_zero]; rfl, fun _ hi => absurd hi (Nat.not_lt_zero _)⟩
  have hrun := readLoop_run hfuel hpast hout
  rwa [reach_zero, Nat.sub_self] at hrun

theorem ospfsRead_run (m : Mem) (oi count pos : Nat) (copyToUser : Nat → Bool) :
    ∃ t, ospfsRead m oi count pos copyToUser = some t ∧
      Ended (readFails m oi (readCount m oi count pos) pos copyToUser) pos
        (readCount m oi count pos) t ∧ Delivered m oi pos t.fPos t.out := by
  rw [ospfsRead_eq]
  exact readLoop_start m oi _ pos copyToUser

/-- When some piece fails, the position stays where it was iff the first piece fails. -/
theorem Ended.position_iff {fails : Nat → Prop} {t : Transfer} (h : Ended fails pos count t) :
    (∀ e, t.ret = .error e → t.fPos = pos) ↔ ∀ k, fails k → fails 0 := by
  rcases h with ⟨hret, -, hno⟩ | ⟨e, j, hret, hpos, hfirst⟩
  · refine iff_of_true (fun e he => ?_) fun k hk => absurd hk (hno k)
    rw [hret] at he
    cases he
  · constructor
    · intro h k hk
      have hj : j = 0 := (cut_eq_iff (by decide)).1 (hpos.symm.trans (h e hret))
      exact hj ▸ hfirst.1
    · intro h e' _
      rw [hpos, hfirst.eq_zero h, cut_zero]

theorem Ended.position_iff_cut {fails : Nat → Prop} {t : Transfer} (h : Ended fails pos count t)
    (q : Nat) : (∀ e, t.ret = .error e → t.fPos = q) ↔
      ∀ k, FirstFailure fails k → cut 1024 pos k = q := by
  rcases h with ⟨hret, -, hno⟩ | ⟨e, j, hret, hpos, hfirst⟩
  · refine iff_of_true (fun e he => ?_) fun k hk => absurd hk.1 (hno k)
    rw [hret] at he
    cases he
  · constructor
    · intro h k hk
      rw [hk.unique hfirst, ← hpos]
      exact h e hret
    · intro h e' _
      rw [hpos]
      exact h j hfirst

/-! ### What is read -/

def fileBytes (m : Mem) (oi pos n : Nat) : Bytes :=
  (List.range n).map fun i => m (ospfsInodeData m oi (pos + i))

def Mapped (m : Mem) (oi : Nat) : Prop :=
  ∀ b, 1024 * b < oiSize m oi → ospfsInodeBlockno m oi (1024 * b) ≠ 0

theorem Mapped.inodeBlockno (h : Mapped m oi) (hp : p < oiSize m oi) :
    ospfsInodeBlockno m oi p ≠ 0 := by
  have h0 := h (p / 1024) (by omega)
  rw [inodeBlockno_block h0 hp (by omega)]
  exact h0

theorem Delivered.eq_fileBytes (h : Delivered m oi pos q out) (hq : q ≤ oiSize m oi) :
    out = fileBytes m oi pos (q - pos) := by
  have hlen := h.length
  refine List.ext_getElem ?_ fun i hi hi' => ?_
  · unfold fileBytes
    rw [List.length_map, List.length_range]
    omega
  · unfold fileBytes at hi' ⊢
    rw [List.getElem_map, List.getElem_range]
    exact (h.byte i hi (by omega)).2

theorem Mapped.readLoop (h : Mapped m oi) (hin : pos + count ≤ oiSize m oi) :
    readLoop m oi count (fun _ => true) count 0 0 pos [] =
      some ⟨.ok count, pos + count, fileBytes m oi pos count⟩ := by
  have hno (k : Nat) : ¬ readFails m oi count pos (fun _ => true) k := by
    rintro ⟨hlt, h0 | hc⟩
    · have hsize : oiSize m oi < 2 ^ 32 := Mem.get32_lt
      rw [Nat.mod_eq_of_lt (by omega)] at h0
      exact h.inodeBlockno (by omega) h0
    · cases hc
  obtain ⟨⟨ret, fPos, out⟩, ht, hend, hout⟩ := readLoop_start m oi count pos fun _ => true
  rw [ht]
  rcases hend with ⟨hret, hpos, -⟩ | ⟨_, j, -, -, hfirst⟩
  · cases hret
    cases hpos
    have hbytes := Delivered.eq_fileBytes (q := pos + count) hout hin
    rw [Nat.add_sub_cancel_left] at hbytes
    exact congrArg (fun bs => some (Transfer.mk (.ok count) (pos + count) bs)) hbytes
  · exact absurd hfirst.1 (hno j)

theorem loffEnd_of_lt (h : count + pos < 2 ^ 63) : loffEnd count pos = (count + pos : Nat) := by
  unfold loffEnd
  rw [Int.bmod_def]
  split <;> omega

theorem loffEnd_neg (h : 2 ^ 63 ≤ count + pos) (h' : count + pos < 2 ^ 64) :
    loffEnd count pos < 0 := by
  unfold loffEnd
  rw [Int.bmod_def]
  split <;> omega

theorem readCount_of_le (hp : pos ≤ oiSize m oi) (hc : count < 2 ^ 32) :
    readCount m oi count pos = min count (oiSize m oi - pos) := by
  have hsize : oiSize m oi < 2 ^ 32 := Mem.get32_lt
  unfold readCount
  rw [loffEnd_of_lt (by omega)]
  split <;> omega

/-- The count from a position behind the end: 0 iff the difference is a multiple
of 2 ^ 32 and the sum does not overflow. -/
theorem readCount_eq_zero_iff (hp : oiSize m oi < pos) (hc : count < 2 ^ 32) (hpos : pos < 2 ^ 63) :
    readCount m oi count pos = 0 ↔ 2 ^ 32 ∣ pos - oiSize m oi ∧ count + pos < 2 ^ 63 := by
  unfold readCount
  rcases Nat.lt_or_ge (count + pos) (2 ^ 63) with hlt | hge
  · rw [loffEnd_of_lt hlt, if_pos (by omega)]
    omega
  · have hneg := loffEnd_neg hge (by omega)
    rw [if_neg (by omega)]
    omega

/-- **Reading a mapped file** gives its bytes from the position on, iff the
position is not behind the end, or is a multiple of 2 ^ 32 behind it. -/
theorem ospfsRead_content_iff (hmap : Mapped m oi) (hc : count < 2 ^ 32) (hpos : pos < 2 ^ 63) :
    ospfsRead m oi count pos (fun _ => true) =
        some ⟨.ok (min count (oiSize m oi - pos)), pos + min count (oiSize m oi - pos),
          fileBytes m oi pos (min count (oiSize m oi - pos))⟩ ↔
      pos ≤ oiSize m oi ∨ (2 ^ 32 ∣ pos - oiSize m oi ∧ count + pos < 2 ^ 63) := by
  rcases Nat.lt_or_ge (oiSize m oi) pos with hgt | hle
  · have hmin : min count (oiSize m oi - pos) = 0 := by omega
    rw [hmin]
    obtain ⟨t, ht, hend, hout⟩ := ospfsRead_run m oi count pos (fun _ => true)
    rw [← readCount_eq_zero_iff hgt hc hpos, or_iff_right (by omega), ht]
    constructor
    · intro heq
      have hret₀ : t.ret = .ok 0 := congrArg Transfer.ret (Option.some.inj heq)
      rcases hend with ⟨hret, -⟩ | ⟨_, _, hret, -⟩
      · exact Except.ok.inj (hret.symm.trans hret₀)
      · rw [hret] at hret₀
        cases hret₀
    · intro h0
      rw [ospfsRead_eq, h0, Ospfs.readLoop, if_neg (Nat.lt_irrefl 0)] at ht
      exact ht.symm
  · rw [ospfsRead_eq, readCount_of_le hle hc]
    exact iff_of_true (hmap.readLoop (by omega)) (.inl hle)

/-- The last bytes of a file of one block. -/
theorem sampleDisk_read_end :
    Mapped (Volume.sampleDisk 1 0) 3136 ∧ ospfsRead (Volume.sampleDisk 1 0) 3136 10 1020
      (fun _ => true) = some ⟨.ok 4, 1024, fileBytes (Volume.sampleDisk 1 0) 3136 1020 4⟩ := by
  have hsize : oiSize (Volume.sampleDisk 1 0) 3136 = 1024 := by decide +kernel
  have hmap : Mapped (Volume.sampleDisk 1 0) 3136 := by
    intro b hb
    obtain rfl : b = 0 := by omega
    decide +kernel
  refine ⟨hmap, ?_⟩
  have hread := (ospfsRead_content_iff hmap (show 10 < 2 ^ 32 by decide)
    (show 1020 < 2 ^ 63 by decide)).2 (.inl (by omega))
  rw [hsize] at hread
  exact hread

/-- A read of one byte, one byte behind the end of the file: not 0 is returned, but an error. -/
theorem sampleDisk_read_behind : Mapped (Volume.sampleDisk 1 0) 3136 ∧
    oiSize (Volume.sampleDisk 1 0) 3136 = 1024 ∧
    ospfsRead (Volume.sampleDisk 1 0) 3136 1 1025 (fun _ => true) =
      some ⟨.error .eIo, 1025, []⟩ := by
  have hsize : oiSize (Volume.sampleDisk 1 0) 3136 = 1024 := by decide +kernel
  refine ⟨fun b hb => ?_, hsize, by decide +kernel⟩
  obtain rfl : b = 0 := by omega
  decide +kernel

/-! ## `ospfs_write` -/

theorem length_copyFromUser (n : Nat) : (copyFromUser buffer k n).1.length = n := by
  have hle : (((List.range n).map fun i => buffer (k + i)).takeWhile Option.isSome).length ≤ n := by
    have := (List.takeWhile_sublist (l := (List.range n).map fun i => buffer (k + i))
      Option.isSome).length_le
    rwa [List.length_map, List.length_range] at this
  unfold copyFromUser
  simp only [List.length_append, List.length_map, List.length_replicate]
  omega

theorem copyFromUser_of_readable {n : Nat} (h : ∀ i < n, (buffer (k + i)).isSome) :
    copyFromUser buffer k n = ((List.range n).map fun i => (buffer (k + i)).getD 0, true) := by
  have hall : ((List.range n).map fun i => buffer (k + i)).takeWhile Option.isSome =
      (List.range n).map fun i => buffer (k + i) := by
    rw [List.takeWhile_eq_self_iff]
    intro b hb
    obtain ⟨i, hi, rfl⟩ := List.mem_map.1 hb
    exact h i (List.mem_range.1 hi)
  unfold copyFromUser
  rw [hall]
  simp only [List.length_map, List.length_range, Nat.sub_self, List.replicate_zero,
    List.append_nil, List.map_map, beq_self_eq_true]
  rfl

/-- The disk when the first `k` pieces have been stored. -/
def written (m : Mem) (oi count pos : Nat) (buffer : Nat → Option UInt8) : Nat → Mem
  | 0 => m
  | k + 1 =>
    let w := written m oi count pos buffer k
    w.store (ospfsBlock (ospfsInodeBlockno w oi (cut 1024 pos k % 2 ^ 32)) + cut 1024 pos k % 1024)
      (copyFromUser buffer (reach 1024 pos count k - pos)
        (reach 1024 pos count (k + 1) - reach 1024 pos count k)).1

/-- Piece `k` is due, and there is no block for it or the user's buffer cannot be read. -/
def writeFails (m : Mem) (oi count pos : Nat) (buffer : Nat → Option UInt8) (k : Nat) : Prop :=
  cut 1024 pos k < pos + count ∧
    (ospfsInodeBlockno (written m oi count pos buffer k) oi (cut 1024 pos k % 2 ^ 32) = 0 ∨
      (copyFromUser buffer (reach 1024 pos count k - pos)
        (reach 1024 pos count (k + 1) - reach 1024 pos count k)).2 = false)

/-- The first `k` pieces were due and had a block. -/
def Stored (m : Mem) (oi count pos : Nat) (buffer : Nat → Option UInt8) (k : Nat) : Prop :=
  ∀ j < k, cut 1024 pos j < pos + count ∧
    ospfsInodeBlockno (written m oi count pos buffer j) oi (cut 1024 pos j % 2 ^ 32) ≠ 0

theorem Stored.succ (h : Stored m oi count pos buffer k) (hlt : cut 1024 pos k < pos + count)
    (h0 : ospfsInodeBlockno (written m oi count pos buffer k) oi (cut 1024 pos k % 2 ^ 32) ≠ 0) :
    Stored m oi count pos buffer (k + 1) := by
  intro j hj
  rcases Nat.lt_succ_iff_lt_or_eq.1 hj with hjk | rfl
  · exact h j hjk
  · exact ⟨hlt, h0⟩

/-- **The loop of `ospfs_write`** from piece `k` on. -/
theorem writeLoop_run (hfuel : pos + count ≤ reach 1024 pos count k + fuel)
    (hpast : ∀ j < k, ¬ writeFails m oi count pos buffer j)
    (hk : Stored m oi count pos buffer k) :
    ∃ t j, writeLoop oi count buffer fuel (reach 1024 pos count k - pos)
        (reach 1024 pos count k) (written m oi count pos buffer k) =
          some (t, written m oi count pos buffer j) ∧
      Ended (writeFails m oi count pos buffer) pos count t ∧ t.out = [] ∧
      Stored m oi count pos buffer j ∧ (t.ret = .ok count → pos + count ≤ cut 1024 pos j) := by
  induction fuel generalizing k with
  | zero =>
    have hend : reach 1024 pos count k = pos + count := Nat.le_antisymm reach_le hfuel
    have hge : pos + count ≤ cut 1024 pos k := hend.symm.trans_le (Nat.min_le_left _ _)
    refine ⟨⟨.ok count, pos + count, []⟩, k, ?_, .done hge (fun j hj => hj.1) hpast, rfl, hk,
      fun _ => hge⟩
    rw [hend, Nat.add_sub_cancel_left, writeLoop, if_neg (Nat.lt_irrefl count)]
  | succ fuel ih =>
    by_cases hlt : cut 1024 pos k < pos + count
    case neg =>
      have hge : pos + count ≤ cut 1024 pos k := Nat.not_lt.1 hlt
      have hend : reach 1024 pos count k = pos + count := Nat.min_eq_right hge
      refine ⟨⟨.ok count, pos + count, []⟩, k, ?_, .done hge (fun j hj => hj.1) hpast, rfl, hk,
        fun _ => hge⟩
      rw [hend, Nat.add_sub_cancel_left, writeLoop, if_neg (Nat.lt_irrefl count)]
    have hle : pos ≤ cut 1024 pos k := le_cut (by decide)
    have hreach := reach_of_lt hlt
    have hmono := reach_lt_succ hlt
    rw [writeLoop, if_pos (by omega)]
    by_cases h0 : ospfsInodeBlockno (written m oi count pos buffer k) oi
        (cut 1024 pos k % 2 ^ 32) = 0
    · refine ⟨⟨.error .eIo, cut 1024 pos k, []⟩, k, ?_,
        .inr ⟨_, k, rfl, rfl, ⟨hlt, .inl h0⟩, hpast⟩, rfl, hk, fun he => by cases he⟩
      simp only [hreach, h0, if_true]
    rw [chunk_eq hlt]
    by_cases hc : (copyFromUser buffer (reach 1024 pos count k - pos)
        (reach 1024 pos count (k + 1) - reach 1024 pos count k)).2 = false
    · refine ⟨⟨.error .eFault, cut 1024 pos k, []⟩, k + 1, ?_,
        .inr ⟨_, k, rfl, rfl, ⟨hlt, .inr hc⟩, hpast⟩, rfl, hk.succ hlt h0, fun he => by cases he⟩
      simp only [hc, if_false, Bool.false_eq_true, written]
      rw [← hreach] at h0 ⊢
      rw [if_neg h0]
    have hpast' : ∀ j < k + 1, ¬ writeFails m oi count pos buffer j := by
      intro j hj hf
      rcases Nat.lt_succ_iff_lt_or_eq.1 hj with hjk | rfl
      · exact hpast j hjk hf
      · exact hf.2.elim h0 hc
    obtain ⟨t, j, ht, hres⟩ := ih (by omega) hpast' (hk.succ hlt h0)
    refine ⟨t, j, ?_, hres⟩
    have hamount : reach 1024 pos count k - pos +
        (reach 1024 pos count (k + 1) - reach 1024 pos count k) =
          reach 1024 pos count (k + 1) - pos := by omega
    have hnext : reach 1024 pos count k +
        (reach 1024 pos count (k + 1) - reach 1024 pos count k) =
          reach 1024 pos count (k + 1) := by omega
    rw [← ht]
    simp only [hamount, hnext, Bool.eq_true_of_not_eq_false hc, if_true]
    rw [← hreach] at h0
    rw [if_neg h0]
    simp only [written, hreach]

/-- `ospfs_write` up to its loop: the file is given the size it needs. -/
def makeRoom (m : Mem) (oi count pos : Nat) : Option (Ret × Mem) :=
  if loffEnd count pos > oiSize m oi then changeSize m oi ((count + pos) % 2 ^ 32)
  else some (.ok (), m)

def writeStart (m : Mem) (oi : Nat) (append : Bool) (pos : Nat) : Nat :=
  if append then oiSize m oi else pos

theorem ospfsWrite_eq {append : Bool} : ospfsWrite m oi append buffer count pos =
    (makeRoom m oi count (writeStart m oi append pos)).bind fun (r, m₁) =>
      match r with
      | .error e => some (⟨.error e, writeStart m oi append pos, []⟩, m₁)
      | .ok () => writeLoop oi count buffer count 0 (writeStart m oi append pos) m₁ := by
  unfold ospfsWrite makeRoom
  generalize hs : writeStart m oi append pos = start
  unfold writeStart at hs
  simp only [hs]
  generalize (count + start) % 2 ^ 32 = newSize
  split
  · rcases changeSize m oi newSize with _ | ⟨_ | u, m₁⟩ <;> rfl
  · rfl

theorem writeLoop_start (m : Mem) (oi count pos : Nat) (buffer : Nat → Option UInt8) :
    ∃ t j, writeLoop oi count buffer count 0 pos m = some (t, written m oi count pos buffer j) ∧
      Ended (writeFails m oi count pos buffer) pos count t ∧ t.out = [] ∧
      Stored m oi count pos buffer j ∧ (t.ret = .ok count → pos + count ≤ cut 1024 pos j) := by
  have hfuel : pos + count ≤ reach 1024 pos count 0 + count := by rw [reach_zero]
  have hpast : ∀ j < 0, ¬ writeFails m oi count pos buffer j :=
    fun _ hj => absurd hj (Nat.not_lt_zero _)
  have hstored : Stored m oi count pos buffer 0 := fun _ hj => absurd hj (Nat.not_lt_zero _)
  have hrun := writeLoop_run hfuel hpast hstored
  rwa [reach_zero, Nat.sub_self] at hrun

theorem ospfsWrite_position_iff {append : Bool} (q : Nat) :
    (∀ t m' e, ospfsWrite m oi append buffer count pos = some (t, m') → t.ret = .error e →
      t.fPos = q) ↔
    (∀ e m₁, makeRoom m oi count (writeStart m oi append pos) = some (.error e, m₁) →
      writeStart m oi append pos = q) ∧
    ∀ m₁, makeRoom m oi count (writeStart m oi append pos) = some (.ok (), m₁) →
      ∀ k, FirstFailure (writeFails m₁ oi count (writeStart m oi append pos) buffer) k →
        cut 1024 (writeStart m oi append pos) k = q := by
  rw [ospfsWrite_eq]
  generalize writeStart m oi append pos = start
  rcases makeRoom m oi count start with _ | ⟨_ | u, m₁⟩
  · refine iff_of_true (fun _ _ _ h => by cases h) ⟨fun _ _ h => ?_, fun _ h => ?_⟩
    · cases h
    · cases h
  · rename_i e
    constructor
    · intro h
      refine ⟨fun _ _ he => ?_, fun _ he => ?_⟩
      · cases he
        exact h _ _ _ rfl rfl
      · cases he
    · rintro ⟨h, -⟩ t m' e' ht -
      cases ht
      exact h _ _ rfl
  · obtain ⟨t, j, ht, hend, -⟩ := writeLoop_start m₁ oi count start buffer
    have hiff := hend.position_iff_cut q
    simp only [Option.bind_some, ht]
    constructor
    · intro h
      refine ⟨fun _ _ he => ?_, fun m₂ hm => ?_⟩
      · cases he
      · cases hm
        exact hiff.1 fun e => h t _ e rfl
    · rintro ⟨-, h⟩ t' m' e ht' hret
      cases ht'
      exact hiff.2 (h m₁ rfl) e hret

/-- **A failed transfer leaves the position alone** iff no piece fails behind one
that was moved: when any piece fails, the first does. With `O_APPEND` the
position is set before anything can fail, so the piece that fails must begin at
the position of the call. -/
theorem position_kept_iff (m : Mem) (oi count pos : Nat) (copyToUser : Nat → Bool)
    (buffer : Nat → Option UInt8) :
    ((∀ t e, ospfsRead m oi count pos copyToUser = some t → t.ret = .error e → t.fPos = pos) ↔
      ∀ k, readFails m oi (readCount m oi count pos) pos copyToUser k →
        readFails m oi (readCount m oi count pos) pos copyToUser 0) ∧
    ((∀ t m' e, ospfsWrite m oi false buffer count pos = some (t, m') → t.ret = .error e →
        t.fPos = pos) ↔
      ∀ m₁, makeRoom m oi count pos = some (.ok (), m₁) →
        ∀ k, writeFails m₁ oi count pos buffer k → writeFails m₁ oi count pos buffer 0) ∧
    ((∀ t m' e, ospfsWrite m oi true buffer count pos = some (t, m') → t.ret = .error e →
        t.fPos = pos) ↔
      (∀ e m₁, makeRoom m oi count (oiSize m oi) = some (.error e, m₁) → oiSize m oi = pos) ∧
      ∀ m₁, makeRoom m oi count (oiSize m oi) = some (.ok (), m₁) →
        ∀ k, FirstFailure (writeFails m₁ oi count (oiSize m oi) buffer) k →
          cut 1024 (oiSize m oi) k = pos) := by
  refine ⟨?_, ?_, ospfsWrite_position_iff pos⟩
  · obtain ⟨t, ht, hend, -⟩ := ospfsRead_run m oi count pos copyToUser
    rw [ht, ← hend.position_iff]
    exact ⟨fun h e => h t e rfl, fun h t' e ht' => by cases ht'; exact h e⟩
  · rw [ospfsWrite_position_iff pos]
    constructor
    · rintro ⟨-, h⟩ m₁ hm k hk
      obtain ⟨j, hj⟩ := exists_firstFailure hk
      have h0 : j = 0 := (cut_eq_iff (by decide)).1 (h m₁ hm j hj)
      exact h0 ▸ hj.1
    · intro h
      refine ⟨fun _ _ _ => rfl, fun m₁ hm k hk => ?_⟩
      rw [hk.eq_zero (h m₁ hm)]
      rfl

/-- A file of two blocks: the second block of a read cannot be copied, the second
block of a write cannot be read from the user. Both calls fail and leave the
position behind the first block. -/
theorem sampleDisk_position_moved :
    (ospfsRead (Volume.sampleDisk 2 0) 3136 2048 0 (fun i => i == 0)).map
        (fun t => (t.ret, t.fPos)) = some (.error .eFault, 1024) ∧
    (ospfsWrite (Volume.sampleDisk 2 0) 3136 false (fun i => if i < 1024 then some 7 else none)
        2048 0).map (fun r => (r.1.ret, r.1.fPos)) = some (.error .eFault, 1024) := by
  constructor <;> decide +kernel

end OsLabs.Ospfs
