import OsLabs.Lib.CInt
import OsLabs.Lib.FreeSet
import OsLabs.Ospfs.Bitmap

/-!
# OSPFS: the block allocator

`allocate_block` and `free_block` on any free map are the operations `take` and
`give` of `FreeSet` on the block numbers whose bits are set. The bit vectors have an `int` for an
index: `Signed` has the functions with that index, which are those of `Ospfs.Module` as long as
the numbers stay below 2^31. Behind that a number is negative, and its bit is in front of the map.
-/

namespace OsLabs.Ospfs

open FreeSet

/-- The numbers that `allocate_block` looks at on a disk of `nblocks` blocks. -/
def allocatable (nblocks b : Nat) : Bool := decide (2 ≤ b ∧ b < nblocks)

def freeSet (m : Mem) : Finset Nat :=
  (Finset.range (osNblocks m)).filter fun b => 2 ≤ b ∧ isFree m b = true

/-! ## The index is an `int` -/

namespace Signed

section Bitvector

variable (m : Mem) (vector : Nat) (i : Int)

/-- The address of `((uint32_t *) vector) [i / 32]`. -/
def wordAddr : Nat := ((vector + 4 * i.tdiv 32) % 2 ^ 32).toNat

/-- `1 << (i % 32)`; a shift counts modulo 32. -/
def mask : Nat := 1 <<< (i.tmod 32 % 32).toNat

def bitvectorSet : Mem := m.set32 (wordAddr vector i) (m.get32 (wordAddr vector i) ||| mask i)

def bitvectorClear : Mem :=
  m.set32 (wordAddr vector i) (m.get32 (wordAddr vector i) &&& (2 ^ 32 - 1 - mask i))

def bitvectorTest : Bool := m.get32 (wordAddr vector i) &&& mask i != 0

end Bitvector

/-- The loop of `allocate_block`; `i` is compared, and returned, as a `uint32_t`. -/
def allocateFrom (m : Mem) : (k i : Nat) → Nat × Mem
  | 0, _ => (0, m)
  | k + 1, i =>
    if bitvectorTest m (ospfsBlock 2) (CInt.wrap i) then
      (i, bitvectorClear m (ospfsBlock 2) (CInt.wrap i))
    else allocateFrom m k (i + 1)

def allocateBlock (m : Mem) : Nat × Mem := allocateFrom m (osNblocks m - 2) 2

def freeBlock (m : Mem) (blockno : Nat) : Mem :=
  if blockno < osFirstinob m then m
  else if bitvectorTest m (ospfsBlock 2) (CInt.wrap blockno) then m
  else bitvectorSet m (ospfsBlock 2) (CInt.wrap blockno)

variable {m : Mem} {i k b : Nat}

theorem wordAddr_eq (h : i < 2 ^ 31) :
    wordAddr (ospfsBlock 2) (CInt.wrap i) = 2048 + 4 * (i / 32) := by
  have h2 : ospfsBlock 2 = 2048 := by decide
  rw [CInt.wrap_natCast h, wordAddr, h2, Int.tdiv_eq_ediv_of_nonneg (Int.natCast_nonneg i)]
  omega

theorem mask_eq (h : i < 2 ^ 31) : mask (CInt.wrap i) = 1 <<< (i % 32) := by
  rw [CInt.wrap_natCast h, mask, Int.tmod_eq_emod_of_nonneg (Int.natCast_nonneg i)]
  congr 1
  omega

theorem bitvectorTest_eq (h : i < 2 ^ 31) :
    bitvectorTest m (ospfsBlock 2) (CInt.wrap i) = isFree m i := by
  rw [bitvectorTest, wordAddr_eq h, mask_eq h]
  rfl

theorem bitvectorSet_eq (h : i < 2 ^ 31) :
    bitvectorSet m (ospfsBlock 2) (CInt.wrap i) = Ospfs.bitvectorSet m 2048 i := by
  rw [bitvectorSet, wordAddr_eq h, mask_eq h]
  rfl

theorem bitvectorClear_eq (h : i < 2 ^ 31) :
    bitvectorClear m (ospfsBlock 2) (CInt.wrap i) = Ospfs.bitvectorClear m 2048 i := by
  rw [bitvectorClear, wordAddr_eq h, mask_eq h]
  rfl

theorem allocateFrom_eq (h : i + k ≤ 2 ^ 31) : allocateFrom m k i = Ospfs.allocateFrom m k i := by
  induction k generalizing i with
  | zero => rfl
  | succ k ih =>
    have hi : i < 2 ^ 31 := by omega
    rw [allocateFrom, bitvectorTest_eq hi, bitvectorClear_eq hi, ih (by omega)]
    rfl

/-- **On a disk of at most 2^31 blocks** the allocator is the one of `Ospfs.Module`. -/
theorem allocateBlock_eq (h : osNblocks m ≤ 2 ^ 31) : allocateBlock m = Ospfs.allocateBlock m := by
  have hlen : osNblocks m - 2 = 0 ∨ 2 + (osNblocks m - 2) ≤ 2 ^ 31 := by omega
  unfold allocateBlock Ospfs.allocateBlock
  rcases hlen with h0 | hle
  · rw [h0]
    rfl
  · exact allocateFrom_eq hle

theorem freeBlock_eq (h : b < 2 ^ 31) : freeBlock m b = Ospfs.freeBlock m b := by
  rw [freeBlock, bitvectorTest_eq h, bitvectorSet_eq h]
  rfl

end Signed

/-! ## Runs -/

/-- A call of the allocator: its result as an event, and the disk. -/
def blockOp (m : Mem) : FreeSet.Op Nat → Event Nat × Mem
  | .take =>
    let (b, m) := Signed.allocateBlock m
    (if b = 0 then .full else .taken b, m)
  | .give b => (.given b, Signed.freeBlock m b)

def blockOps (m : Mem) : List (FreeSet.Op Nat) → List (Event Nat) × Mem
  | [] => ([], m)
  | op :: ops =>
    let (e, m) := blockOp m op
    let (es, m) := blockOps m ops
    (e :: es, m)

variable {m : Mem} {b c : Nat} {op : FreeSet.Op Nat} {ops : List (FreeSet.Op Nat)}

theorem mem_freeSet : b ∈ freeSet m ↔ 2 ≤ b ∧ b < osNblocks m ∧ isFree m b = true := by
  unfold freeSet
  rw [Finset.mem_filter, Finset.mem_range]
  exact and_left_comm

theorem super_clear (i : Nat) {a : Nat} (ha : a ≤ 1036) :
    (bitvectorClear m 2048 i).get32 a = m.get32 a := by
  unfold bitvectorClear
  exact Mem.get32_set32_ne (by omega)

theorem super_set (i : Nat) {a : Nat} (ha : a ≤ 1036) :
    (bitvectorSet m 2048 i).get32 a = m.get32 a := by
  unfold bitvectorSet
  exact Mem.get32_set32_ne (by omega)

theorem allocateBlock_cases (m : Mem) :
    (freeSet m = ∅ ∧ allocateBlock m = (0, m)) ∨
      ∃ b ∈ freeSet m, (∀ c ∈ freeSet m, b ≤ c) ∧
        allocateBlock m = (b, bitvectorClear m 2048 b) := by
  obtain ⟨he, hno⟩ | ⟨b, h2, hlt, hf, hmin, he⟩ := allocateFrom_spec m (osNblocks m - 2) 2
  · refine .inl ⟨Finset.eq_empty_of_forall_notMem fun c hc => ?_, he⟩
    rw [mem_freeSet] at hc
    rw [hno c hc.1 (by omega)] at hc
    exact Bool.false_ne_true hc.2.2
  · refine .inr ⟨b, mem_freeSet.2 ⟨h2, by omega, hf⟩, fun c hc => ?_, he⟩
    rw [mem_freeSet] at hc
    by_contra hcb
    rw [hmin c hc.1 (by omega)] at hc
    exact Bool.false_ne_true hc.2.2

theorem blockOp_cases (m : Mem) (op : FreeSet.Op Nat) (hsize : osNblocks m ≤ 2 ^ 31)
    (hop : ∀ b, op = .give b → osFirstinob m ≤ b ∧ b < osNblocks m) :
    (∃ b ∈ freeSet m, (∀ c ∈ freeSet m, b ≤ c) ∧ op = .take ∧
      blockOp m op = (.taken b, bitvectorClear m 2048 b)) ∨
    (freeSet m = ∅ ∧ op = .take ∧ blockOp m op = (.full, m)) ∨
    ∃ b, op = .give b ∧ (blockOp m op).1 = .given b ∧
      (∀ c, isFree (blockOp m op).2 c = (isFree m c || decide (b = c))) ∧
      ∀ a ≤ 1036, (blockOp m op).2.get32 a = m.get32 a := by
  cases op with
  | take =>
    obtain ⟨hno, he⟩ | ⟨b, hb, hmin, he⟩ := allocateBlock_cases m
    · refine .inr (.inl ⟨hno, rfl, ?_⟩)
      unfold blockOp
      rw [Signed.allocateBlock_eq hsize, he]
      rfl
    · refine .inl ⟨b, hb, hmin, rfl, ?_⟩
      have hne : b ≠ 0 := by
        have := (mem_freeSet.1 hb).1
        omega
      unfold blockOp
      rw [Signed.allocateBlock_eq hsize, he]
      simp only [hne, if_false]
  | give b =>
    obtain ⟨hge, hlt⟩ := hop b rfl
    have he : Signed.freeBlock m b = if isFree m b then m else bitvectorSet m 2048 b := by
      rw [Signed.freeBlock_eq (Nat.lt_of_lt_of_le hlt hsize)]
      exact if_neg (Nat.not_lt.2 hge)
    refine .inr (.inr ⟨b, rfl, rfl, fun c => ?_, fun a ha => ?_⟩)
    · show isFree (Signed.freeBlock m b) c = _
      rw [he]
      split
      · rename_i hf
        by_cases hbc : b = c
        · subst hbc
          simp [hf]
        · simp [hbc]
      · exact isFree_set m b c
    · show (Signed.freeBlock m b).get32 a = _
      rw [he]
      split
      · rfl
      · exact super_set b ha

/-- A call of the allocator is an operation on the set. -/
theorem blockOp_step (m : Mem) (op : FreeSet.Op Nat) (hsize : osNblocks m ≤ 2 ^ 31)
    (hop : ∀ b, op = .give b → osFirstinob m ≤ b ∧ b < osNblocks m) :
    (blockOp m op).1 = (step (allocatable (osNblocks m)) (freeSet m) op).1 ∧
      freeSet (blockOp m op).2 = (step (allocatable (osNblocks m)) (freeSet m) op).2 ∧
      (∀ c, allocatable (osNblocks m) c = false → op ≠ .give c →
        isFree (blockOp m op).2 c = isFree m c) ∧
      osNblocks (blockOp m op).2 = osNblocks m ∧ osFirstinob (blockOp m op).2 = osFirstinob m := by
  obtain ⟨b, hb, hmin, rfl, he⟩ | ⟨hno, rfl, he⟩ | ⟨b, rfl, he, hbits, hsup⟩ :=
    blockOp_cases m op hsize hop
  · have hn : osNblocks (bitvectorClear m 2048 b) = osNblocks m := super_clear b (by decide)
    have hstep : step (allocatable (osNblocks m)) (freeSet m) .take =
        (.taken b, (freeSet m).erase b) := take_least hb hmin
    rw [he, hstep]
    refine ⟨rfl, ?_, fun c hc _ => ?_, hn, super_clear b (by decide)⟩
    · ext c
      rw [mem_freeSet, Finset.mem_erase, mem_freeSet, hn, isFree_clear, Bool.and_eq_true,
        decide_eq_true_eq]
      tauto
    · have hne : b ≠ c := by
        rintro rfl
        have := mem_freeSet.1 hb
        simp [allocatable, this.1, this.2.1] at hc
      rw [isFree_clear]
      simp [hne]
  · have hstep : step (allocatable (osNblocks m)) (freeSet m) .take = (.full, freeSet m) := by
      show take (freeSet m) = _
      rw [hno]
      exact take_empty
    rw [he, hstep]
    exact ⟨rfl, rfl, fun _ _ _ => rfl, rfl, rfl⟩
  · have hn : osNblocks (blockOp m (.give b)).2 = osNblocks m := hsup 1028 (by decide)
    refine ⟨he, ?_, fun c _ hc => ?_, hn, hsup 1036 (by decide)⟩
    · ext c
      show c ∈ freeSet _ ↔ c ∈ ite _ _ _
      rw [mem_freeSet, hn, hbits, Bool.or_eq_true, decide_eq_true_eq]
      unfold allocatable
      split
      · rename_i hu
        rw [decide_eq_true_eq] at hu
        rw [Finset.mem_insert, mem_freeSet]
        constructor
        · rintro ⟨h2, hlt, hf | rfl⟩
          · exact .inr ⟨h2, hlt, hf⟩
          · exact .inl rfl
        · rintro (rfl | ⟨h2, hlt, hf⟩)
          · exact ⟨hu.1, hu.2, .inr rfl⟩
          · exact ⟨h2, hlt, .inl hf⟩
      · rename_i hu
        rw [decide_eq_true_eq] at hu
        rw [mem_freeSet]
        constructor
        · rintro ⟨h2, hlt, hf | rfl⟩
          · exact ⟨h2, hlt, hf⟩
          · exact absurd ⟨h2, hlt⟩ hu
        · rintro ⟨h2, hlt, hf⟩
          exact ⟨h2, hlt, .inl hf⟩
    · have hne : b ≠ c := fun hbc => hc (by rw [hbc])
      rw [hbits]
      simp [hne]

theorem blockOps_run (ops : List (FreeSet.Op Nat)) (m : Mem) (hsize : osNblocks m ≤ 2 ^ 31)
    (hops : ∀ b, .give b ∈ ops → osFirstinob m ≤ b ∧ b < osNblocks m) :
    (blockOps m ops).1 = (run (allocatable (osNblocks m)) (freeSet m) ops).1 ∧
      freeSet (blockOps m ops).2 = (run (allocatable (osNblocks m)) (freeSet m) ops).2 ∧
      ∀ c, allocatable (osNblocks m) c = false → .give c ∉ ops →
        isFree (blockOps m ops).2 c = isFree m c := by
  induction ops generalizing m with
  | nil => exact ⟨rfl, rfl, fun _ _ _ => rfl⟩
  | cons op ops ih =>
    obtain ⟨he, hset, hbits, hn, hfirst⟩ :=
      blockOp_step m op hsize fun b hb => hops b (hb ▸ List.mem_cons_self)
    obtain ⟨hes, hsets, hrest⟩ := ih (blockOp m op).2 (hn ▸ hsize) fun b hb => by
      rw [hfirst, hn]
      exact hops b (List.mem_cons_of_mem _ hb)
    rw [hn] at hes hsets hrest
    rw [hset] at hes hsets
    refine ⟨?_, hsets, fun c hc hno => ?_⟩
    · simp only [blockOps, run, he, hes]
    · rw [List.mem_cons, not_or] at hno
      exact (hrest c hc hno.2).trans (hbits c hc (Ne.symm hno.1))

/-- **The block allocator is a set** on a disk of at most 2^31 blocks, over any run of
allocations and of releases of numbers in os_firstinob..os_nblocks-1: the least free number is
handed out, no bit but those of the set's changes are written, and no number is handed out twice
without a release in between. -/
theorem allocator_is_set (m : Mem) (ops : List (FreeSet.Op Nat)) (hsize : osNblocks m ≤ 2 ^ 31)
    (hops : ∀ b, .give b ∈ ops → osFirstinob m ≤ b ∧ b < osNblocks m) :
    (blockOps m ops).1 = (run (allocatable (osNblocks m)) (freeSet m) ops).1 ∧
      freeSet (blockOps m ops).2 = (run (allocatable (osNblocks m)) (freeSet m) ops).2 ∧
      (∀ c, allocatable (osNblocks m) c = false → .give c ∉ ops →
        isFree (blockOps m ops).2 c = isFree m c) ∧
      ∀ before b between after,
        (blockOps m ops).1 = before ++ .taken b :: between ++ .taken b :: after →
          .given b ∈ between := by
  obtain ⟨hes, hset, hbits⟩ := blockOps_run ops m hsize hops
  refine ⟨hes, hset, hbits, fun before b between after heq => ?_⟩
  rw [hes] at heq
  exact taken_once heq

/-- A disk of 40 blocks whose blocks 33 and 35 are free. -/
def twoFree : Mem := ((Mem.set32 (fun _ => 0) 1028 40).set32 1036 3).set32 2052 10

theorem twoFree_allocator : osNblocks twoFree ≤ 2 ^ 31 ∧
    (∀ b, .give b ∈ [Op.take, .give 33, .take, .take, .take] →
      osFirstinob twoFree ≤ b ∧ b < osNblocks twoFree) ∧
    (blockOps twoFree [.take, .give 33, .take, .take, .take]).1 =
      [.taken 33, .given 33, .taken 33, .taken 35, .full] ∧
    Event.given 33 ∈ [Event.given 33] := by
  have hsize : osNblocks twoFree ≤ 2 ^ 31 := by decide
  have hops : ∀ b, .give b ∈ [Op.take, .give 33, .take, .take, .take] →
      osFirstinob twoFree ≤ b ∧ b < osNblocks twoFree := by
    intro b hb
    simp only [List.mem_cons, reduceCtorEq, Op.give.injEq, List.not_mem_nil, or_false,
      false_or] at hb
    subst hb
    decide
  have hrun : (blockOps twoFree [.take, .give 33, .take, .take, .take]).1 =
      [.taken 33, .given 33, .taken 33, .taken 35, .full] := by decide +kernel
  exact ⟨hsize, hops, hrun, (allocator_is_set twoFree _ hsize hops).2.2.2 [] 33 _ _ hrun⟩

/-- A disk of 2^31 + 1 blocks, none of them free. -/
def hugeDisk : Mem := (Mem.set32 (fun _ => 0) 1028 (2 ^ 31 + 1)).set32 1036 3

theorem hugeDisk_get32 {a : Nat} (ha : 1040 ≤ a) : hugeDisk.get32 a = 0 := by
  unfold hugeDisk
  rw [Mem.get32_set32_ne (by omega), Mem.get32_set32_ne (by omega)]
  rfl

/-- The release of block 2^31 sets a bit 2^28 bytes in front of the map. -/
theorem hugeDisk_release :
    Signed.freeBlock hugeDisk (2 ^ 31) = hugeDisk.set32 (2 ^ 32 + 2048 - 2 ^ 28) 1 := by
  have haddr : Signed.wordAddr (ospfsBlock 2) (CInt.wrap (2 ^ 31 : Nat)) =
      2 ^ 32 + 2048 - 2 ^ 28 := by decide
  have hmask : Signed.mask (CInt.wrap (2 ^ 31 : Nat)) = 1 := by decide
  have hget : hugeDisk.get32 (2 ^ 32 + 2048 - 2 ^ 28) = 0 := hugeDisk_get32 (by decide)
  have hfirst : ¬ 2 ^ 31 < osFirstinob hugeDisk := by decide
  rw [Signed.freeBlock, if_neg hfirst, Signed.bitvectorTest, Signed.bitvectorSet, haddr, hmask,
    hget]
  rfl

/-- The number 2^31 is negative as an `int`: the set of free numbers does not get it. -/
theorem hugeDisk_not_set :
    (∀ b, .give b ∈ [Op.give (2 ^ 31)] → osFirstinob hugeDisk ≤ b ∧ b < osNblocks hugeDisk) ∧
    freeSet (blockOps hugeDisk [.give (2 ^ 31)]).2 ≠
      (run (allocatable (osNblocks hugeDisk)) (freeSet hugeDisk) [.give (2 ^ 31)]).2 := by
  have hn : osNblocks hugeDisk = 2 ^ 31 + 1 := by decide
  refine ⟨fun b hb => ?_, fun heq => ?_⟩
  · obtain rfl : b = 2 ^ 31 := by simpa using hb
    exact ⟨by decide, by rw [hn]; exact Nat.lt_succ_self _⟩
  · have hin : 2 ^ 31 ∈
        (run (allocatable (osNblocks hugeDisk)) (freeSet hugeDisk) [.give (2 ^ 31)]).2 := by
      have hU : allocatable (osNblocks hugeDisk) (2 ^ 31) = true := by
        rw [hn]
        decide
      simp only [run, step, give, hU, if_true]
      exact Finset.mem_insert_self _ _
    rw [← heq, mem_freeSet] at hin
    have hbit := hin.2.2
    rw [show (blockOps hugeDisk [.give (2 ^ 31)]).2 = Signed.freeBlock hugeDisk (2 ^ 31) from rfl,
      hugeDisk_release, isFree_eq, Mem.get32_set32_ne (by decide),
      hugeDisk_get32 (by decide)] at hbit
    simp at hbit

end OsLabs.Ospfs
