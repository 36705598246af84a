import OsLabs.Ospfs.Allocator
import OsLabs.Ospfs.Format

/-!
# OSPFS: the walks to a file block

Which arrays of pointers lead to a file block, and at which index in each (`Chain`), as
the index functions of the module compute it, as `add_block`, `ospfs_inode_blockno` and
the formatter's `storeblk` do. `direct_index` leaves the indirect range out of its
subtraction; the range is a multiple of what it divides by, so the chains are the same
(`sameWalk`).
-/

namespace OsLabs.Ospfs

open BlockProg

/-- A walk from the inode to a pointer: an index in each array on the way. -/
inductive Chain where
  | direct (i : Nat)
  | indirect (i : Nat)
  | indirect2 (k i : Nat)
  deriving DecidableEq, Repr

namespace Chain

def InBounds : Chain → Prop
  | direct i => i < 10
  | indirect i => i < 256
  | indirect2 k i => k < 256 ∧ i < 256

instance (c : Chain) : Decidable c.InBounds := by
  cases c <;> unfold InBounds <;> infer_instance

/-- Where the pointer stands; block `b` is at the address `blk b`. -/
def address (blk : Nat → Nat) (m : Mem) (oi : Nat) : Chain → Nat
  | direct i => oi + 16 + 4 * i
  | indirect i => blk (oiIndirect m oi) + 4 * i
  | indirect2 k i => blk (m.get32 (blk (oiIndirect2 m oi) + 4 * k)) + 4 * i

/-- The chain leads from inode `oi` to an address, and the state `s` to another one. `T a s t s'`
gives the array `t` whose number belongs in the word `a` of the inode, `U` in an array. -/
inductive Leads {σ : Type} (blk : Nat → Nat) (T U : Nat → σ → Nat → σ → Prop) (oi : Nat) (s : σ) :
    Chain → Nat → σ → Prop
  | direct {i : Nat} : Leads blk T U oi s (direct i) (oi + 16 + 4 * i) s
  | indirect {i t : Nat} {s' : σ} (ht : T (oi + 56) s t s') :
      Leads blk T U oi s (indirect i) (blk t + 4 * i) s'
  | indirect2 {k i t u : Nat} {s' s'' : σ} (ht : T (oi + 60) s t s')
      (hu : U (blk t + 4 * k) s' u s'') : Leads blk T U oi s (indirect2 k i) (blk u + 4 * i) s''

section

variable {σ : Type} {blk : Nat → Nat} {T U : Nat → σ → Nat → σ → Prop} {oi a i k : Nat} {s s' : σ}

theorem leads_direct :
    (direct i).Leads blk T U oi s a s' ↔ a = oi + 16 + 4 * i ∧ s' = s := by
  constructor
  · rintro ⟨⟩
    exact ⟨rfl, rfl⟩
  · rintro ⟨rfl, rfl⟩
    exact .direct

theorem leads_indirect : (indirect i).Leads blk T U oi s a s' ↔
    ∃ t, T (oi + 56) s t s' ∧ a = blk t + 4 * i := by
  constructor
  · rintro ⟨⟩
    exact ⟨_, by assumption, rfl⟩
  · rintro ⟨t, ht, rfl⟩
    exact .indirect ht

theorem leads_indirect2 : (indirect2 k i).Leads blk T U oi s a s' ↔
    ∃ t w u, T (oi + 60) s t w ∧ U (blk t + 4 * k) w u s' ∧ a = blk u + 4 * i := by
  constructor
  · rintro ⟨⟩
    exact ⟨_, _, _, by assumption, by assumption, rfl⟩
  · rintro ⟨t, w, u, ht, hu, rfl⟩
    exact .indirect2 ht hu

end

end Chain

/-- `add_block` takes the array that is there, or allocates one; `entered` says whether it stores
the number of the new one. -/
inductive Allocates (entered : Bool) (a : Nat) (m : Mem) : Nat → Mem → Prop
  | found (h : m.get32 a ≠ 0) : Allocates entered a m (m.get32 a) m
  | made {t : Nat} {m' : Mem} (h : m.get32 a = 0) (ht : allocateBlock m = (t, m')) (h0 : t ≠ 0) :
      Allocates entered a m t
        (if entered then (clearBlock m' t).set32 a t else clearBlock m' t)

/-- `storeblk` takes the array that is there, or the next block, and stores its number. -/
inductive Supplies (nblocks a : Nat) (s : Globals × Mem) : Nat → Globals × Mem → Prop
  | found (h : s.2.get32 a ≠ 0) (hlt : s.2.get32 a < nblocks) :
      Supplies nblocks a s (s.2.get32 a) s
  | made (h : s.2.get32 a = 0) (hlt : s.1.nextb < nblocks) :
      Supplies nblocks a s s.1.nextb ({ s.1 with nextb := s.1.nextb + 1 },
        (s.2.fill (1024 * s.1.nextb) 1024 0).set32 a s.1.nextb)

/-- The chain by `indir2_index`, `indir_index` and `direct_index`, read as their comments say. -/
def indexChain (b : Nat) : Chain :=
  if indir2Index b = 0 then .indirect2 (indirIndex b).toNat (directIndex b)
  else if indirIndex b = 0 then .indirect (directIndex b)
  else .direct (directIndex b)

def addBlockChain (n : Nat) : Chain :=
  if n < 10 then .direct n
  else if n < 10 + 256 then .indirect (directIndex n)
  else .indirect2 (indirIndex n).toNat (directIndex n)

def inodeBlocknoChain (offset : Nat) : Chain :=
  let blockno := offset / 1024
  if blockno ≥ 10 + 256 then
    let blockoff := blockno - (10 + 256)
    .indirect2 (blockoff / 256) (blockoff % 256)
  else if blockno ≥ 10 then .indirect (blockno - 10)
  else .direct blockno

def storeblkChain (nblk : Nat) : Chain :=
  if nblk < 10 then .direct nblk
  else if nblk < 10 + 256 then .indirect (nblk - 10)
  else
    let nblk := nblk - (10 + 256)
    .indirect2 (nblk / 256) (nblk % 256)

/-! ## The chains are those of the walks -/

variable {m : Mem} {oi offset n b : Nat}

/-- `ospfs_inode_blockno` reads the pointer at the end of its chain. -/
theorem ospfsInodeBlockno_chain (h : offset < oiSize m oi) (hs : oiFtype m oi ≠ ftypeSymlink) :
    ospfsInodeBlockno m oi offset =
      m.get32 ((inodeBlocknoChain offset).address ospfsBlock m oi) := by
  have hno : ¬ (offset ≥ oiSize m oi ∨ oiFtype m oi = ftypeSymlink) := by
    rintro (h' | h')
    · omega
    · exact hs h'
  unfold ospfsInodeBlockno inodeBlocknoChain
  dsimp only
  rw [if_neg hno]
  split
  · rfl
  · split <;> rfl

section

variable {m' w : Mem} {c : Chain} {a t newBlock allocated1 : Nat} {entered : Bool} {r : Ret × Mem}

theorem allocates_of_ne (h : m.get32 a ≠ 0) :
    Allocates entered a m t m' ↔ t = m.get32 a ∧ m' = m := by
  constructor
  · rintro (_ | ⟨h0, -, -⟩)
    · exact ⟨rfl, rfl⟩
    · exact absurd h0 h
  · rintro ⟨rfl, rfl⟩
    exact .found h

theorem allocates_of_eq (h : m.get32 a = 0) {b : Nat} (hb : allocateBlock m = (b, w)) :
    Allocates entered a m t m' ↔ b ≠ 0 ∧ t = b ∧
      m' = if entered then (clearBlock w b).set32 a b else clearBlock w b := by
  constructor
  · rintro (h0 | ⟨-, ht, h0⟩)
    · exact absurd h h0
    · cases hb.symm.trans ht
      exact ⟨h0, rfl, rfl⟩
  · rintro ⟨h0, rfl, rfl⟩
    exact .made h hb h0

theorem allocateBlock_lt (h : allocateBlock m = (t, m')) : t < 2 ^ 32 := by
  have hlt : osNblocks m < 2 ^ 32 := Mem.get32_lt
  obtain ⟨-, he⟩ | ⟨b, hb, -, he⟩ := allocateBlock_cases m
  · cases h.symm.trans he
    decide
  · cases h.symm.trans he
    exact (mem_freeSet.1 hb).2.1.trans hlt

theorem addIndirect_ok : addIndirect m oi n newBlock = (.ok (), m') ↔
    ∃ t w, Allocates true (oi + 56) m t w ∧
      m' = w.set32 (ospfsBlock t + 4 * directIndex n) newBlock := by
  unfold addIndirect
  by_cases h0 : oiIndirect m oi = 0
  · rcases ha : allocateBlock m with ⟨t, m₁⟩
    have hlink : oiIndirect ((clearBlock m₁ t).set32 (oi + 56) t) oi = t :=
      Mem.get32_set32_of_lt (allocateBlock_lt ha)
    simp only [if_pos h0, allocates_of_eq h0 ha, hlink]
    by_cases ht : t = 0
    · simp [ht]
    · simp [ht, eq_comm]
  · simp only [if_neg h0, allocates_of_ne h0]
    simp [eq_comm, oiIndirect]

theorem addUnder_ok : addUnder m oi n newBlock allocated1 = (.ok (), m') ↔
    ∃ u w, Allocates false (ospfsBlock (oiIndirect2 m oi) + 4 * (indirIndex n).toNat) m u w ∧
      m' = w.set32 (ospfsBlock u + 4 * directIndex n) newBlock := by
  unfold addUnder
  dsimp only
  generalize ospfsBlock (oiIndirect2 m oi) + 4 * (indirIndex n).toNat = a
  by_cases h0 : m.get32 a = 0
  · rcases ha : allocateBlock m with ⟨u, m₁⟩
    simp only [if_pos h0, allocates_of_eq h0 ha]
    by_cases hu : u = 0
    · simp [hu]
    · simp [hu, eq_comm]
  · simp only [if_neg h0, allocates_of_ne h0]
    simp [eq_comm]

theorem addIndirect2_ok : addIndirect2 m oi n newBlock = (.ok (), m') ↔
    ∃ t w u w', Allocates true (oi + 60) m t w ∧
      Allocates false (ospfsBlock t + 4 * (indirIndex n).toNat) w u w' ∧
      m' = w'.set32 (ospfsBlock u + 4 * directIndex n) newBlock := by
  unfold addIndirect2
  by_cases h0 : oiIndirect2 m oi = 0
  · rcases ha : allocateBlock m with ⟨t, m₁⟩
    have hlink : oiIndirect2 ((clearBlock m₁ t).set32 (oi + 60) t) oi = t :=
      Mem.get32_set32_of_lt (allocateBlock_lt ha)
    simp only [if_pos h0, allocates_of_eq h0 ha]
    by_cases ht : t = 0
    · simp [ht]
    · simp [ht, addUnder_ok, hlink]
  · simp only [if_neg h0, allocates_of_ne h0, addUnder_ok]
    simp [oiIndirect2]

theorem setSize_ok : (match r.1 with
      | .ok () => (.ok (), r.2.set32 oi (oiSize r.2 oi + 1024))
      | .error e => (.error e, r.2) : Ret × Mem) = (.ok (), m') ↔
    ∃ w, r = (.ok (), w) ∧ m' = w.set32 oi (oiSize w oi + 1024) := by
  obtain ⟨_ | _, w⟩ := r
  · simp
  · simp [eq_comm]

/-- `add_block` succeeds by storing the new block where its chain leads. -/
theorem addBlock_ok (hn : ospfsSize2nblocks (oiSize m oi) = n) (hmax : n ≤ maxfileblks) :
    addBlock m oi = (.ok (), m') ↔ ∃ newBlock m₁ a w, allocateBlock m = (newBlock, m₁) ∧
      newBlock ≠ 0 ∧ (addBlockChain n).Leads ospfsBlock (Allocates true) (Allocates false) oi
        (clearBlock m₁ newBlock) a w ∧
      m' = (w.set32 a newBlock).set32 oi (oiSize (w.set32 a newBlock) oi + 1024) := by
  rcases ha : allocateBlock m with ⟨newBlock, m₁⟩
  unfold addBlock
  simp only [hn, ha, if_neg (Nat.not_lt_of_le hmax)]
  by_cases h0 : newBlock = 0
  · simp [h0]
  simp only [if_neg h0]
  by_cases h10 : n < 10
  · simp [addBlockChain, h10, h0, Chain.leads_direct, eq_comm]
  by_cases h266 : n < 10 + 256
  · have hc : addBlockChain n = .indirect (directIndex n) := by
      rw [addBlockChain, if_neg h10, if_pos h266]
    simp only [if_neg h10, if_pos h266, hc, Chain.leads_indirect]
    refine (setSize_ok (r := addIndirect (clearBlock m₁ newBlock) oi n newBlock)).trans ?_
    simp only [addIndirect_ok]
    constructor
    · rintro ⟨w, ⟨t, w', ht, rfl⟩, rfl⟩
      exact ⟨newBlock, m₁, _, w', rfl, h0, ⟨t, ht, rfl⟩, rfl⟩
    · rintro ⟨b, m₂, a, w', hb, -, ⟨t, ht, rfl⟩, rfl⟩
      cases hb
      exact ⟨_, ⟨t, w', ht, rfl⟩, rfl⟩
  · have hc : addBlockChain n = .indirect2 (indirIndex n).toNat (directIndex n) := by
      rw [addBlockChain, if_neg h10, if_neg h266]
    simp only [if_neg h10, if_neg h266, hc, Chain.leads_indirect2]
    refine (setSize_ok (r := addIndirect2 (clearBlock m₁ newBlock) oi n newBlock)).trans ?_
    simp only [addIndirect2_ok]
    constructor
    · rintro ⟨w, ⟨t, v, u, w', ht, hu, rfl⟩, rfl⟩
      exact ⟨newBlock, m₁, _, w', rfl, h0, ⟨t, v, u, ht, hu, rfl⟩, rfl⟩
    · rintro ⟨b, m₂, a, w', hb, -, ⟨t, v, u, ht, hu, rfl⟩, rfl⟩
      cases hb
      exact ⟨_, ⟨t, v, u, w', ht, hu, rfl⟩, rfl⟩

/-! ## The walk of the formatter -/

theorem tableAt_run {nblocks : Nat} {st st' : Globals} :
    (tableAt a).run nblocks st m = some (t, st', m') ↔ Supplies nblocks a (st, m) t (st', m') := by
  unfold tableAt
  rw [run_bind, run_loadWord, Option.bind_some]
  by_cases h0 : m.get32 a = 0
  · simp only [if_pos h0, nextBlock, run_bind, run_getGlobals, run_setGlobals, run_getBlock,
      run_pure, run_storeWord, Option.bind_some]
    constructor
    · intro h
      split at h
      · cases h
        exact .made h0 (by assumption)
      · cases h
    · rintro (h | ⟨-, hlt⟩)
      · exact absurd h0 h
      · rw [if_pos hlt]
        rfl
  · simp only [if_neg h0, run_bind, run_getBlock, run_pure]
    constructor
    · intro h
      split at h
      · cases h
        exact .found h0 (by assumption)
      · cases h
    · rintro (⟨-, hlt⟩ | ⟨h, -⟩)
      · rw [if_pos hlt]
        rfl
      · exact absurd h h0

/-- `storeblk` stores the block where its chain leads. -/
theorem storeblk_run {nblocks : Nat} {st st' : Globals} (hn : n < maxfileblks) :
    (storeblk oi b n).run nblocks st m = some ((), st', m') ↔
      ∃ a w, (storeblkChain n).Leads (1024 * ·) (Supplies nblocks) (Supplies nblocks) oi (st, m) a
        (st', w) ∧ m' = w.set32 a b := by
  unfold storeblk storeblkChain
  by_cases h10 : n < 10
  · simp only [if_pos h10, Chain.leads_direct, run_storeWord]
    constructor
    · rintro ⟨⟩
      exact ⟨_, m, ⟨rfl, rfl⟩, rfl⟩
    · rintro ⟨a, w, ⟨rfl, hw⟩, rfl⟩
      cases hw
      rfl
  by_cases h266 : n < 10 + 256
  · simp only [if_neg h10, if_pos h266, Chain.leads_indirect, run_bind, run_storeWord,
      run_putBlock, Option.bind_eq_some_iff]
    constructor
    · rintro ⟨⟨t, st₁, w⟩, ht, _, ⟨⟩, ⟨⟩⟩
      exact ⟨_, w, ⟨t, tableAt_run.1 ht, rfl⟩, rfl⟩
    · rintro ⟨a, w, ⟨t, ht, rfl⟩, rfl⟩
      exact ⟨_, tableAt_run.2 ht, _, rfl, rfl⟩
  · simp only [if_neg h10, if_neg h266, if_pos hn, Chain.leads_indirect2, run_bind, run_storeWord,
      run_putBlock, Option.bind_eq_some_iff]
    generalize (n - (10 + 256)) / 256 = k
    generalize (n - (10 + 256)) % 256 = i
    constructor
    · rintro ⟨⟨t, st₁, w⟩, ht, ⟨u, st₂, w'⟩, hu, _, ⟨⟩, _, ⟨⟩, ⟨⟩⟩
      exact ⟨_, w', ⟨t, (st₁, w), u, tableAt_run.1 ht, tableAt_run.1 hu, rfl⟩, rfl⟩
    · rintro ⟨a, w, ⟨t, ⟨st₁, w₁⟩, u, ht, hu, rfl⟩, rfl⟩
      exact ⟨_, tableAt_run.2 ht, _, tableAt_run.2 hu, _, rfl, _, rfl, rfl⟩

end

/-! ## One chain for each file block -/

theorem addBlockChain_cases (b : Nat) :
    (b < 10 ∧ addBlockChain b = .direct b) ∨
    (10 ≤ b ∧ b < 266 ∧ addBlockChain b = .indirect (b - 10)) ∨
    (266 ≤ b ∧ addBlockChain b = .indirect2 ((b - 266) / 256) ((b - 266) % 256)) := by
  unfold addBlockChain
  rcases Nat.lt_or_ge b 10 with h | h
  · exact .inl ⟨h, if_pos h⟩
  · rcases Nat.lt_or_ge b 266 with h' | h'
    · refine .inr (.inl ⟨h, h', ?_⟩)
      rw [if_neg (by omega), if_pos h', directIndex, if_neg (by omega), Nat.mod_eq_of_lt (by omega)]
    · refine .inr (.inr ⟨h', ?_⟩)
      rw [if_neg (by omega), if_neg (by omega), toNat_indirIndex h', directIndex_indirect2 h']

theorem storeblkChain_eq (b : Nat) : storeblkChain b = addBlockChain b := by
  unfold storeblkChain
  obtain ⟨h, hc⟩ | ⟨h, h', hc⟩ | ⟨h, hc⟩ := addBlockChain_cases b
  · rw [hc, if_pos h]
  · rw [hc, if_neg (by omega), if_pos h']
  · rw [hc, if_neg (by omega), if_neg (by omega)]

theorem inodeBlocknoChain_eq (offset : Nat) :
    inodeBlocknoChain offset = addBlockChain (offset / 1024) := by
  unfold inodeBlocknoChain
  dsimp only
  obtain ⟨h, hc⟩ | ⟨h, h', hc⟩ | ⟨h, hc⟩ := addBlockChain_cases (offset / 1024)
  · rw [hc, if_neg (by omega), if_neg (by omega)]
  · rw [hc, if_neg (by omega), if_pos h]
  · rw [hc, if_pos h]

theorem indexChain_eq (b : Nat) : indexChain b = addBlockChain b := by
  unfold indexChain addBlockChain
  rcases Nat.lt_or_ge b 10 with h | h
  · have h2 : indir2Index b = -1 := if_pos (by omega)
    have h1 : indirIndex b = -1 := if_pos h
    have h0 : directIndex b = b := directIndex_direct h
    rw [h2, h1, h0, if_pos h]
    rfl
  · rcases Nat.lt_or_ge b 266 with h' | h'
    · have h2 : indir2Index b = -1 := if_pos h'
      have h1 : indirIndex b = 0 := indirIndex_indirect h h'
      rw [h2, h1, if_neg (by decide : ¬ (-1 : Int) = 0), if_pos rfl, if_neg (by omega), if_pos h']
    · have h2 : indir2Index b = 0 := if_neg (by omega)
      rw [h2, if_pos rfl, if_neg (by omega), if_neg (by omega)]

theorem addBlockChain_inBounds (h : b < maxfileblks) : (addBlockChain b).InBounds := by
  unfold maxfileblks at h
  obtain ⟨h', hc⟩ | ⟨-, h', hc⟩ | ⟨h', hc⟩ := addBlockChain_cases b
  · rw [hc]
    exact h'
  · rw [hc]
    show b - 10 < 256
    omega
  · rw [hc]
    exact ⟨by omega, by omega⟩

theorem addBlockChain_inj {b' : Nat} (h : addBlockChain b = addBlockChain b') : b = b' := by
  obtain ⟨h1, hc⟩ | ⟨h1, -, hc⟩ | ⟨h1, hc⟩ := addBlockChain_cases b <;>
    obtain ⟨h2, hc'⟩ | ⟨h2, -, hc'⟩ | ⟨h2, hc'⟩ := addBlockChain_cases b' <;>
    rw [hc, hc'] at h <;>
    simp only [Chain.direct.injEq, Chain.indirect.injEq, Chain.indirect2.injEq,
      reduceCtorEq] at h <;>
    omega

/-- The three walks to file block `b`, and the index functions, have one chain, at the end of
which the module reads and enters the block and the formatter enters it; no other block has
this chain, and its indexes are within the arrays. -/
structure SameWalk (b : Nat) : Prop where
  of_index : indexChain b = addBlockChain b
  of_blockno : ∀ offset, offset / 1024 = b → inodeBlocknoChain offset = addBlockChain b
  of_storeblk : storeblkChain b = addBlockChain b
  read : ∀ m oi offset, offset / 1024 = b → offset < oiSize m oi → oiFtype m oi ≠ ftypeSymlink →
    ospfsInodeBlockno m oi offset = m.get32 ((addBlockChain b).address ospfsBlock m oi)
  added : ∀ m oi m', ospfsSize2nblocks (oiSize m oi) = b →
    (addBlock m oi = (.ok (), m') ↔ ∃ newBlock m₁ a w, allocateBlock m = (newBlock, m₁) ∧
      newBlock ≠ 0 ∧ (addBlockChain b).Leads ospfsBlock (Allocates true) (Allocates false) oi
        (clearBlock m₁ newBlock) a w ∧
      m' = (w.set32 a newBlock).set32 oi (oiSize (w.set32 a newBlock) oi + 1024))
  stored : ∀ nblocks st m oi bno st' m', (storeblk oi bno b).run nblocks st m = some ((), st', m') ↔
    ∃ a w, (addBlockChain b).Leads (1024 * ·) (Supplies nblocks) (Supplies nblocks) oi (st, m) a
      (st', w) ∧ m' = w.set32 a bno
  inj : ∀ b', addBlockChain b' = addBlockChain b → b' = b
  inBounds : (addBlockChain b).InBounds

/-- **All walks to a file block are the same.** -/
theorem sameWalk {b : Nat} (h : b < maxfileblks) : SameWalk b where
  of_index := indexChain_eq b
  of_blockno offset hb := hb ▸ inodeBlocknoChain_eq offset
  of_storeblk := storeblkChain_eq b
  read m oi offset hb hlt hs := by
    rw [ospfsInodeBlockno_chain hlt hs, inodeBlocknoChain_eq, hb]
  added m oi m' hn := addBlock_ok hn (Nat.le_of_lt h)
  stored nblocks st m oi bno st' m' := by
    rw [← storeblkChain_eq b]
    exact storeblk_run h
  inj b' := addBlockChain_inj
  inBounds := addBlockChain_inBounds h

theorem sameWalk_last : 65801 < maxfileblks ∧ SameWalk 65801 ∧
    addBlockChain 65801 = .indirect2 255 255 :=
  ⟨by decide, sameWalk (by decide), by decide⟩

end OsLabs.Ospfs
