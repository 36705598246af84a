import OsLabs.Lib.WriteBack
import OsLabs.Lib.Runs
import OsLabs.Ospfs.Format
import Mathlib.Data.List.Count
import Mathlib.Data.List.Dedup

/-!
# OSPFS: the formatter's block cache

`getblk`, `putblk`, `flushb` and `flushdisk` of `ospfsformat.c` on a little-endian host,
with 16 slots between the formatter and the disk file. Integers of 32 bits are naturals
below `2 ^ 32`; the use counter wraps as the machine's does. Seeking, reading and writing
within the disk file succeed.
-/

namespace OsLabs.Ospfs

abbrev blksize : Nat := 1024

abbrev ncache : Nat := 16

/-! ## Byte order -/

/-- A word is stored with its lowest byte first. -/
def swizzle (u : Mem) (a : Nat) : Mem := u.set32 a (u.get32 a)

def swizzleinode (u : Mem) (a : Nat) : Mem :=
  if u.get32 (a + 8) = 0 then u
  else
    let u := [a, a + 4, a + 12, a + 8].foldl swizzle u
    let u := ((List.range 10).map fun i => a + 16 + 4 * i).foldl swizzle u
    swizzle (swizzle u (a + 56)) (a + 60)

def swizzledirentry (u : Mem) (a : Nat) : Mem := if u (a + 4) = 0 then u else swizzle u a

def swizzleblock (type : BlockType) (u : Mem) : Mem :=
  match type with
  | .super => [0, 4, 8, 12].foldl swizzle u
  | .dir => ((List.range 8).map fun i => 128 * i).foldl swizzledirentry u
  | .file => u
  | .bits => ((List.range 256).map fun i => 4 * i).foldl swizzle u
  | .inodes => ((List.range 16).map fun i => 64 * i).foldl swizzleinode u

theorem swizzle_eq (u : Mem) (a : Nat) : swizzle u a = u := Mem.set32_get32

theorem foldl_eq_self {f : Mem → Nat → Mem} (hf : ∀ u a, f u a = u) (l : List Nat) (u : Mem) :
    l.foldl f u = u := by
  induction l generalizing u with
  | nil => rfl
  | cons a l ih =>
    rw [List.foldl_cons, hf]
    exact ih u

theorem swizzleinode_eq (u : Mem) (a : Nat) : swizzleinode u a = u := by
  unfold swizzleinode
  split
  · rfl
  · dsimp only
    rw [swizzle_eq, swizzle_eq, foldl_eq_self swizzle_eq, foldl_eq_self swizzle_eq]

theorem swizzledirentry_eq (u : Mem) (a : Nat) : swizzledirentry u a = u := by
  unfold swizzledirentry
  split
  · rfl
  · exact swizzle_eq u a

/-- On a little-endian host nothing changes. -/
@[simp] theorem swizzleblock_eq (type : BlockType) (u : Mem) : swizzleblock type u = u := by
  cases type with
  | super => exact foldl_eq_self swizzle_eq _ _
  | dir => exact foldl_eq_self swizzledirentry_eq _ _
  | file => rfl
  | bits => exact foldl_eq_self swizzle_eq _ _
  | inodes => exact foldl_eq_self swizzleinode_eq _ _

/-! ## The cache -/

structure Slot where
  bno : Nat := 0
  type : BlockType := .super
  busy : Nat := 0
  used : Nat := 0
  u : Mem := fun _ => 0

structure BlockCache where
  cache : Nat → Slot := fun _ => {}
  t : Nat := 1
  disk : Mem

namespace BlockCache

def set (s : BlockCache) (i : Nat) (f : Slot → Slot) : BlockCache :=
  { s with cache := Function.update s.cache i (f (s.cache i)) }

def flushb (s : BlockCache) (i : Nat) : BlockCache :=
  let s := s.set i fun b => { b with u := swizzleblock b.type b.u }
  let s := { s with
    disk := s.disk.copy (s.cache i).u (ospfsBlock (s.cache i).bno) 0 blksize }
  s.set i fun b => { b with u := swizzleblock b.type b.u }

/-- How the scan of `getblk` ends: at the block, or with the slot to use, if any. -/
inductive Scan where
  | hit (i : Nat)
  | miss (least : Option Nat)

def scan (s : BlockCache) (bno : Nat) : (n : Nat) → Option Nat → Scan
  | 0, least => .miss least
  | n + 1, least =>
    let i := ncache - (n + 1)
    if (s.cache i).bno = bno then .hit i
    else
      scan s bno n
        (if (s.cache i).busy = 0 ∧ ∀ j ∈ least, (s.cache i).used < (s.cache j).used then some i
          else least)

/-- The block at the label `out`; `none` where the assertion fails. -/
def out (s : BlockCache) (i : Nat) (clr : Bool) (type : BlockType) : Option (BlockCache × Nat) :=
  let s := { s with t := (s.t + 1) % 2 ^ 32 }
  let s := s.set i fun b =>
    { b with
      u := if clr then b.u.fill 0 blksize 0 else b.u
      used := s.t
      busy := (b.busy + 1) % 2 ^ 32 }
  if (s.cache i).type = type ∨ (s.cache i).busy = 1 then
    some (s.set i fun b => { b with type := type }, i)
  else none

/-- `getblk`, with the slot it returns; `none` when it aborts. -/
def getblk (nblocks : Nat) (s : BlockCache) (bno : Nat) (clr : Bool) (type : BlockType) :
    Option (BlockCache × Nat) :=
  if nblocks ≤ bno then none
  else
    match s.scan bno ncache none with
    | .hit i => s.out i clr type
    | .miss none => none
    | .miss (some i) =>
      let s := if (s.cache i).used ≠ 0 then s.flushb i else s
      let s := s.set i fun b =>
        { b with u := b.u.copy s.disk 0 (ospfsBlock bno) blksize, bno := bno }
      let s := if clr then s else s.set i fun b => { b with u := swizzleblock b.type b.u }
      let s := s.set i fun b => { b with busy := 0, type := type }
      s.out i clr type

def putblk (s : BlockCache) (i : Nat) : BlockCache :=
  s.set i fun b => { b with busy := (b.busy + (2 ^ 32 - 1)) % 2 ^ 32 }

def flushFrom (s : BlockCache) : (n : Nat) → BlockCache
  | 0 => s
  | n + 1 =>
    let i := ncache - (n + 1)
    flushFrom (if (s.cache i).used ≠ 0 then s.flushb i else s) n

def flushdisk (s : BlockCache) : BlockCache := s.flushFrom ncache

def store (s : BlockCache) (i off : Nat) (bytes : Bytes) : BlockCache :=
  s.set i fun b => { b with u := b.u.store off bytes }

end BlockCache

/-! ## The formatter's use of the cache -/

/-- The cache, the bytes last left in every block, and the pointers returned by `getblk`
and not yet given to `putblk`, with their block numbers. -/
structure Client where
  s : BlockCache
  flat : Mem
  held : List (Nat × Nat)

inductive Op where
  | getblk (bno : Nat) (clr : Bool) (type : BlockType)
  | store (p : Nat × Nat) (off : Nat) (bytes : Bytes)
  | putblk (p : Nat × Nat)

def Op.isGetblk : Op → Bool
  | .getblk .. => true
  | _ => false

/-- At most 16 different blocks are busy once `bno` is. -/
def Client.Room (c : Client) (bno : Nat) : Prop :=
  (bno :: c.held.map Prod.snd).dedup.length ≤ ncache

inductive Client.Step (nblocks : Nat) : Client → Op → Client → Prop where
  | getblk {c : Client} {bno : Nat} {clr : Bool} {type : BlockType} {s' : BlockCache} {i : Nat} :
      1 ≤ bno → bno < nblocks → c.Room bno →
      c.s.getblk nblocks bno clr type = some (s', i) →
      Step nblocks c (.getblk bno clr type)
        { s := s'
          flat := if clr then c.flat.fill (1024 * bno) blksize 0 else c.flat
          held := (i, bno) :: c.held }
  | store {c : Client} {p : Nat × Nat} {off : Nat} {bytes : Bytes} :
      p ∈ c.held → off + bytes.length ≤ blksize →
      Step nblocks c (.store p off bytes)
        { c with
          s := c.s.store p.1 off bytes
          flat := c.flat.store (1024 * p.2 + off) bytes }
  | putblk {c : Client} {p : Nat × Nat} : p ∈ c.held →
      Step nblocks c (.putblk p) { c with s := c.s.putblk p.1, held := c.held.erase p }

/-- The disk file is all zeros after `opendisk` has truncated it. -/
def client (nblocks : Nat) : System Client Op where
  Init c := c = { s := { disk := fun _ => 0 }, flat := fun _ => 0, held := [] }
  Step := Client.Step nblocks

/-! ## Blocks as values -/

abbrev BlockData := Fin blksize → UInt8

def blockAt (m : Mem) (a : Nat) : BlockData := fun x => m (a + x)

def blocks (m : Mem) (b : Nat) : BlockData := blockAt m (1024 * b)

theorem blockAt_eq {m m' : Mem} {a a' : Nat} :
    blockAt m a = blockAt m' a' ↔ ∀ x < blksize, m (a + x) = m' (a' + x) := by
  constructor
  · intro h x hx
    exact congrFun h ⟨x, hx⟩
  · intro h
    funext x
    exact h x x.isLt

theorem blocks_copy (m u : Mem) (b : Nat) :
    blocks (m.copy u (1024 * b) 0 blksize) = Function.update (blocks m) b (blockAt u 0) := by
  funext k x
  have hx : x.val < 1024 := x.isLt
  unfold blocks blockAt Mem.copy
  by_cases hk : k = b
  · subst hk
    rw [Function.update_self, if_pos (by omega), Nat.add_sub_cancel_left]
  · rw [Function.update_of_ne hk, if_neg (by unfold blksize; omega)]

theorem blocks_fill (m : Mem) (b : Nat) :
    blocks (m.fill (1024 * b) blksize 0) = Function.update (blocks m) b fun _ => 0 := by
  funext k x
  have hx : x.val < 1024 := x.isLt
  unfold blocks blockAt Mem.fill
  by_cases hk : k = b
  · subst hk
    rw [Function.update_self, if_pos (by omega)]
  · rw [Function.update_of_ne hk, if_neg (by unfold blksize; omega)]

theorem blocks_store {m u : Mem} {b off : Nat} {bytes : Bytes}
    (hu : blockAt u 0 = blocks m b) (hlen : off + bytes.length ≤ blksize) :
    blocks (m.store (1024 * b + off) bytes) =
      Function.update (blocks m) b (blockAt (u.store off bytes) 0) := by
  funext k x
  have hx : x.val < 1024 := x.isLt
  unfold blksize at hlen
  unfold blocks blockAt Mem.store
  by_cases hk : k = b
  · subst hk
    rw [Function.update_self, Nat.zero_add]
    by_cases hin : off ≤ x ∧ x < off + bytes.length
    · rw [if_pos (by omega), if_pos hin, show 1024 * k + x - (1024 * k + off) = x - off by omega]
    · rw [if_neg (by omega), if_neg hin]
      have := blockAt_eq.1 hu x hx
      rw [Nat.zero_add] at this
      exact this.symm
  · rw [Function.update_of_ne hk, if_neg (by omega)]

namespace BlockCache

def resident (s : BlockCache) (i : Nat) : Option (Nat × BlockData) :=
  if i < ncache ∧ (s.cache i).bno ≠ 0 then some ((s.cache i).bno, blockAt (s.cache i).u 0)
  else none

variable (s : BlockCache) (i : Nat) (f : Slot → Slot)

@[simp] theorem set_t : (s.set i f).t = s.t := rfl

@[simp] theorem set_disk : (s.set i f).disk = s.disk := rfl

@[simp] theorem set_self : (s.set i f).cache i = f (s.cache i) := Function.update_self _ _ _

@[simp] theorem set_ne {j : Nat} (h : j ≠ i) : (s.set i f).cache j = s.cache j :=
  Function.update_of_ne h _ _

@[simp] theorem set_set (g : Slot → Slot) : (s.set i f).set i g = s.set i fun b => g (f b) := by
  unfold set
  simp only [Function.update_self, Function.update_idem]

@[simp] theorem set_id : s.set i (fun b => b) = s := by
  unfold set
  rw [Function.update_eq_self]

theorem flushb_eq : s.flushb i =
    { s with disk := s.disk.copy (s.cache i).u (ospfsBlock (s.cache i).bno) 0 blksize } := by
  unfold flushb
  simp only [swizzleblock_eq, set_id]

variable {s i f}

theorem resident_some {k : Nat} {d : BlockData} : s.resident i = some (k, d) ↔
    i < ncache ∧ k ≠ 0 ∧ (s.cache i).bno = k ∧ blockAt (s.cache i).u 0 = d := by
  unfold resident
  split
  · next h =>
    constructor
    · intro he
      cases he
      exact ⟨h.1, h.2, rfl, rfl⟩
    · rintro ⟨-, -, rfl, rfl⟩
      rfl
  · next h =>
    constructor
    · intro he
      cases he
    · rintro ⟨hi, hk, rfl, -⟩
      exact absurd ⟨hi, hk⟩ h

theorem resident_set (hi : i < ncache) (hb : (f (s.cache i)).bno ≠ 0) :
    (s.set i f).resident =
      Function.update s.resident i
        (some ((f (s.cache i)).bno, blockAt (f (s.cache i)).u 0)) := by
  funext j
  unfold resident
  by_cases hj : j = i
  · subst hj
    rw [Function.update_self, set_self, if_pos ⟨hi, hb⟩]
  · rw [Function.update_of_ne hj, set_ne _ _ _ hj]

/-! ## The scan -/

theorem scan_hit {bno n i : Nat} {least : Option Nat} (h : s.scan bno n least = .hit i) :
    i < ncache ∧ (s.cache i).bno = bno := by
  induction n generalizing least with
  | zero => cases h
  | succ n ih =>
    rw [scan] at h
    split at h
    · next he =>
      cases h
      exact ⟨by unfold ncache; omega, he⟩
    · exact ih h

theorem scan_miss {bno n : Nat} {least l : Option Nat} (h : s.scan bno n least = .miss l)
    (hn : n ≤ ncache) : ∀ j, ncache - n ≤ j → j < ncache → (s.cache j).bno ≠ bno := by
  induction n generalizing least with
  | zero => intro j hj hlt; omega
  | succ n ih =>
    rw [scan] at h
    split at h
    · cases h
    · next hne =>
      intro j hj hlt
      rcases Nat.eq_or_lt_of_le hj with rfl | hj
      · exact hne
      · exact ih h (by omega) j (by omega) hlt

theorem scan_some {bno n i : Nat} {least : Option Nat}
    (h : s.scan bno n least = .miss (some i)) :
    least = some i ∨ i < ncache ∧ (s.cache i).busy = 0 := by
  induction n generalizing least with
  | zero =>
    cases h
    exact .inl rfl
  | succ n ih =>
    rw [scan] at h
    split at h
    · cases h
    · rcases ih h with hl | hi
      · split at hl
        · next hb =>
          cases hl
          exact .inr ⟨by unfold ncache; omega, hb.1⟩
        · exact .inl hl
      · exact .inr hi

theorem scan_none {bno n : Nat} {least : Option Nat} (h : s.scan bno n least = .miss none)
    (hn : n ≤ ncache) :
    least = none ∧ ∀ j, ncache - n ≤ j → j < ncache → (s.cache j).busy ≠ 0 := by
  induction n generalizing least with
  | zero =>
    cases h
    exact ⟨rfl, fun j hj hlt => by omega⟩
  | succ n ih =>
    rw [scan] at h
    split at h
    · cases h
    · obtain ⟨hl, hrest⟩ := ih h (by omega)
      split at hl
      · cases hl
      · next hb =>
        subst hl
        have hb : (s.cache (ncache - (n + 1))).busy ≠ 0 := fun h0 => hb ⟨h0, by simp⟩
        refine ⟨rfl, fun j hj hlt => ?_⟩
        rcases Nat.eq_or_lt_of_le hj with rfl | hj
        · exact hb
        · exact hrest j (by omega) hlt

end BlockCache

/-! ## The invariant -/

/-- The slots and the disk stand for the contents, and the held pointers lead to their
blocks. -/
structure Holds (nblocks : Nat) (s : BlockCache) (flat : Mem) (held : List (Nat × Nat)) :
    Prop where
  coherent : WriteBack.Coherent s.resident (blocks s.disk) (blocks flat)
  bound : ∀ i < ncache, (s.cache i).bno < nblocks
  pointers : ∀ p ∈ held, p.1 < ncache ∧ p.2 ≠ 0 ∧ (s.cache p.1).bno = p.2
  busy : ∀ i < ncache, (s.cache i).busy = held.countP fun p => p.1 = i

/-- A slot has been used if and only if it holds a block. -/
def BlockCache.Stamped (s : BlockCache) (i : Nat) : Prop :=
  (s.cache i).used = 0 ↔ (s.cache i).bno = 0

variable {nblocks : Nat} {s s' : BlockCache} {flat : Mem} {held : List (Nat × Nat)}

theorem Holds.data (h : Holds nblocks s flat held) {i : Nat} (hi : i < ncache)
    (hb : (s.cache i).bno ≠ 0) : blockAt (s.cache i).u 0 = blocks flat (s.cache i).bno :=
  h.coherent.resident i _ _ (BlockCache.resident_some.2 ⟨hi, hb, rfl, rfl⟩)

theorem Holds.recount (h : Holds nblocks s flat held) {i : Nat} {f : Slot → Slot}
    {held' : List (Nat × Nat)} (hi : i < ncache) (hu : (f (s.cache i)).u = (s.cache i).u)
    (hb : (f (s.cache i)).bno = (s.cache i).bno)
    (hheld : ∀ p ∈ held', p.1 < ncache ∧ p.2 ≠ 0 ∧ (s.cache p.1).bno = p.2)
    (hbusy : (f (s.cache i)).busy = held'.countP fun p => p.1 = i)
    (hrest : ∀ j, j ≠ i → (held'.countP fun p => p.1 = j) = held.countP fun p => p.1 = j) :
    Holds nblocks (s.set i f) flat held' := by
  have hbno (j : Nat) : ((s.set i f).cache j).bno = (s.cache j).bno := by
    by_cases hj : j = i
    · rw [hj, BlockCache.set_self, hb]
    · rw [BlockCache.set_ne _ _ _ hj]
  have hdata (j : Nat) : ((s.set i f).cache j).u = (s.cache j).u := by
    by_cases hj : j = i
    · rw [hj, BlockCache.set_self, hu]
    · rw [BlockCache.set_ne _ _ _ hj]
  have hres : (s.set i f).resident = s.resident := by
    funext j
    unfold BlockCache.resident
    rw [hbno, hdata]
  refine ⟨?_, fun j hj => ?_, fun p hp => ?_, fun j hj => ?_⟩
  · rw [hres]
    exact h.coherent
  · rw [hbno]
    exact h.bound j hj
  · rw [hbno]
    exact hheld p hp
  · by_cases hji : j = i
    · subst hji
      rw [BlockCache.set_self]
      exact hbusy
    · rw [BlockCache.set_ne _ _ _ hji, hrest j hji]
      exact h.busy j hj

theorem Holds.write (h : Holds nblocks s flat held) {i : Nat} {g : Mem → Mem} {flat' : Mem}
    (hi : i < ncache) (hb : (s.cache i).bno ≠ 0)
    (hflat : blocks flat' = Function.update (blocks flat) (s.cache i).bno
      (blockAt (g (s.cache i).u) 0)) :
    Holds nblocks (s.set i fun b => { b with u := g b.u }) flat' held := by
  have hsame (j : Nat) : ((s.set i fun b => { b with u := g b.u }).cache j).bno =
      (s.cache j).bno ∧ ((s.set i fun b => { b with u := g b.u }).cache j).busy =
      (s.cache j).busy := by
    by_cases hj : j = i
    · rw [hj, BlockCache.set_self]
      exact ⟨rfl, rfl⟩
    · rw [BlockCache.set_ne _ _ _ hj]
      exact ⟨rfl, rfl⟩
  refine ⟨?_, fun j hj => ?_, fun p hp => ?_, fun j hj => ?_⟩
  · rw [BlockCache.resident_set hi hb, hflat]
    exact h.coherent.write (BlockCache.resident_some.2 ⟨hi, hb, rfl, rfl⟩) _
  · rw [(hsame j).1]
    exact h.bound j hj
  · rw [(hsame _).1]
    exact h.pointers p hp
  · rw [(hsame j).2]
    exact h.busy j hj

/-! ## The operations keep it -/

theorem BlockCache.out_eq {i : Nat} {clr : Bool} {type : BlockType} : s.out i clr type =
    if (s.cache i).type = type ∨ ((s.cache i).busy + 1) % 2 ^ 32 = 1 then
      some ((({ s with t := (s.t + 1) % 2 ^ 32 }).set i fun b =>
        { b with u := if clr then b.u.fill 0 blksize 0 else b.u }).set i fun b =>
        { b with
          used := (s.t + 1) % 2 ^ 32
          busy := (b.busy + 1) % 2 ^ 32
          type := type }, i)
    else none := by
  unfold BlockCache.out
  simp only [BlockCache.set_self, BlockCache.set_set]

abbrev cleared (clr : Bool) (flat : Mem) (bno : Nat) : Mem :=
  if clr then flat.fill (1024 * bno) blksize 0 else flat

theorem Holds.out (h : Holds nblocks s flat held) {i : Nat} {clr : Bool} {type : BlockType}
    (hi : i < ncache) (hb : (s.cache i).bno ≠ 0) (hlen : held.length + 1 < 2 ^ 32)
    {r : BlockCache × Nat} (hr : s.out i clr type = some r) :
    r.2 = i ∧ r.1.t = (s.t + 1) % 2 ^ 32 ∧
      Holds nblocks r.1 (cleared clr flat (s.cache i).bno) ((i, (s.cache i).bno) :: held) ∧
      (r.1.cache i).bno = (s.cache i).bno ∧ (r.1.cache i).used = (s.t + 1) % 2 ^ 32 ∧
      ∀ j, j ≠ i → r.1.cache j = s.cache j := by
  rw [BlockCache.out_eq] at hr
  split at hr
  · cases hr
    have ht : Holds nblocks { s with t := (s.t + 1) % 2 ^ 32 } flat held :=
      ⟨h.coherent, h.bound, h.pointers, h.busy⟩
    have hw : Holds nblocks (({ s with t := (s.t + 1) % 2 ^ 32 }).set i fun b =>
        { b with u := if clr then b.u.fill 0 blksize 0 else b.u })
        (cleared clr flat (s.cache i).bno) held := by
      refine ht.write (g := fun u => if clr then u.fill 0 blksize 0 else u) hi hb ?_
      cases clr with
      | false =>
        simp only [cleared, Bool.false_eq_true, if_false]
        rw [h.data hi hb, Function.update_eq_self]
      | true =>
        simp only [cleared, if_true]
        rw [blocks_fill]
        congr 1
        funext x
        exact (Mem.fill_of_mem (Nat.zero_le _) (by omega)).symm
    refine ⟨rfl, rfl, ?_, ?_, ?_, fun j hj => ?_⟩
    · refine hw.recount (f := fun b => { b with
        used := (s.t + 1) % 2 ^ 32, busy := (b.busy + 1) % 2 ^ 32, type := type })
        hi rfl rfl (fun p hp => ?_) ?_ fun j hj => ?_
      · rcases List.mem_cons.1 hp with rfl | hp
        · refine ⟨hi, hb, ?_⟩
          rw [BlockCache.set_self]
        · exact hw.pointers p hp
      · rw [BlockCache.set_self, List.countP_cons_of_pos (by simp)]
        dsimp only
        have hle := List.countP_le_length (p := fun p : Nat × Nat => p.1 = i) (l := held)
        rw [h.busy i hi, Nat.mod_eq_of_lt (by omega)]
      · rw [List.countP_cons_of_neg (by simpa using Ne.symm hj)]
    · rw [BlockCache.set_self, BlockCache.set_self]
    · rw [BlockCache.set_self]
    · rw [BlockCache.set_ne _ _ _ hj, BlockCache.set_ne _ _ _ hj]
  · cases hr

theorem ospfsBlock_bno {b : Nat} (hn : nblocks ≤ 8192) (hb : b < nblocks) :
    ospfsBlock b = 1024 * b := ospfsBlock_of_lt (by omega)

theorem Holds.flushb (h : Holds nblocks s flat held) {i : Nat} (hn : nblocks ≤ 8192)
    (hi : i < ncache) (hb : (s.cache i).bno ≠ 0) :
    Holds nblocks (s.flushb i) flat held ∧
      blocks (s.flushb i).disk (s.cache i).bno = blockAt (s.cache i).u 0 := by
  have hdisk : blocks (s.flushb i).disk =
      Function.update (blocks s.disk) (s.cache i).bno (blockAt (s.cache i).u 0) := by
    rw [BlockCache.flushb_eq, ospfsBlock_bno hn (h.bound i hi)]
    exact blocks_copy _ _ _
  refine ⟨⟨?_, ?_, ?_, ?_⟩, ?_⟩
  · rw [hdisk, BlockCache.flushb_eq]
    exact h.coherent.flush (BlockCache.resident_some.2 ⟨hi, hb, rfl, rfl⟩)
  · rw [BlockCache.flushb_eq]
    exact h.bound
  · rw [BlockCache.flushb_eq]
    exact h.pointers
  · rw [BlockCache.flushb_eq]
    exact h.busy
  · rw [hdisk, Function.update_self]

theorem Holds.load (h : Holds nblocks s flat held) {i bno : Nat} {type : BlockType}
    (hn : nblocks ≤ 8192) (hi : i < ncache) (hidle : (s.cache i).busy = 0)
    (hsaved : (s.cache i).bno ≠ 0 → blocks s.disk (s.cache i).bno = blockAt (s.cache i).u 0)
    (h1 : 1 ≤ bno) (hbno : bno < nblocks) (hmiss : ∀ j < ncache, (s.cache j).bno ≠ bno) :
    Holds nblocks (s.set i fun b => { b with
      u := b.u.copy s.disk 0 (ospfsBlock bno) blksize, bno := bno, busy := 0, type := type })
      flat held := by
  have hdrop : WriteBack.Coherent (Function.update s.resident i none) (blocks s.disk)
      (blocks flat) := by
    refine h.coherent.drop fun k d hk => ?_
    obtain ⟨-, hk0, rfl, rfl⟩ := BlockCache.resident_some.1 hk
    exact hsaved hk0
  have hload := hdrop.load (k := bno) (Function.update_self _ _ _) fun ⟨j, d, hj⟩ => by
    by_cases hji : j = i
    · subst hji
      rw [Function.update_self] at hj
      cases hj
    · rw [Function.update_of_ne hji] at hj
      obtain ⟨hjn, -, hjb, -⟩ := BlockCache.resident_some.1 hj
      exact hmiss j hjn hjb
  rw [Function.update_idem] at hload
  have hno (p : Nat × Nat) (hp : p ∈ held) : p.1 ≠ i := by
    rintro rfl
    have hc := h.busy _ hi
    rw [hidle] at hc
    have := List.countP_eq_zero.1 hc.symm p hp
    simp at this
  refine ⟨?_, fun j hj => ?_, fun p hp => ?_, fun j hj => ?_⟩
  · rw [BlockCache.resident_set hi (by dsimp only; omega)]
    have hdata : blockAt ((s.cache i).u.copy s.disk 0 (ospfsBlock bno) blksize) 0 =
        blocks s.disk bno := by
      funext x
      unfold blocks blockAt Mem.copy
      have hx := x.isLt
      rw [if_pos (by omega), ospfsBlock_bno hn hbno]
      congr 2
      omega
    dsimp only
    rw [hdata]
    exact hload
  · by_cases hji : j = i
    · rw [hji, BlockCache.set_self]
      exact hbno
    · rw [BlockCache.set_ne _ _ _ hji]
      exact h.bound j hj
  · rw [BlockCache.set_ne _ _ _ (hno p hp)]
    exact h.pointers p hp
  · by_cases hji : j = i
    · subst hji
      rw [BlockCache.set_self, ← h.busy j hj, hidle]
    · rw [BlockCache.set_ne _ _ _ hji]
      exact h.busy j hj

theorem BlockCache.getblk_miss {bno i : Nat} {clr : Bool} {type : BlockType}
    (hbno : bno < nblocks) (h : s.scan bno ncache none = .miss (some i)) :
    s.getblk nblocks bno clr type =
      let s := if (s.cache i).used ≠ 0 then s.flushb i else s
      (s.set i fun b => { b with
        u := b.u.copy s.disk 0 (ospfsBlock bno) blksize
        bno := bno
        busy := 0
        type := type }).out i clr type := by
  unfold BlockCache.getblk
  rw [if_neg (by omega), h]
  simp only [swizzleblock_eq, set_id, ite_self, set_set]

/-- The invariant of a client that has called `getblk` `calls` times. -/
structure CacheInv (nblocks calls : Nat) (c : Client) : Prop where
  holds : Holds nblocks c.s c.flat c.held
  stamped : ∀ i < ncache, c.s.Stamped i
  t : c.s.t = 1 + calls
  pointers : c.held.length ≤ calls

theorem cacheInv_start (nblocks : Nat) (hn : 1 ≤ nblocks) :
    CacheInv nblocks 0 { s := { disk := fun _ => 0 }, flat := fun _ => 0, held := [] } := by
  refine ⟨⟨?_, fun _ _ => hn, ?_, fun _ _ => rfl⟩, fun _ _ => Iff.rfl, rfl, Nat.le_refl _⟩
  · have hres : ({ disk := fun _ => 0 } : BlockCache).resident = fun _ => none := by
      funext i
      exact if_neg fun h => h.2 rfl
    dsimp only
    rw [hres]
    exact WriteBack.coherent_empty
  · rintro p ⟨⟩

variable {c : Client} {calls : Nat}

/-- After the scan the block is in slot `i`, and `out` completes the call. -/
theorem CacheInv.out (h : CacheInv nblocks calls c) (hcalls : calls + 1 < 2 ^ 32 - 1)
    {s1 : BlockCache} {i bno : Nat} {clr : Bool} {type : BlockType} {r : BlockCache × Nat}
    (hs : Holds nblocks s1 c.flat c.held) (ht : s1.t = c.s.t)
    (hstamp : ∀ j < ncache, j ≠ i → s1.Stamped j) (hi : i < ncache) (h1 : 1 ≤ bno)
    (hb : (s1.cache i).bno = bno) (hr : s1.out i clr type = some r) :
    CacheInv nblocks (calls + 1)
      { s := r.1, flat := cleared clr c.flat bno, held := (r.2, bno) :: c.held } := by
  subst hb
  have hlen := h.pointers
  obtain ⟨hri, hrt, hrh, hrb, hru, hrest⟩ := hs.out hi (by omega) (by omega) hr
  rw [ht, h.t, Nat.mod_eq_of_lt (by omega)] at hrt hru
  refine ⟨by rw [hri]; exact hrh, fun j hj => ?_, by dsimp only; omega, ?_⟩
  · unfold BlockCache.Stamped
    dsimp only
    by_cases hji : j = i
    · subst hji
      rw [hru, hrb]
      omega
    · rw [hrest j hji]
      exact hstamp j hj hji
  · rw [List.length_cons]
    omega

theorem CacheInv.getblk (h : CacheInv nblocks calls c) (hn : nblocks ≤ 8192)
    (hcalls : calls + 1 < 2 ^ 32 - 1) {bno i : Nat} {clr : Bool} {type : BlockType}
    {s' : BlockCache} (h1 : 1 ≤ bno) (hbno : bno < nblocks)
    (hg : c.s.getblk nblocks bno clr type = some (s', i)) :
    CacheInv nblocks (calls + 1)
      { s := s', flat := cleared clr c.flat bno, held := (i, bno) :: c.held } := by
  cases hscan : c.s.scan bno ncache none with
  | hit j =>
    unfold BlockCache.getblk at hg
    rw [if_neg (by omega), hscan] at hg
    obtain ⟨hj, hjb⟩ := BlockCache.scan_hit hscan
    exact h.out hcalls h.holds rfl (fun k hk _ => h.stamped k hk) hj h1 hjb hg
  | miss least =>
    cases least with
    | none =>
      unfold BlockCache.getblk at hg
      rw [if_neg (by omega), hscan] at hg
      cases hg
    | some j =>
      rw [BlockCache.getblk_miss hbno hscan] at hg
      obtain ⟨hj, hidle⟩ := (BlockCache.scan_some hscan).resolve_left (by simp)
      have hmiss := fun k hk =>
        BlockCache.scan_miss hscan (Nat.le_refl _) k (by rw [Nat.sub_self]; omega) hk
      -- the slot's old block is on the disk
      obtain ⟨s1, hs1, hholds, hcache, ht, hsaved⟩ : ∃ s1 : BlockCache,
          (if (c.s.cache j).used ≠ 0 then c.s.flushb j else c.s) = s1 ∧
          Holds nblocks s1 c.flat c.held ∧ s1.cache = c.s.cache ∧ s1.t = c.s.t ∧
          ((s1.cache j).bno ≠ 0 →
            blocks s1.disk (s1.cache j).bno = blockAt (s1.cache j).u 0) := by
        refine ⟨_, rfl, ?_⟩
        have hst := h.stamped j hj
        unfold BlockCache.Stamped at hst
        split
        · next hu =>
          obtain ⟨hf, hd⟩ := h.holds.flushb hn hj (fun hb => hu (hst.2 hb))
          rw [BlockCache.flushb_eq] at hf hd ⊢
          exact ⟨hf, rfl, rfl, fun _ => hd⟩
        · next hu =>
          exact ⟨h.holds, rfl, rfl, fun hb => absurd (hst.1 (by omega)) hb⟩
      rw [hs1] at hg
      have hload : Holds nblocks (s1.set j fun b => { b with
          u := b.u.copy s1.disk 0 (ospfsBlock bno) blksize, bno := bno, busy := 0, type := type })
          c.flat c.held :=
        hholds.load hn hj (by rw [hcache]; exact hidle) hsaved h1 hbno (by rw [hcache]; exact hmiss)
      refine h.out hcalls hload ht (fun k hk hkj => ?_) hj h1 ?_ hg
      · unfold BlockCache.Stamped
        rw [BlockCache.set_ne _ _ _ hkj, hcache]
        exact h.stamped k hk
      · rw [BlockCache.set_self]

theorem CacheInv.store (h : CacheInv nblocks calls c) {p : Nat × Nat} (hp : p ∈ c.held)
    {off : Nat} {bytes : Bytes} (hlen : off + bytes.length ≤ blksize) :
    CacheInv nblocks calls { c with
      s := c.s.store p.1 off bytes, flat := c.flat.store (1024 * p.2 + off) bytes } := by
  obtain ⟨hi, hb, hpb⟩ := h.holds.pointers p hp
  refine ⟨?_, fun j hj => ?_, h.t, h.pointers⟩
  · refine h.holds.write (g := fun u => u.store off bytes) hi (by rw [hpb]; exact hb) ?_
    rw [hpb]
    apply blocks_store
    · rw [h.holds.data hi (by rw [hpb]; exact hb), hpb]
    · exact hlen
  · have hst := h.stamped j hj
    unfold BlockCache.Stamped BlockCache.store at *
    dsimp only
    by_cases hji : j = p.1
    · subst hji
      rw [BlockCache.set_self]
      exact hst
    · rw [BlockCache.set_ne _ _ _ hji]
      exact hst

theorem CacheInv.putblk (h : CacheInv nblocks calls c) (hcalls : calls < 2 ^ 32 - 1)
    {p : Nat × Nat} (hp : p ∈ c.held) :
    CacheInv nblocks calls { c with s := c.s.putblk p.1, held := c.held.erase p } := by
  obtain ⟨hi, hb, hpb⟩ := h.holds.pointers p hp
  have hlen := h.pointers
  refine ⟨?_, fun j hj => ?_, h.t, ?_⟩
  · refine h.holds.recount (f := fun b => { b with busy := (b.busy + (2 ^ 32 - 1)) % 2 ^ 32 })
      hi rfl rfl (fun q hq => h.holds.pointers q (List.mem_of_mem_erase hq)) ?_ fun j hj => ?_
    · have hpos : 0 < c.held.countP fun q => q.1 = p.1 :=
        List.countP_pos_iff.2 ⟨p, hp, by simp⟩
      have hle := List.countP_le_length (p := fun q : Nat × Nat => q.1 = p.1) (l := c.held)
      dsimp only
      rw [h.holds.busy _ hi, List.countP_erase, if_pos ⟨hp, by simp⟩]
      omega
    · rw [List.countP_erase, if_neg]
      · rfl
      · simpa [hp] using Ne.symm hj
  · have hst := h.stamped j hj
    unfold BlockCache.Stamped BlockCache.putblk at *
    dsimp only
    by_cases hji : j = p.1
    · subst hji
      rw [BlockCache.set_self]
      exact hst
    · rw [BlockCache.set_ne _ _ _ hji]
      exact hst
  · dsimp only
    rw [List.length_erase_of_mem hp]
    omega

theorem CacheInv.step {a : Op} {c' : Client} (hn : nblocks ≤ 8192)
    (hcalls : calls + 1 < 2 ^ 32 - 1 ∨ a.isGetblk = false ∧ calls < 2 ^ 32 - 1)
    (h : CacheInv nblocks calls c) (hs : Client.Step nblocks c a c') :
    CacheInv nblocks (calls + if a.isGetblk then 1 else 0) c' := by
  cases hs with
  | getblk h1 hbno _ hg =>
    refine h.getblk hn ?_ h1 hbno hg
    rcases hcalls with hlt | ⟨hf, -⟩
    · exact hlt
    · cases hf
  | store hp hlen => exact h.store hp hlen
  | putblk hp => exact h.putblk (by omega) hp

theorem run_cacheInv (hn : nblocks ≤ 8192) (h1 : 1 ≤ nblocks) {h : List Op} {c : Client}
    (hr : (client nblocks).Run h c) (hcalls : h.countP Op.isGetblk < 2 ^ 32 - 1) :
    CacheInv nblocks (h.countP Op.isGetblk) c := by
  revert hcalls
  refine hr.inv (I := fun h c => h.countP Op.isGetblk < 2 ^ 32 - 1 →
    CacheInv nblocks (h.countP Op.isGetblk) c) ?_ ?_
  · rintro c rfl -
    exact cacheInv_start nblocks h1
  · intro h c a c' ih _ hs hcalls
    rw [List.countP_cons] at hcalls ⊢
    refine (ih (by omega)).step hn ?_ hs
    cases ha : a.isGetblk with
    | true => exact .inl (by rw [ha, if_pos rfl] at hcalls; exact hcalls)
    | false => exact .inr ⟨rfl, by omega⟩

/-! ## What the client sees -/

theorem Holds.flushFrom {n : Nat} (hn : nblocks ≤ 8192) : ∀ {s : BlockCache},
    Holds nblocks s flat held → (∀ i < ncache, s.Stamped i) → n ≤ ncache →
    (∀ j < ncache - n, (s.cache j).bno ≠ 0 →
      blocks s.disk (s.cache j).bno = blockAt (s.cache j).u 0) →
    ∀ k, blocks (s.flushFrom n).disk k = blocks flat k := by
  induction n with
  | zero =>
    intro s h _ _ hsaved k
    refine h.coherent.store_eq (fun i k d hi => ?_) k
    obtain ⟨hin, hk, rfl, rfl⟩ := BlockCache.resident_some.1 hi
    exact hsaved i hin hk
  | succ n ih =>
    intro s h hst hnc hsaved
    rw [BlockCache.flushFrom]
    have hi : ncache - (n + 1) < ncache := by unfold ncache; omega
    generalize hi' : ncache - (n + 1) = i at hi hsaved
    have hsti := hst i hi
    unfold BlockCache.Stamped at hsti
    split
    · next hu =>
      have hb : (s.cache i).bno ≠ 0 := fun hb => hu (hsti.2 hb)
      obtain ⟨hf, hd⟩ := h.flushb hn hi hb
      have hcache : (s.flushb i).cache = s.cache := by rw [BlockCache.flushb_eq]
      refine ih hf ?_ (by omega) fun j hj hjb => ?_
      · intro j hj
        unfold BlockCache.Stamped
        rw [hcache]
        exact hst j hj
      · rw [hcache] at hjb ⊢
        by_cases hji : j = i
        · subst hji
          exact hd
        · have hjn : j < ncache := by omega
          have hne : (s.cache j).bno ≠ (s.cache i).bno := fun he =>
            hji (h.coherent.distinct j i _ _ _ (BlockCache.resident_some.2 ⟨hjn, hjb, rfl, rfl⟩)
              (BlockCache.resident_some.2 ⟨hi, he ▸ hjb, he.symm, rfl⟩))
          rw [BlockCache.flushb_eq, ospfsBlock_bno hn (h.bound i hi)]
          dsimp only
          rw [blocks_copy, Function.update_of_ne hne]
          exact hsaved j (by omega) hjb
    · next hu =>
      refine ih h hst (by omega) fun j hj hjb => ?_
      by_cases hji : j = i
      · subst hji
        exact absurd (hsti.1 (by omega)) hjb
      · exact hsaved j (by omega) hjb

theorem Holds.pointer_of_busy (h : Holds nblocks s flat held) {i : Nat} (hi : i < ncache)
    (hb : (s.cache i).busy ≠ 0) : (i, (s.cache i).bno) ∈ held ∧ (s.cache i).bno ≠ 0 := by
  rw [h.busy i hi] at hb
  obtain ⟨p, hp, hpi⟩ := List.countP_pos_iff.1 (Nat.pos_of_ne_zero hb)
  obtain rfl : p.1 = i := by simpa using hpi
  obtain ⟨-, h0, hpb⟩ := h.pointers p hp
  rw [hpb]
  exact ⟨hp, h0⟩

theorem CacheInv.getblk_returns (h : CacheInv nblocks calls c) {bno : Nat} {clr : Bool}
    {type : BlockType} (h1 : 1 ≤ bno) (hbno : bno < nblocks) (hroom : c.Room bno)
    (htype : ∀ p ∈ c.held, p.2 = bno → (c.s.cache p.1).type = type) :
    ∃ r, c.s.getblk nblocks bno clr type = some r := by
  cases hscan : c.s.scan bno ncache none with
  | hit j =>
    obtain ⟨hj, hjb⟩ := BlockCache.scan_hit hscan
    have hok : (c.s.cache j).type = type ∨ ((c.s.cache j).busy + 1) % 2 ^ 32 = 1 := by
      by_cases hidle : (c.s.cache j).busy = 0
      · rw [hidle]
        exact .inr rfl
      · exact .inl (htype _ (h.holds.pointer_of_busy hj hidle).1 hjb)
    unfold BlockCache.getblk
    rw [if_neg (by omega), hscan]
    dsimp only
    rw [BlockCache.out_eq, if_pos hok]
    exact ⟨_, rfl⟩
  | miss least =>
    cases least with
    | none =>
      -- sixteen busy blocks, and none of them is the one asked for
      exfalso
      have hmiss := BlockCache.scan_miss hscan (Nat.le_refl _)
      have hbusy := (BlockCache.scan_none hscan (Nat.le_refl _)).2
      rw [Nat.sub_self] at hmiss hbusy
      have hheld (i : Nat) (hi : i < ncache) := h.holds.pointer_of_busy hi (hbusy i i.zero_le hi)
      have hnodup : (bno :: (List.range ncache).map fun i => (c.s.cache i).bno).Nodup := by
        refine List.nodup_cons.2 ⟨fun hmem => ?_, List.Nodup.map_on ?_ List.nodup_range⟩
        · obtain ⟨i, hi, hb⟩ := List.mem_map.1 hmem
          exact hmiss i i.zero_le (List.mem_range.1 hi) hb
        · intro i hi j hj he
          rw [List.mem_range] at hi hj
          have hb := (hheld j hj).2
          exact h.holds.coherent.distinct i j _ _ _
            (BlockCache.resident_some.2 ⟨hi, hb, he, rfl⟩)
            (BlockCache.resident_some.2 ⟨hj, hb, rfl, rfl⟩)
      have hsub : (bno :: (List.range ncache).map fun i => (c.s.cache i).bno) ⊆
          (bno :: c.held.map Prod.snd).dedup := by
        intro b hb
        rw [List.mem_dedup]
        rcases List.mem_cons.1 hb with rfl | hb
        · exact List.mem_cons_self
        · obtain ⟨i, hi, rfl⟩ := List.mem_map.1 hb
          exact List.mem_cons_of_mem _ (List.mem_map_of_mem (hheld i (List.mem_range.1 hi)).1)
      have hle := hnodup.length_le_of_subset hsub
      rw [List.length_cons, List.length_map, List.length_range] at hle
      exact Nat.not_succ_le_self _ (Nat.le_trans hle hroom)
    | some j =>
      rw [BlockCache.getblk_miss hbno hscan]
      dsimp only
      rw [BlockCache.out_eq, BlockCache.set_self, if_pos (.inl rfl)]
      exact ⟨_, rfl⟩

/-- The cache cannot be told from plain blocks: a pointer leads to the bytes last left in its
block, no block is cached twice, `flushdisk` brings all blocks to the disk, and `getblk`
returns where at most 16 blocks are busy and none of them with two types. -/
structure Transparent (nblocks : Nat) (c : Client) : Prop where
  pointers : ∀ p ∈ c.held, p.1 < ncache ∧ (c.s.cache p.1).bno = p.2 ∧
    ∀ x < blksize, (c.s.cache p.1).u x = c.flat (1024 * p.2 + x)
  distinct : ∀ i < ncache, ∀ j < ncache, 1 ≤ (c.s.cache i).bno →
    (c.s.cache i).bno = (c.s.cache j).bno → i = j
  flushed : ∀ b < nblocks, ∀ x < blksize,
    c.s.flushdisk.disk (1024 * b + x) = c.flat (1024 * b + x)
  returns : ∀ bno clr type, 1 ≤ bno → bno < nblocks → c.Room bno →
    (∀ p ∈ c.held, p.2 = bno → (c.s.cache p.1).type = type) →
    ∃ r, c.s.getblk nblocks bno clr type = some r

theorem CacheInv.transparent (hn : nblocks ≤ 8192) (h : CacheInv nblocks calls c) :
    Transparent nblocks c where
  pointers p hp := by
    obtain ⟨hi, h0, hb⟩ := h.holds.pointers p hp
    refine ⟨hi, hb, fun x hx => ?_⟩
    have hdata := blockAt_eq.1 (h.holds.data hi (by rw [hb]; exact h0)) x hx
    rwa [Nat.zero_add, hb] at hdata
  distinct i hi j hj h1 he :=
    h.holds.coherent.distinct i j _ _ _
      (BlockCache.resident_some.2 ⟨hi, by omega, rfl, rfl⟩)
      (BlockCache.resident_some.2 ⟨hj, by omega, he.symm, rfl⟩)
  flushed b _ := by
    refine blockAt_eq.1 (h.holds.flushFrom hn h.stamped (Nat.le_refl _) (fun j hj => ?_) b)
    rw [Nat.sub_self] at hj
    exact absurd hj (Nat.not_lt_zero j)
  returns _ _ _ h1 hbno hroom htype := h.getblk_returns h1 hbno hroom htype

/-! ## The use counter -/

/-- Slot 0 after block 1 was got `n` times, `busy` of them without `putblk`. -/
def worn (n busy : Nat) : BlockCache :=
  ({ disk := fun _ => 0, t := (1 + n) % 2 ^ 32 } : BlockCache).set 0 fun _ =>
    { bno := 1, type := .bits, busy := busy, used := (1 + n) % 2 ^ 32 }

theorem worn_getblk (n : Nat) :
    (worn n 0).getblk 2 1 false .bits = some (worn (n + 1) 1, 0) := by
  have hscan : (worn n 0).scan 1 ncache none = .hit 0 := by
    rw [BlockCache.scan]
    exact if_pos rfl
  have hmod : ((1 + n) % 2 ^ 32 + 1) % 2 ^ 32 = (1 + (n + 1)) % 2 ^ 32 := by
    rw [Nat.mod_add_mod, Nat.add_assoc]
  unfold BlockCache.getblk
  rw [if_neg (by decide), hscan]
  dsimp only
  rw [BlockCache.out_eq, if_pos (.inl rfl)]
  simp only [worn, BlockCache.set, hmod, Function.update_self, Function.update_idem]
  rfl

theorem start_getblk : BlockCache.getblk 2 { disk := fun _ => 0 } 1 false .bits =
    some (worn 1 1, 0) := by
  have hscan : ({ disk := fun _ => 0 } : BlockCache).scan 1 ncache none = .miss (some 0) := rfl
  have hzero : Mem.copy (fun _ => 0) (fun _ => 0) 0 (ospfsBlock 1) blksize = fun _ => 0 := by
    funext x
    unfold Mem.copy
    split <;> rfl
  rw [BlockCache.getblk_miss (by decide) hscan]
  dsimp only
  rw [if_neg (by decide), BlockCache.out_eq, BlockCache.set_self, if_pos (.inl rfl)]
  simp only [worn, BlockCache.set, hzero, Function.update_self, Function.update_idem]
  rfl

theorem worn_putblk (n : Nat) : (worn n 1).putblk 0 = worn n 0 := by
  unfold BlockCache.putblk
  simp only [worn, BlockCache.set, Function.update_self, Function.update_idem]
  rfl

/-- The client that has just got block 1 for the `n`th time. -/
abbrev wornClient (n : Nat) : Client := { s := worn n 1, flat := fun _ => 0, held := [(0, 1)] }

theorem room_of_none {s : BlockCache} {flat : Mem} :
    Client.Room { s := s, flat := flat, held := [] } 1 := by
  change ([1] : List Nat).dedup.length ≤ ncache
  decide

theorem wornClient_first :
    Client.Step 2 { s := { disk := fun _ => 0 }, flat := fun _ => 0, held := [] }
      (.getblk 1 false .bits) (wornClient 1) :=
  .getblk (by decide) (by decide) room_of_none start_getblk

theorem wornClient_step (n : Nat) : ∃ c, Client.Step 2 (wornClient n) (.putblk (0, 1)) c ∧
    Client.Step 2 c (.getblk 1 false .bits) (wornClient (n + 1)) := by
  have hput : Client.Step 2 (wornClient n) (.putblk (0, 1))
      { s := (worn n 1).putblk 0, flat := fun _ => 0, held := [] } :=
    .putblk (List.mem_singleton_self _)
  rw [worn_putblk] at hput
  exact ⟨_, hput, .getblk (by decide) (by decide) room_of_none (worn_getblk n)⟩

theorem run_worn (n : Nat) : ∃ h, (client 2).Run h (wornClient (n + 1)) := by
  induction n with
  | zero => exact ⟨_, .step (.init rfl) trivial wornClient_first⟩
  | succ n ih =>
    obtain ⟨h, hr⟩ := ih
    obtain ⟨c, hput, hget⟩ := wornClient_step (n + 1)
    exact ⟨_, .step (.step hr trivial hput) trivial hget⟩

/-- **The block cache is transparent** until the use counter comes back to 0: in every run
with fewer than `2 ^ 32 - 1` calls of `getblk`. -/
theorem cache_transparent {nblocks : Nat} (h2 : 2 ≤ nblocks) (hn : nblocks ≤ 8192)
    {h : List Op} {c : Client} (hr : (client nblocks).Run h c)
    (hcalls : h.countP Op.isGetblk < 2 ^ 32 - 1) : Transparent nblocks c :=
  (run_cacheInv hn (by omega) hr hcalls).transparent hn

def Client.next (nblocks : Nat) (c : Client) : Op → Option Client
  | .getblk bno clr type =>
    if 1 ≤ bno ∧ bno < nblocks ∧ (bno :: c.held.map Prod.snd).dedup.length ≤ ncache then
      (c.s.getblk nblocks bno clr type).map fun r =>
        { s := r.1
          flat := if clr then c.flat.fill (1024 * bno) blksize 0 else c.flat
          held := (r.2, bno) :: c.held }
    else none
  | .store p off bytes =>
    if p ∈ c.held ∧ off + bytes.length ≤ blksize then
      some { c with
        s := c.s.store p.1 off bytes
        flat := c.flat.store (1024 * p.2 + off) bytes }
    else none
  | .putblk p =>
    if p ∈ c.held then some { c with s := c.s.putblk p.1, held := c.held.erase p } else none

theorem Client.step_of_next {nblocks : Nat} {c c' : Client} {a : Op}
    (h : c.next nblocks a = some c') : Client.Step nblocks c a c' := by
  cases a with
  | getblk bno clr type =>
    simp only [Client.next] at h
    split at h
    · next hb =>
      obtain ⟨⟨s', i⟩, hget, rfl⟩ := Option.map_eq_some_iff.1 h
      exact .getblk hb.1 hb.2.1 hb.2.2 hget
    · cases h
  | store p off bytes =>
    simp only [Client.next] at h
    split at h
    · next hp =>
      cases h
      exact .store hp.1 hp.2
    · cases h
  | putblk p =>
    simp only [Client.next] at h
    split at h
    · next hp =>
      cases h
      exact .putblk hp
    · cases h

/-- A byte is stored in block 1, and sixteen other blocks are got and given back. -/
def evicting : List Op :=
  [.getblk 1 false .bits, .store (0, 1) 0 [7], .putblk (0, 1)] ++
    (List.range 16).flatMap fun k => [.getblk (k + 2) false .file, .putblk ((k + 1) % 16, k + 2)]

/-- The last of them takes the slot of block 1, and the byte is on the disk. -/
theorem cache_transparent_evicting : ∃ c, (client 18).Run evicting.reverse c ∧
    (c.s.cache 0).bno = 17 ∧ c.s.disk 1024 = 7 ∧ Transparent 18 c := by
  have hrun : (System.execIf (fun _ _ => true) (fun c a => Client.next 18 c a)
      { s := { disk := fun _ => 0 }, flat := fun _ => 0, held := [] } evicting).map
        (fun c => ((c.s.cache 0).bno, c.s.disk 1024)) = some (17, 7) := by decide +kernel
  obtain ⟨c, hc, he⟩ := Option.map_eq_some_iff.1 hrun
  rw [Prod.mk.injEq] at he
  have hr := System.runIf_of_execIf (M := client 18) (G := fun _ _ => True)
    (fun _ _ _ _ hs => ⟨trivial, Client.step_of_next hs⟩) rfl hc
  exact ⟨c, hr, he.1, he.2, cache_transparent (by decide) (by decide) hr (by decide)⟩

theorem BlockCache.flushFrom_unused (h : ∀ i, (s.cache i).used = 0) (n : Nat) :
    s.flushFrom n = s := by
  induction n with
  | zero => rfl
  | succ n ih =>
    rw [BlockCache.flushFrom, if_neg (by rw [h]; simp)]
    exact ih

/-- The call of `getblk` that brings the counter back to 0 marks the block unused:
`flushdisk` leaves it out. And a block that is busy with one type cannot be got with
another. -/
theorem cache_counter_wraps : (∃ h c, (client 2).Run h c ∧ ¬ Transparent 2 c) ∧
    ∃ h c, (client 2).Run h c ∧ c.Room 1 ∧ c.s.getblk 2 1 false .dir = none := by
  refine ⟨?_, _, _, .step (.init rfl) trivial wornClient_first, ?_, rfl⟩
  case refine_2 =>
    change ([1, 1] : List Nat).dedup.length ≤ ncache
    decide
  obtain ⟨h, hr⟩ := run_worn (2 ^ 32 - 2)
  have hstore : Client.Step 2 (wornClient (2 ^ 32 - 2 + 1)) (.store (0, 1) 0 [1])
      { s := (worn (2 ^ 32 - 2 + 1) 1).store 0 0 [1]
        flat := Mem.store (fun _ => 0) 1024 [1]
        held := [(0, 1)] } :=
    .store (List.mem_singleton_self _) (by decide)
  refine ⟨_, _, .step hr trivial hstore, fun ht => ?_⟩
  have hun (i : Nat) : (((worn (2 ^ 32 - 2 + 1) 1).store 0 0 [1]).cache i).used = 0 := by
    unfold BlockCache.store worn
    by_cases hi : i = 0
    · rw [hi, BlockCache.set_self, BlockCache.set_self]
      decide
    · rw [BlockCache.set_ne _ _ _ hi, BlockCache.set_ne _ _ _ hi]
  have hfl := ht.flushed 1 (by decide) 0 (by decide)
  dsimp only at hfl
  unfold BlockCache.flushdisk at hfl
  rw [BlockCache.flushFrom_unused hun] at hfl
  exact absurd hfl (by decide)

end OsLabs.Ospfs
