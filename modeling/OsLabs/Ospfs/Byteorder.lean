import OsLabs.Ospfs.Swizzle

/-!
# OSPFS: the formatter on hosts of either byte order

`getblk` and `flushb` of `ospfsformat.c` with `swizzleblock` as it is on the host, and the
formatter run on this cache. Addresses of the formatter's programs are looked up in the slot
that holds their block. The runs on two hosts keep the same slots, with the numbers in them
turned round.
-/

namespace OsLabs.Ospfs

variable {u v : Mem} {a i w x : Nat} {type : BlockType} {text text' : Nat → Bool}

namespace ByteOrder

variable (b : ByteOrder)

/-! ## The cache -/

def flushb (s : BlockCache) (i : Nat) : BlockCache :=
  let s := s.set i fun c => { c with u := b.swizzleblock c.type c.u }
  let s := { s with
    disk := s.disk.copy (s.cache i).u (ospfsBlock (s.cache i).bno) 0 blksize }
  s.set i fun c => { c with u := b.swizzleblock c.type c.u }

def getblk (nblocks : Nat) (s : BlockCache) (bno : Nat) (clr : Bool) (type : BlockType) :
    Option (BlockCache × Nat) :=
  if nblocks ≤ bno then none
  else
    match s.scan bno ncache none with
    | .hit i => s.out i clr type
    | .miss none => none
    | .miss (some i) =>
      let s := if (s.cache i).used ≠ 0 then b.flushb s i else s
      let s := s.set i fun c =>
        { c with u := c.u.copy s.disk 0 (ospfsBlock bno) blksize, bno := bno }
      let s := if clr then s else s.set i fun c => { c with u := b.swizzleblock c.type c.u }
      let s := s.set i fun c => { c with busy := 0, type := type }
      s.out i clr type

def flushFrom (s : BlockCache) : (n : Nat) → BlockCache
  | 0 => s
  | n + 1 =>
    let i := ncache - (n + 1)
    flushFrom (if (s.cache i).used ≠ 0 then b.flushb s i else s) n

/-! ## The formatter on the cache -/

def slotOf (s : BlockCache) (bno : Nat) : Option Nat :=
  match s.scan bno ncache none with
  | .hit i => some i
  | .miss _ => none

def run {α : Type} (nblocks : Nat) :
    BlockProg Globals BlockType α → Globals → BlockCache → Option (α × Globals × BlockCache)
  | .ret x, g, s => some (x, g, s)
  | .abort, _, _ => none
  | .get k, g, s => run nblocks (k g) g s
  | .set g' k, _, s => run nblocks k g' s
  | .getblk bno clr type k, g, s =>
    (b.getblk nblocks s bno clr type).bind fun r => run nblocks k g r.1
  | .putblk bno k, g, s => (slotOf s bno).bind fun i => run nblocks k g (s.putblk i)
  | .load32 a k, g, s => (slotOf s (a / 1024)).bind fun i =>
      run nblocks (k (b.load (s.cache i).u (a % 1024))) g s
  | .store32 a v k, g, s => (slotOf s (a / 1024)).bind fun i =>
      run nblocks k g (s.set i fun c => { c with u := b.store c.u (a % 1024) v })
  | .store a bytes k, g, s => (slotOf s (a / 1024)).bind fun i =>
      run nblocks k g (s.store i (a % 1024) bytes)

/-- The image file that is left. -/
def image (o : Options) : Option Mem :=
  (b.run o.nblocks (main o) ⟨0, 0, []⟩ { disk := fun _ => 0 }).map fun r =>
    (b.flushFrom r.2.2 ncache).disk

end ByteOrder

/-! ## The two runs, with the words marked that hold text -/

/-- The marks of a block, of those of the disk. -/
def wordsOf (text : Nat → Bool) (bno : Nat) : Nat → Bool := fun w => text (256 * bno + w)

/-- `swizzleblock` suits the block in a slot. -/
def BlockCache.suitsSlot (s : BlockCache) (text : Nat → Bool) (i : Nat) : Bool :=
  decide ((s.cache i).bno ≠ 0) &&
    suits (wordsOf text (s.cache i).bno) (s.cache i).type (s.cache i).u

/-- The block that `getblk` writes to the disk suits the type of its slot, and so does the
block that it then reads. -/
def BlockCache.suitsGetblk (s : BlockCache) (text : Nat → Bool) (bno : Nat) (clr : Bool) : Bool :=
  match s.scan bno ncache none with
  | .miss (some i) =>
    (decide ((s.cache i).used = 0) || s.suitsSlot text i) &&
      (clr ||
        let s := if (s.cache i).used ≠ 0 then s.flushb i else s
        suits (wordsOf text bno) (s.cache i).type
          ((s.cache i).u.copy s.disk 0 (ospfsBlock bno) blksize))
  | _ => true

/-- The words of the bytes from address `a` on become text, but `uniform` ones need no mark. -/
def marked (text : Nat → Bool) (a : Nat) (bytes : Bytes) : Nat → Bool :=
  if uniform a bytes then text
  else fun k =>
    text k || decide (0 < bytes.length ∧ a < 4 * k + 4 ∧ 4 * k < a + bytes.length)

/-- A run on a little-endian host: where `text` marks the words that were last stored as
bytes, blocks suit the types with which they are written and read back, numbers are loaded
from words of numbers, and bytes are stored over text. `Q` is checked at the end. -/
def suited (nblocks : Nat) {α : Type} : BlockProg Globals BlockType α →
    (Q : BlockCache → (Nat → Bool) → Bool) → Globals → BlockCache → (text : Nat → Bool) → Bool
  | .ret _, Q, _, s, text => Q s text
  | .abort, _, _, _, _ => true
  | .get k, Q, g, s, text => suited nblocks (k g) Q g s text
  | .set g' k, Q, _, s, text => suited nblocks k Q g' s text
  | .getblk bno clr type k, Q, g, s, text =>
    (decide (bno ≠ 0) && s.suitsGetblk text bno clr) &&
      (s.getblk nblocks bno clr type).all fun r => suited nblocks k Q g r.1 text
  | .putblk bno k, Q, g, s, text =>
    (ByteOrder.slotOf s bno).all fun i => suited nblocks k Q g (s.putblk i) text
  | .load32 a k, Q, g, s, text =>
    decide (1024 ≤ a ∧ a % 4 = 0) && (ByteOrder.slotOf s (a / 1024)).all fun i =>
      (!text (a / 4) || palindrome (s.cache i).u (a % 1024 / 4)) &&
        suited nblocks (k ((s.cache i).u.get32 (a % 1024))) Q g s text
  | .store32 a v k, Q, g, s, text =>
    decide (1024 ≤ a ∧ a % 4 = 0) && (ByteOrder.slotOf s (a / 1024)).all fun i =>
      suited nblocks k Q g (s.set i fun c => { c with u := c.u.set32 (a % 1024) v })
        (Function.update text (a / 4) false)
  | .store a bytes k, Q, g, s, text =>
    decide (1024 ≤ a ∧ a % 1024 + bytes.length ≤ 1024) &&
      (ByteOrder.slotOf s (a / 1024)).all fun i =>
        (uniform a bytes || (List.range bytes.length).all fun j =>
          text ((a + j) / 4) || palindrome (s.cache i).u ((a % 1024 + j) / 4)) &&
            suited nblocks k Q g (s.store i (a % 1024) bytes) (marked text a bytes)

/-- The blocks that `flushdisk` writes suit their slots. -/
def BlockCache.suitsFlush (s : BlockCache) (text : Nat → Bool) : Bool :=
  (List.range ncache).all fun i => decide ((s.cache i).used = 0) || s.suitsSlot text i

/-- Up to `flushdisk` the run of the formatter is `suited`. -/
def steady (o : Options) : Bool :=
  suited o.nblocks (main o) (fun _ _ => true) ⟨0, 0, []⟩ { disk := fun _ => 0 } fun _ => false

/-- And so is `flushdisk`. -/
def consistent (o : Options) : Bool :=
  suited o.nblocks (main o) BlockCache.suitsFlush ⟨0, 0, []⟩ { disk := fun _ => 0 } fun _ => false

/-! ## A step on both hosts -/

/-- The caches of the two hosts: the same slots, and turned numbers. -/
structure Twins (text : Nat → Bool) (s v : BlockCache) : Prop where
  t : v.t = s.t
  disk : v.disk = s.disk
  slots : ∀ i, v.cache i = { s.cache i with u := (v.cache i).u }
  mirrors : ∀ i < ncache, (s.cache i).bno ≠ 0 →
    Mirrors (wordsOf text (s.cache i).bno) (s.cache i).u (v.cache i).u
  apart : ∀ i < ncache, ∀ j < ncache, (s.cache i).bno ≠ 0 → (s.cache j).bno = (s.cache i).bno →
    j = i
  bound : ∀ i < ncache, (s.cache i).bno < 8192
  stamped : ∀ i < ncache, (s.cache i).used ≠ 0 → (s.cache i).bno ≠ 0

theorem wordsOf_address {text : Nat → Bool} {a : Nat} :
    wordsOf text (a / 1024) (a % 1024 / 4) = text (a / 4) := by
  unfold wordsOf
  congr 1
  omega

theorem ByteOrder.little_swizzleblock : ByteOrder.little.swizzleblock type u = u := by
  refine Eq.trans ?_ (swizzleblock_eq type u)
  cases type <;> rfl

theorem ByteOrder.little_flushb {s : BlockCache} : ByteOrder.little.flushb s i = s.flushb i := by
  unfold ByteOrder.flushb BlockCache.flushb
  simp only [ByteOrder.little_swizzleblock, swizzleblock_eq]

theorem ByteOrder.little_getblk {nblocks bno : Nat} {s : BlockCache} {clr : Bool} :
    ByteOrder.little.getblk nblocks s bno clr type = s.getblk nblocks bno clr type := by
  unfold ByteOrder.getblk BlockCache.getblk
  cases s.scan bno ncache none with
  | hit i => rfl
  | miss least =>
    cases least with
    | none => rfl
    | some i =>
      simp only [ByteOrder.little_swizzleblock, ByteOrder.little_flushb, swizzleblock_eq]

theorem ByteOrder.flushb_eq (b : ByteOrder) (s : BlockCache) : b.flushb s i =
    BlockCache.set { s with
      disk := s.disk.copy (b.swizzleblock (s.cache i).type (s.cache i).u)
        (ospfsBlock (s.cache i).bno) 0 blksize } i
      fun c => { c with u := b.swizzleblock c.type (b.swizzleblock c.type c.u) } := by
  unfold ByteOrder.flushb
  simp only [BlockCache.set_self, BlockCache.set_disk]
  unfold BlockCache.set
  simp only [Function.update_self, Function.update_idem]

namespace Twins

variable {s v : BlockCache} {f g : Slot → Slot} {bno : Nat}

theorem bno_eq (h : Twins text s v) (i : Nat) : (v.cache i).bno = (s.cache i).bno := by
  rw [h.slots i]

theorem type_eq (h : Twins text s v) (i : Nat) : (v.cache i).type = (s.cache i).type := by
  rw [h.slots i]

theorem busy_eq (h : Twins text s v) (i : Nat) : (v.cache i).busy = (s.cache i).busy := by
  rw [h.slots i]

theorem used_eq (h : Twins text s v) (i : Nat) : (v.cache i).used = (s.cache i).used := by
  rw [h.slots i]

theorem scan (h : Twins text s v) (n : Nat) (least : Option Nat) :
    v.scan bno n least = s.scan bno n least := by
  induction n generalizing least with
  | zero => rfl
  | succ n ih =>
    unfold BlockCache.scan
    simp only [h.bno_eq, h.busy_eq, h.used_eq, ih]

/-- A slot of each host is changed, and the other blocks keep their marks. -/
theorem set (h : Twins text s v) (hi : i < ncache)
    (hslot : g (v.cache i) = { f (s.cache i) with u := (g (v.cache i)).u })
    (hm : (f (s.cache i)).bno ≠ 0 →
      Mirrors (wordsOf text' (f (s.cache i)).bno) (f (s.cache i)).u (g (v.cache i)).u)
    (hbno : ∀ j < ncache, j ≠ i → (f (s.cache i)).bno ≠ 0 →
      (s.cache j).bno ≠ (f (s.cache i)).bno)
    (htext : ∀ j < ncache, j ≠ i → (s.cache j).bno ≠ 0 →
      ∀ w < 256, wordsOf text' (s.cache j).bno w = wordsOf text (s.cache j).bno w)
    (hbound : (f (s.cache i)).bno < 8192)
    (hstamp : (f (s.cache i)).used ≠ 0 → (f (s.cache i)).bno ≠ 0) :
    Twins text' (s.set i f) (v.set i g) where
  t := h.t
  disk := h.disk
  slots j := by
    by_cases hj : j = i
    · subst hj
      rw [BlockCache.set_self, BlockCache.set_self]
      exact hslot
    · rw [BlockCache.set_ne _ _ _ hj, BlockCache.set_ne _ _ _ hj]
      exact h.slots j
  mirrors j hj := by
    by_cases hji : j = i
    · subst hji
      rw [BlockCache.set_self, BlockCache.set_self]
      exact hm
    · rw [BlockCache.set_ne _ _ _ hji, BlockCache.set_ne _ _ _ hji]
      intro hb x hx
      rw [htext j hj hji hb _ (by omega)]
      exact h.mirrors j hj hb x hx
  apart j hj k hk := by
    by_cases hji : j = i
    · by_cases hki : k = i
      · intro _ _
        rw [hji, hki]
      · rw [hji, BlockCache.set_self, BlockCache.set_ne _ _ _ hki]
        intro hb he
        exact absurd he (hbno k hk hki hb)
    · by_cases hki : k = i
      · rw [hki, BlockCache.set_self, BlockCache.set_ne _ _ _ hji]
        intro hb he
        exact absurd he.symm (hbno j hj hji (by rw [he]; exact hb))
      · rw [BlockCache.set_ne _ _ _ hji, BlockCache.set_ne _ _ _ hki]
        exact h.apart j hj k hk
  bound j hj := by
    by_cases hji : j = i
    · rw [hji, BlockCache.set_self]
      exact hbound
    · rw [BlockCache.set_ne _ _ _ hji]
      exact h.bound j hj
  stamped j hj := by
    by_cases hji : j = i
    · rw [hji, BlockCache.set_self]
      exact hstamp
    · rw [BlockCache.set_ne _ _ _ hji]
      exact h.stamped j hj

/-- The bytes of a block are changed, and its marks. -/
theorem write (h : Twins text s v) (hi : i < ncache) (hb : (s.cache i).bno ≠ 0)
    (hslot : g (v.cache i) = { f (s.cache i) with u := (g (v.cache i)).u })
    (hf : (f (s.cache i)).bno = (s.cache i).bno) (hu : (f (s.cache i)).used = (s.cache i).used)
    (hm : Mirrors (wordsOf text (s.cache i).bno) (s.cache i).u (v.cache i).u →
      Mirrors (wordsOf text' (s.cache i).bno) (f (s.cache i)).u (g (v.cache i)).u)
    (htext : ∀ k, k / 256 ≠ (s.cache i).bno → text' k = text k) :
    Twins text' (s.set i f) (v.set i g) := by
  refine h.set hi hslot (fun _ => ?_) (fun j hj hji _ => ?_) (fun j hj hji hjb w hw => ?_) ?_ ?_
  · rw [hf]
    exact hm (h.mirrors i hi hb)
  · rw [hf]
    exact fun he => hji (h.apart i hi j hj hb he)
  · refine htext _ fun he => hji (h.apart i hi j hj hb ?_)
    omega
  · rw [hf]
    exact h.bound i hi
  · rw [hf, hu]
    exact h.stamped i hi

theorem flushb (h : Twins text s v) (hi : i < ncache) (hs : s.suitsSlot text i = true) :
    Twins text (s.flushb i) (ByteOrder.big.flushb v i) := by
  obtain ⟨hb, hs⟩ := Bool.and_eq_true_iff.1 hs
  have hb := of_decide_eq_true hb
  have hm := h.mirrors i hi hb
  have hdisk : v.disk.copy (ByteOrder.big.swizzleblock (v.cache i).type (v.cache i).u)
      (ospfsBlock (v.cache i).bno) 0 blksize =
      s.disk.copy (s.cache i).u (ospfsBlock (s.cache i).bno) 0 blksize := by
    rw [h.disk, h.bno_eq, h.type_eq]
    funext x
    unfold Mem.copy
    split
    · next hx => exact hm.written hs (by unfold blksize at hx; omega)
    · rfl
  have hout : Twins text (s.flushb i) { v with disk := (s.flushb i).disk } := by
    rw [BlockCache.flushb_eq]
    exact ⟨h.t, rfl, h.slots, h.mirrors, h.apart, h.bound, h.stamped⟩
  have hv : ByteOrder.big.flushb v i =
      BlockCache.set { v with disk := (s.flushb i).disk } i fun c => { c with
        u := ByteOrder.big.swizzleblock c.type (ByteOrder.big.swizzleblock c.type c.u) } := by
    rw [ByteOrder.flushb_eq, hdisk, BlockCache.flushb_eq]
  have hcache : (s.flushb i).cache = s.cache := by rw [BlockCache.flushb_eq]
  rw [hv, ← BlockCache.set_id (s.flushb i) i]
  refine hout.write hi (by rwa [hcache]) ?_ rfl rfl (fun _ => ?_) fun _ _ => rfl
  · dsimp only
    rw [hcache, h.slots i]
  · rw [hcache]
    dsimp only
    rw [h.type_eq]
    exact mirrors_of_read hs fun x hx => hm.written hs hx

/-- The label `out`, where slot `i` holds the block. -/
theorem out (h : Twins text s v) (hi : i < ncache) {clr : Bool}
    (hslot : g (v.cache i) = { f (s.cache i) with u := (g (v.cache i)).u })
    (hm : clr = false → (f (s.cache i)).bno ≠ 0 →
      Mirrors (wordsOf text (f (s.cache i)).bno) (f (s.cache i)).u (g (v.cache i)).u)
    (hbno : ∀ j < ncache, j ≠ i → (f (s.cache i)).bno ≠ 0 →
      (s.cache j).bno ≠ (f (s.cache i)).bno)
    (hbound : (f (s.cache i)).bno < 8192) (hb : (f (s.cache i)).bno ≠ 0) :
    Option.Rel (fun a b => Twins text a.1 b.1)
      ((s.set i f).out i clr type) ((v.set i g).out i clr type) := by
  have htype : (g (v.cache i)).type = (f (s.cache i)).type := by rw [hslot]
  have hbusy : (g (v.cache i)).busy = (f (s.cache i)).busy := by rw [hslot]
  rw [BlockCache.out_eq, BlockCache.out_eq, BlockCache.set_self, BlockCache.set_self, htype, hbusy]
  split
  · refine .some ?_
    have ht : Twins text { s with t := (s.t + 1) % 2 ^ 32 } { v with t := (v.t + 1) % 2 ^ 32 } :=
      ⟨by rw [h.t], h.disk, h.slots, h.mirrors, h.apart, h.bound, h.stamped⟩
    have hset (c : BlockCache) (t : Nat) (f : Slot → Slot) :
        { c.set i f with t := t } = BlockCache.set { c with t := t } i f := rfl
    simp only [hset, BlockCache.set_t, BlockCache.set_set]
    refine ht.set hi ?_ (fun hb => ?_) hbno (fun _ _ _ _ _ _ => rfl) hbound fun _ => hb
    · dsimp only
      rw [hslot, h.t]
    · cases clr with
      | false => exact hm rfl hb
      | true =>
        intro x hx
        dsimp only
        rw [if_pos rfl, if_pos rfl, Mem.fill_of_mem (Nat.zero_le _) (by unfold blksize; omega),
          Mem.fill_of_mem (Nat.zero_le _) (by unfold blksize; omega),
          Mem.fill_of_mem (Nat.zero_le _) (by unfold blksize opposite; omega), ite_self]
  · exact .none

/-- **`getblk`**. -/
theorem getblk (h : Twins text s v) {nblocks : Nat} {clr : Bool} (hn : nblocks ≤ 8192)
    (hb : bno ≠ 0) (hs : s.suitsGetblk text bno clr = true) :
    Option.Rel (fun a b => Twins text a.1 b.1)
      (s.getblk nblocks bno clr type) (ByteOrder.big.getblk nblocks v bno clr type) := by
  unfold ByteOrder.getblk
  rw [h.scan]
  unfold BlockCache.suitsGetblk at hs
  by_cases hbno : nblocks ≤ bno
  · unfold BlockCache.getblk
    rw [if_pos hbno, if_pos hbno]
    exact .none
  · rw [if_neg hbno]
    cases hscan : s.scan bno ncache none with
    | hit i =>
      obtain ⟨hi, hib⟩ := BlockCache.scan_hit hscan
      unfold BlockCache.getblk
      rw [if_neg hbno, hscan]
      have hout : Option.Rel (fun a b => Twins text a.1 b.1)
          ((s.set i fun c => c).out i clr type) ((v.set i fun c => c).out i clr type) :=
        h.out hi (h.slots i) (fun _ => h.mirrors i hi)
          (fun j hj hji hb he => hji (h.apart i hi j hj hb he)) (h.bound i hi) (by rwa [hib])
      rwa [BlockCache.set_id, BlockCache.set_id] at hout
    | miss least =>
      cases least with
      | none =>
        unfold BlockCache.getblk
        rw [if_neg hbno, hscan]
        exact .none
      | some i =>
        have hi : i < ncache := (BlockCache.scan_some hscan).elim nofun And.left
        have hmiss := BlockCache.scan_miss hscan (Nat.le_refl _)
        rw [hscan] at hs
        obtain ⟨hflush, hread⟩ := Bool.and_eq_true_iff.1 hs
        have h1 : Twins text (if (s.cache i).used ≠ 0 then s.flushb i else s)
            (if (v.cache i).used ≠ 0 then ByteOrder.big.flushb v i else v) := by
          rw [h.used_eq]
          split
          · next hu =>
            exact h.flushb hi ((Bool.or_eq_true_iff.1 hflush).resolve_left fun h0 =>
              hu (of_decide_eq_true h0))
          · exact h
        have hcache : (if (s.cache i).used ≠ 0 then s.flushb i else s).cache = s.cache := by
          split
          · rw [BlockCache.flushb_eq]
          · rfl
        rw [BlockCache.getblk_miss (by omega) hscan]
        dsimp only at hread ⊢
        generalize (if (s.cache i).used ≠ 0 then s.flushb i else s) = s1 at h1 hcache hread ⊢
        generalize (if (v.cache i).used ≠ 0 then ByteOrder.big.flushb v i else v) = v1 at h1 ⊢
        have hv : (if clr then v1.set i fun c =>
              { c with u := c.u.copy v1.disk 0 (ospfsBlock bno) blksize, bno := bno }
            else (v1.set i fun c =>
              { c with u := c.u.copy v1.disk 0 (ospfsBlock bno) blksize, bno := bno }).set i
                fun c => { c with u := ByteOrder.big.swizzleblock c.type c.u }).set i
              (fun c => { c with busy := 0, type := type }) = v1.set i fun c =>
            { u := if clr then c.u.copy v1.disk 0 (ospfsBlock bno) blksize
                else ByteOrder.big.swizzleblock c.type
                  (c.u.copy v1.disk 0 (ospfsBlock bno) blksize)
              bno := bno, busy := 0, used := c.used, type := type } := by
          cases clr
          · simp only [Bool.false_eq_true, if_false, BlockCache.set_set]
          · simp only [if_true, BlockCache.set_set]
        rw [hv]
        refine h1.out hi ?_ (fun hclr _ => ?_) (fun j hj _ _ => ?_) (Nat.lt_of_lt_of_le ?_ hn) hb
        · dsimp only
          rw [h1.used_eq]
        · subst hclr
          rw [Bool.false_or] at hread
          dsimp only
          rw [if_neg Bool.false_ne_true, h1.type_eq, h1.disk]
          refine mirrors_of_read hread fun x hx => ?_
          unfold Mem.copy
          rw [if_pos (by unfold blksize; omega), if_pos (by unfold blksize; omega)]
        · rw [hcache]
          exact hmiss j (by unfold ncache; omega) hj
        · exact Nat.lt_of_not_le hbno

/-- A number is loaded. -/
theorem load (h : Twins text s v) {a : Nat} (hi : i < ncache) (hb : (s.cache i).bno = a / 1024)
    (ha : 1024 ≤ a ∧ a % 4 = 0)
    (hnum : (!text (a / 4) || palindrome (s.cache i).u (a % 1024 / 4)) = true) :
    ByteOrder.big.load (v.cache i).u (a % 1024) = (s.cache i).u.get32 (a % 1024) := by
  have hm := h.mirrors i hi (by omega)
  rw [hb] at hm
  have hload := hm.load (w := a % 1024 / 4) (by omega) (by
    rw [wordsOf_address]
    exact (Bool.or_eq_true_iff.1 hnum).imp_left fun ht => by rwa [Bool.not_eq_true'] at ht)
  rwa [show 4 * (a % 1024 / 4) = a % 1024 by omega] at hload

/-- A number is stored. -/
theorem store32 (h : Twins text s v) {a n : Nat} (hi : i < ncache)
    (hb : (s.cache i).bno = a / 1024) (ha : 1024 ≤ a ∧ a % 4 = 0) :
    Twins (Function.update text (a / 4) false)
      (s.set i fun c => { c with u := c.u.set32 (a % 1024) n })
      (v.set i fun c => { c with u := ByteOrder.big.store c.u (a % 1024) n }) := by
  refine h.write hi (by omega) ?_ rfl rfl (fun hm => ?_) fun k hk => ?_
  · dsimp only
    rw [h.slots i]
  · rw [hb] at hm ⊢
    rw [show a % 1024 = 4 * (a % 1024 / 4) by omega]
    refine hm.store32 ?_ fun k hk hne => ?_
    · rw [wordsOf_address, Function.update_self]
    · exact Function.update_of_ne (by omega) _ _
  · exact Function.update_of_ne (by omega) _ _

/-- Bytes are stored. -/
theorem store (h : Twins text s v) {a : Nat} {bytes : Bytes} (hi : i < ncache)
    (hb : (s.cache i).bno = a / 1024) (ha : 1024 ≤ a ∧ a % 1024 + bytes.length ≤ 1024)
    (hover : (uniform a bytes || (List.range bytes.length).all fun j =>
      text ((a + j) / 4) || palindrome (s.cache i).u ((a % 1024 + j) / 4)) = true) :
    Twins (marked text a bytes) (s.store i (a % 1024) bytes) (v.store i (a % 1024) bytes) := by
  refine h.write hi (by omega) ?_ rfl rfl (fun hm => ?_) fun k hk => ?_
  · dsimp only
    rw [h.slots i]
  · rw [hb] at hm ⊢
    cases hu : uniform a bytes with
    | true =>
      rw [marked, if_pos hu]
      refine hm.store_uniform ?_
      rwa [uniform, show a % 1024 % 4 = a % 4 by omega]
    | false =>
      rw [hu, Bool.false_or] at hover
      refine hm.store (fun j hj => ?_) fun w hw => ?_
      · have hj' := Bool.or_eq_true_iff.1 (List.all_eq_true.1 hover j (List.mem_range.2 hj))
        refine hj'.imp_left fun ht => ?_
        unfold wordsOf
        rwa [show 256 * (a / 1024) + (a % 1024 + j) / 4 = (a + j) / 4 by omega]
      · rw [wordsOf, marked, if_neg (by rw [hu]; decide)]
        congr 1
        rw [decide_eq_decide]
        omega
  · unfold marked
    split
    · rfl
    · dsimp only
      rw [decide_eq_false (by omega), Bool.or_false]

theorem slotOf (h : Twins text s v) : ByteOrder.slotOf v bno = ByteOrder.slotOf s bno := by
  unfold ByteOrder.slotOf
  rw [h.scan]

theorem putblk (h : Twins text s v) (hi : i < ncache) :
    Twins text (s.putblk i) (v.putblk i) := by
  refine h.set hi ?_ (h.mirrors i hi)
    (fun j hj hji hb he => hji (h.apart i hi j hj hb he)) (fun _ _ _ _ _ _ => rfl)
    (h.bound i hi) (h.stamped i hi)
  dsimp only
  rw [h.slots i]

end Twins

theorem slotOf_some {s : BlockCache} {bno : Nat} (h : ByteOrder.slotOf s bno = some i) :
    i < ncache ∧ (s.cache i).bno = bno := by
  unfold ByteOrder.slotOf at h
  split at h
  · next hscan =>
    cases h
    exact BlockCache.scan_hit hscan
  · cases h

/-! ## The whole run -/

/-- How a run ends on the two hosts, and what its check `R` then comes to. -/
inductive EndsAlike {α : Type} (R : (BlockCache → (Nat → Bool) → Bool) → Bool) :
    (r r' : Option (α × Globals × BlockCache)) → Prop where
  | none (hR : ∀ Q, R Q = true) : EndsAlike R none none
  | some {x : α} {gl : Globals} {s v : BlockCache} {text : Nat → Bool} (h : Twins text s v)
      (hR : ∀ Q, R Q = Q s text) : EndsAlike R (some (x, gl, s)) (some (x, gl, v))

/-- **A `suited` run** is the same on both hosts. -/
theorem Twins.run {α : Type} {p : BlockProg Globals BlockType α} {nblocks : Nat}
    (hn : nblocks ≤ 8192) {gl : Globals} {text : Nat → Bool} {s v : BlockCache}
    (h : Twins text s v) (hp : suited nblocks p (fun _ _ => true) gl s text = true) :
    EndsAlike (fun Q => suited nblocks p Q gl s text)
      (ByteOrder.little.run nblocks p gl s) (ByteOrder.big.run nblocks p gl v) := by
  induction p generalizing gl text s v with
  | ret x => exact .some h fun _ => rfl
  | abort => exact .none fun _ => rfl
  | get k ih => exact ih _ h hp
  | set g' k ih => exact ih h hp
  | getblk bno clr type k ih =>
    unfold suited at hp ⊢
    unfold ByteOrder.run
    obtain ⟨hs, hk⟩ := Bool.and_eq_true_iff.1 hp
    simp only [hs, Bool.true_and, ByteOrder.little_getblk]
    obtain ⟨hb, hs⟩ := Bool.and_eq_true_iff.1 hs
    have hrel : Option.Rel (fun r r' => Twins text r.1 r'.1) (s.getblk nblocks bno clr type)
        (ByteOrder.big.getblk nblocks v bno clr type) := h.getblk hn (of_decide_eq_true hb) hs
    generalize s.getblk nblocks bno clr type = r at hk hrel ⊢
    generalize ByteOrder.big.getblk nblocks v bno clr type = r' at hrel ⊢
    cases hrel with
    | none => exact .none fun _ => rfl
    | some ht => exact ih ht hk
  | putblk bno k ih =>
    unfold suited at hp ⊢
    unfold ByteOrder.run
    rw [h.slotOf]
    cases hi : ByteOrder.slotOf s bno with
    | none => exact .none fun _ => rfl
    | some i =>
      rw [hi] at hp
      exact ih (h.putblk (slotOf_some hi).1) hp
  | load32 a k ih =>
    unfold suited at hp ⊢
    unfold ByteOrder.run
    obtain ⟨ha, hp⟩ := Bool.and_eq_true_iff.1 hp
    simp only [ha, Bool.true_and, h.slotOf]
    cases hslot : ByteOrder.slotOf s (a / 1024) with
    | none => exact .none fun _ => rfl
    | some i =>
      rw [hslot] at hp
      obtain ⟨hnum, hk⟩ := Bool.and_eq_true_iff.1 hp
      obtain ⟨hi, hb⟩ := slotOf_some hslot
      simp only [Option.bind_some, Option.all_some, hnum, Bool.true_and,
        h.load hi hb (of_decide_eq_true ha) hnum]
      exact ih _ h hk
  | store32 a n k ih =>
    unfold suited at hp ⊢
    unfold ByteOrder.run
    obtain ⟨ha, hp⟩ := Bool.and_eq_true_iff.1 hp
    simp only [ha, Bool.true_and, h.slotOf]
    cases hslot : ByteOrder.slotOf s (a / 1024) with
    | none => exact .none fun _ => rfl
    | some i =>
      rw [hslot] at hp
      obtain ⟨hi, hb⟩ := slotOf_some hslot
      exact ih (h.store32 hi hb (of_decide_eq_true ha)) hp
  | store a bytes k ih =>
    unfold suited at hp ⊢
    unfold ByteOrder.run
    obtain ⟨ha, hp⟩ := Bool.and_eq_true_iff.1 hp
    simp only [ha, Bool.true_and, h.slotOf]
    cases hslot : ByteOrder.slotOf s (a / 1024) with
    | none => exact .none fun _ => rfl
    | some i =>
      rw [hslot] at hp
      obtain ⟨hover, hk⟩ := Bool.and_eq_true_iff.1 hp
      obtain ⟨hi, hb⟩ := slotOf_some hslot
      simp only [Option.bind_some, Option.all_some, hover, Bool.true_and]
      exact ih (h.store hi hb (of_decide_eq_true ha) hover) hk

/-! ## `flushdisk` -/

theorem Twins.flushFrom {text : Nat → Bool} {s v : BlockCache} {n : Nat} (hn : n ≤ ncache)
    (h : Twins text s v)
    (hs : ∀ i < ncache, (s.cache i).used ≠ 0 → s.suitsSlot text i = true) :
    Twins text (s.flushFrom n) (ByteOrder.big.flushFrom v n) := by
  induction n generalizing s v with
  | zero => exact h
  | succ n ih =>
    have hi : ncache - (n + 1) < ncache := by unfold ncache; omega
    unfold BlockCache.flushFrom ByteOrder.flushFrom
    dsimp only
    rw [h.used_eq]
    split
    · next hu =>
      have hcache : (s.flushb (ncache - (n + 1))).cache = s.cache := by rw [BlockCache.flushb_eq]
      refine ih (by omega) (h.flushb hi (hs _ hi hu)) fun i hi => ?_
      unfold BlockCache.suitsSlot
      rw [hcache]
      exact hs i hi
    · exact ih (by omega) h hs

theorem twins_start (text : Nat → Bool) (s : BlockCache) (h : ∀ i, (s.cache i).bno = 0)
    (hu' : ∀ i, (s.cache i).used = 0) :
    Twins text s s where
  t := rfl
  disk := rfl
  slots _ := rfl
  mirrors i _ hb := absurd (h i) hb
  apart i _ _ _ hb := absurd (h i) hb
  bound i _ := by
    rw [h i]
    decide
  stamped i _ hu := absurd (hu' i) hu

theorem ByteOrder.little_flushFrom {s : BlockCache} {n : Nat} :
    ByteOrder.little.flushFrom s n = s.flushFrom n := by
  induction n generalizing s with
  | zero => rfl
  | succ n ih =>
    unfold ByteOrder.flushFrom BlockCache.flushFrom
    rw [ih, ByteOrder.little_flushb]

section

variable (b : ByteOrder) {s : BlockCache} {j : Nat}

theorem ByteOrder.flushb_ne (h : j ≠ i) : (b.flushb s i).cache j = s.cache j := by
  rw [b.flushb_eq, BlockCache.set_ne _ _ _ h]

theorem ByteOrder.flushb_labels :
    (b.flushb s i).cache j = { s.cache j with u := ((b.flushb s i).cache j).u } := by
  by_cases h : j = i
  · rw [h, b.flushb_eq, BlockCache.set_self]
  · rw [b.flushb_ne h]

theorem ByteOrder.flushb_disk {k : Nat} (hx : x < 1024)
    (hi : (s.cache i).bno < 8192) : (b.flushb s i).disk (1024 * k + x) =
      if (s.cache i).bno = k then b.swizzleblock (s.cache i).type (s.cache i).u x
      else s.disk (1024 * k + x) := by
  rw [b.flushb_eq, BlockCache.set_disk, ospfsBlock_of_lt (by omega)]
  unfold Mem.copy blksize
  by_cases he : (s.cache i).bno = k
  · dsimp only
    rw [if_pos he, if_pos (by omega)]
    congr 1
    omega
  · dsimp only
    rw [if_neg he, if_neg (by omega)]

theorem ByteOrder.flushb_bno : ((b.flushb s i).cache j).bno = (s.cache j).bno := by
  rw [b.flushb_labels]

theorem ByteOrder.flushb_used : ((b.flushb s i).cache j).used = (s.cache j).used := by
  rw [b.flushb_labels]

/-- `flushdisk` leaves a block alone that no used slot holds. -/
theorem ByteOrder.flushFrom_other {n k : Nat} (hx : x < 1024)
    (hbound : ∀ i < ncache, (s.cache i).bno < 8192)
    (hne : ∀ i < ncache, ncache - n ≤ i → (s.cache i).used ≠ 0 → (s.cache i).bno ≠ k) :
    (b.flushFrom s n).disk (1024 * k + x) = s.disk (1024 * k + x) := by
  induction n generalizing s with
  | zero => rfl
  | succ n ih =>
    have hj : ncache - (n + 1) < ncache := by unfold ncache; omega
    unfold ByteOrder.flushFrom
    dsimp only
    split
    · next hu =>
      rw [ih, b.flushb_disk hx (hbound _ hj), if_neg (hne _ hj (Nat.le_refl _) hu)]
      · intro i hi
        rw [b.flushb_bno]
        exact hbound i hi
      · intro i hi hni
        rw [b.flushb_bno, b.flushb_used]
        exact hne i hi (by omega)
    · exact ih hbound fun i hi hni => hne i hi (by omega)

/-- It writes the block of a used slot. -/
theorem ByteOrder.flushFrom_slot {n : Nat} (hn : n ≤ ncache) (hx : x < 1024) (hi : i < ncache)
    (hni : ncache - n ≤ i) (hu : (s.cache i).used ≠ 0)
    (hbound : ∀ j < ncache, (s.cache j).bno < 8192)
    (hapart : ∀ j < ncache, (s.cache j).bno = (s.cache i).bno → j = i) :
    (b.flushFrom s n).disk (1024 * (s.cache i).bno + x) =
      b.swizzleblock (s.cache i).type (s.cache i).u x := by
  induction n generalizing s with
  | zero => exact absurd hi (Nat.not_lt_of_le hni)
  | succ n ih =>
    have hj : ncache - (n + 1) < ncache := by unfold ncache; omega
    unfold ByteOrder.flushFrom
    dsimp only
    by_cases hij : i = ncache - (n + 1)
    · rw [← hij, if_pos hu, b.flushFrom_other hx, b.flushb_disk hx (hbound i hi),
        if_pos rfl]
      · intro k hk
        rw [b.flushb_bno]
        exact hbound k hk
      · intro k hk hnk _
        rw [b.flushb_bno]
        intro he
        have := hapart k hk he
        omega
    · split
      · have := ih (s := b.flushb s (ncache - (n + 1))) (by omega) (by omega)
          (by rwa [b.flushb_used]) (fun k hk => by rw [b.flushb_bno]; exact hbound k hk)
          fun k hk => by rw [b.flushb_bno, b.flushb_bno]; exact hapart k hk
        rwa [b.flushb_ne hij] at this
      · exact ih (by omega) (by omega) hu hbound hapart

end

/-- Where a block that does not suit its slot is left to `flushdisk`, the disks differ. -/
theorem Twins.suitsSlot_of_flushed {text : Nat → Bool} {s v : BlockCache} (h : Twins text s v)
    (hd : (ByteOrder.big.flushFrom v ncache).disk = (s.flushFrom ncache).disk) {i : Nat}
    (hi : i < ncache) (hu : (s.cache i).used ≠ 0) : s.suitsSlot text i = true := by
  have hb := h.stamped i hi hu
  have hm := h.mirrors i hi hb
  have hni : ncache - ncache ≤ i := by omega
  refine Bool.and_eq_true_iff.2 ⟨decide_eq_true hb, hm.suits_of_written fun x hx => ?_⟩
  have hlittle := ByteOrder.little.flushFrom_slot (Nat.le_refl _) hx hi hni hu h.bound
    fun j hj => h.apart i hi j hj hb
  have hbig := ByteOrder.big.flushFrom_slot (s := v) (Nat.le_refl _) hx hi hni
    (by rwa [h.used_eq]) (fun j hj => by rw [h.bno_eq]; exact h.bound j hj)
    fun j hj he => h.apart i hi j hj hb (by rwa [h.bno_eq, h.bno_eq] at he)
  rw [ByteOrder.little_flushFrom, ByteOrder.little_swizzleblock] at hlittle
  rw [h.bno_eq, h.type_eq, hd, hlittle] at hbig
  exact hbig.symm

theorem suited_of_suited {α : Type} {p : BlockProg Globals BlockType α} {nblocks : Nat}
    {Q : BlockCache → (Nat → Bool) → Bool} {gl : Globals} {s : BlockCache} {text : Nat → Bool}
    (h : suited nblocks p Q gl s text = true) :
    suited nblocks p (fun _ _ => true) gl s text = true := by
  induction p generalizing gl s text with
  | ret x => rfl
  | abort => rfl
  | get k ih => exact ih _ h
  | set g' k ih => exact ih h
  | getblk bno clr type k ih =>
    unfold suited at h ⊢
    rw [Bool.and_eq_true_iff, Option.all_eq_true] at h ⊢
    exact ⟨h.1, fun r hr => ih (h.2 r hr)⟩
  | putblk bno k ih =>
    unfold suited at h ⊢
    rw [Option.all_eq_true] at h ⊢
    exact fun i hi => ih (h i hi)
  | load32 a k ih =>
    unfold suited at h ⊢
    rw [Bool.and_eq_true_iff, Option.all_eq_true] at h ⊢
    simp only [Bool.and_eq_true_iff] at h ⊢
    exact ⟨h.1, fun i hi => ⟨(h.2 i hi).1, ih _ (h.2 i hi).2⟩⟩
  | store32 a n k ih =>
    unfold suited at h ⊢
    rw [Bool.and_eq_true_iff, Option.all_eq_true] at h ⊢
    exact ⟨h.1, fun i hi => ih (h.2 i hi)⟩
  | store a bytes k ih =>
    unfold suited at h ⊢
    rw [Bool.and_eq_true_iff, Option.all_eq_true] at h ⊢
    simp only [Bool.and_eq_true_iff] at h ⊢
    exact ⟨h.1, fun i hi => ⟨(h.2 i hi).1, ih (h.2 i hi).2⟩⟩

/-! ## The image -/

theorem BlockCache.suitsFlush_iff {s : BlockCache} {text : Nat → Bool} :
    s.suitsFlush text = true ↔ ∀ i < ncache, (s.cache i).used ≠ 0 → s.suitsSlot text i = true := by
  unfold BlockCache.suitsFlush
  simp only [List.all_eq_true, List.mem_range, Bool.or_eq_true, decide_eq_true_eq,
    or_iff_not_imp_left, ne_eq]

theorem EndsAlike.flushed {α : Type} {R : (BlockCache → (Nat → Bool) → Bool) → Bool}
    {r r' : Option (α × Globals × BlockCache)} (h : EndsAlike R r r') :
    ((r'.map fun x => (ByteOrder.big.flushFrom x.2.2 ncache).disk) =
        r.map fun x => (ByteOrder.little.flushFrom x.2.2 ncache).disk) ↔
      R BlockCache.suitsFlush = true := by
  cases h with
  | none hR =>
    rw [Option.map_none, Option.map_none]
    exact iff_of_true rfl (hR _)
  | some h hR =>
    rw [hR, Option.map_some, Option.map_some, Option.some_inj, ByteOrder.little_flushFrom,
      BlockCache.suitsFlush_iff]
    constructor
    · intro hd i hi hu
      exact h.suitsSlot_of_flushed hd hi hu
    · intro hs
      exact (h.flushFrom (Nat.le_refl _) hs).disk

theorem steady_image {o : Options} (h : steady o = true) :
    ByteOrder.big.image o = ByteOrder.little.image o ↔ consistent o = true := by
  have hstart : Twins (fun _ => false) { disk := fun _ => 0 } { disk := fun _ => 0 } :=
    twins_start _ _ (fun _ => rfl) fun _ => rfl
  by_cases hacc : o.accepted = true
  · have hn : o.nblocks ≤ 8192 := by
      unfold Options.accepted at hacc
      simp only [Bool.and_eq_true, decide_eq_true_eq] at hacc
      omega
    exact (hstart.run hn h).flushed
  · -- both abort
    have hmain : main o = .abort := by
      unfold main
      rw [if_pos (by rwa [Bool.not_eq_true', ← Bool.not_eq_true])]
    refine iff_of_true ?_ ?_
    · unfold ByteOrder.image
      rw [hmain]
      unfold ByteOrder.run
      rw [Option.map_none, Option.map_none]
    · unfold consistent suited
      rw [hmain]

/-- **The image does not depend on the byte order** where the run of the formatter is
`consistent`; where it is `steady`, only there. -/
theorem image_consistent (o : Options) :
    (consistent o = true → ByteOrder.big.image o = ByteOrder.little.image o) ∧
    (steady o = true → ByteOrder.big.image o = ByteOrder.little.image o → consistent o = true) :=
  ⟨fun h => (steady_image (suited_of_suited h)).2 h, fun h => (steady_image h).1⟩

/-- A file `g` with two bytes is given on the command line. -/
def oneFile : Options :=
  ⟨8192, 16, false, [], .files
    [⟨⟨[103], by decide⟩, 1, 7, 420, none, [some ⟨[111, 107], by decide⟩]⟩]⟩

theorem image_consistent_oneFile : steady oneFile = true ∧ consistent oneFile = true ∧
    ByteOrder.big.image oneFile = ByteOrder.little.image oneFile ∧
    (ByteOrder.little.image oneFile).map (fun m => (m 1024, m 1025)) = some (0xAE, 0x01) := by
  have hc : consistent oneFile = true := by decide +kernel
  have hs : steady oneFile = true := suited_of_suited hc
  have himage := (image_consistent oneFile).1 hc
  exact ⟨hs, (image_consistent oneFile).2 hs himage, himage, by decide +kernel⟩

/-- The directory given has the one entry `k`, a symbolic link to `wx`. -/
def linkToWx : Options :=
  ⟨8192, 16, false, [],
    .recursive (.symlink ⟨[107], by decide⟩ 1 7 ⟨[119, 120], by decide⟩ .nil)⟩

/-- On a big-endian host the text on the disk begins with a NUL. -/
theorem image_turned : ∃ m m', ByteOrder.little.image linkToWx = some m ∧
    ByteOrder.big.image linkToWx = some m' ∧ m 3212 = 119 ∧ m' 3212 = 0 ∧ m' 3215 = 119 := by
  have hlittle : (ByteOrder.little.image linkToWx).map (fun m => m 3212) = some 119 := by
    decide +kernel
  have hbig : (ByteOrder.big.image linkToWx).map (fun m => (m 3212, m 3215)) = some (0, 119) := by
    decide +kernel
  obtain ⟨m, hm, h0⟩ := Option.map_eq_some_iff.1 hlittle
  obtain ⟨m', hm', h1⟩ := Option.map_eq_some_iff.1 hbig
  rw [Prod.mk.injEq] at h1
  exact ⟨m, m', hm, hm', h0, h1⟩

end OsLabs.Ospfs
