import OsLabs.Ospfs.Layout
import OsLabs.Lib.Ownership

/-!
# OSPFS: block pointers

A `Place` of an inode is a position that holds a block number: the pointer of
file block `b` (wherever the block map keeps it), the indirect block, the doubly
indirect block, or an indirect block under it. `ptr m oi p` is the number at
place `p`, or 0 when the place would lie in a block that is missing. `own`
collects the pointers of a set `S` of inodes; `Laid` says that they are data
blocks with one place each. Under `Laid` a write to one slot changes one pointer
(`own_write`), unlinks a table (`own_clear`) or links an empty one (`own_link`).
-/

namespace OsLabs.Ospfs

inductive Place where
  | leaf (b : Nat)
  | indirect
  | indirect2
  | indir2 (k : Nat)
  deriving DecidableEq, Repr

namespace Place

/-- The place of the block that holds this place; `none` for the inode itself. -/
def parent : Place → Option Place
  | leaf b =>
    if b < 10 then none
    else if b < 266 then some indirect
    else some (indir2 ((b - 266) / 256))
  | indirect => none
  | indirect2 => none
  | indir2 _ => some indirect2

/-- The position in the block, or among the twelve pointers of the inode. -/
def idx : Place → Nat
  | leaf b => if b < 10 then b else if b < 266 then b - 10 else (b - 266) % 256
  | indirect => 10
  | indirect2 => 11
  | indir2 k => k

def Valid : Place → Prop
  | leaf b => b < maxfileblks
  | indir2 k => k < 256
  | _ => True

def IsTable : Place → Prop
  | leaf _ => False
  | _ => True

def InUse (n : Nat) : Place → Prop
  | leaf b => b < n
  | indirect => 10 < n
  | indirect2 => 266 < n
  | indir2 k => 266 + 256 * k < n

/-- Places reached through `p`, itself included. -/
inductive Under (p : Place) : Place → Prop where
  | refl : Under p p
  | step {q r : Place} : q.parent = some r → Under p r → Under p q

instance (p : Place) : Decidable p.Valid := by
  cases p <;> unfold Valid <;> infer_instance

instance (p : Place) : Decidable p.IsTable := by
  cases p <;> unfold IsTable <;> infer_instance

instance (n : Nat) (p : Place) : Decidable (p.InUse n) := by
  cases p <;> unfold InUse <;> infer_instance

theorem leaf_cases (b : Nat) :
    (b < 10 ∧ (leaf b).parent = none ∧ (leaf b).idx = b) ∨
    (10 ≤ b ∧ b < 266 ∧ (leaf b).parent = some indirect ∧ (leaf b).idx = b - 10) ∨
    (266 ≤ b ∧ (leaf b).parent = some (indir2 ((b - 266) / 256)) ∧
      (leaf b).idx = (b - 266) % 256) := by
  unfold parent idx
  rcases Nat.lt_or_ge b 10 with h | h
  · simp [h]
  have h10 : ¬ b < 10 := by omega
  rcases Nat.lt_or_ge b 266 with h' | h'
  · simp [h10, h, h']
  · have h266 : ¬ b < 266 := by omega
    simp [h10, h266, h']

theorem parent_isTable {p q : Place} (h : p.parent = some q) : q.IsTable := by
  cases p with
  | leaf b =>
    obtain ⟨-, hp, -⟩ | ⟨-, -, hp, -⟩ | ⟨-, hp, -⟩ := leaf_cases b <;> rw [hp] at h <;> cases h <;>
      trivial
  | indirect => cases h
  | indirect2 => cases h
  | indir2 k => cases h; trivial

theorem parent_ne {p q : Place} (h : p.parent = some q) : p ≠ q := by
  rintro rfl
  cases p with
  | leaf b => exact parent_isTable h
  | _ => cases h

theorem parent_induction {P : Place → Prop} (h : ∀ p, (∀ q, p.parent = some q → P q) → P p)
    (p : Place) : P p := by
  have hroot (p : Place) (hp : p.parent = none) : P p := h p fun q hq => by rw [hp] at hq; cases hq
  have hindir2 (k : Nat) : P (indir2 k) := h _ fun q hq => by cases hq; exact hroot _ rfl
  apply h
  intro q hq
  have ht := parent_isTable hq
  cases q with
  | leaf b => exact ht.elim
  | indirect => exact hroot _ rfl
  | indirect2 => exact hroot _ rfl
  | indir2 k => exact hindir2 k

theorem under_of_none {p q : Place} (h : q.parent = none) : p.Under q ↔ p = q := by
  constructor
  · intro hu
    cases hu with
    | refl => rfl
    | step hr _ => rw [h] at hr; cases hr
  · rintro rfl
    exact .refl

theorem under_of_some {p q r : Place} (h : q.parent = some r) :
    p.Under q ↔ p = q ∨ p.Under r := by
  constructor
  · intro hu
    cases hu with
    | refl => exact .inl rfl
    | step hr hu =>
      rw [h] at hr
      cases hr
      exact .inr hu
  · rintro (rfl | hu)
    · exact .refl
    · exact .step h hu

theorem not_under_parent {p r : Place} (h : p.parent = some r) : ¬ p.Under r := by
  intro hu
  have ht := parent_isTable h
  cases p with
  | leaf b =>
    cases hu with
    | refl => exact ht
    | step hr hu =>
      cases hu with
      | refl => exact parent_isTable hr
      | step hr' hu => cases r <;> first | exact ht | (cases hr; done) | (cases hr; cases hr')
  | indirect => cases h
  | indirect2 => cases h
  | indir2 k =>
    cases h
    cases hu with
    | step hr _ => cases hr

theorem parent_idx_inj {p q : Place} (hp : p.parent = q.parent) (hi : p.idx = q.idx) : p = q := by
  cases p with
  | leaf b =>
    obtain ⟨hb, hpb, hib⟩ | ⟨hb, hb', hpb, hib⟩ | ⟨hb, hpb, hib⟩ := leaf_cases b <;>
      rw [hpb] at hp <;> rw [hib] at hi
    · cases q with
      | leaf c =>
        obtain ⟨hc, hpc, hic⟩ | ⟨hc, hc', hpc, hic⟩ | ⟨hc, hpc, hic⟩ := leaf_cases c <;>
          rw [hpc] at hp <;> rw [hic] at hi
        · rw [hi]
        · cases hp
        · cases hp
      | indirect => simp only [idx] at hi; omega
      | indirect2 => simp only [idx] at hi; omega
      | indir2 k => cases hp
    · cases q with
      | leaf c =>
        obtain ⟨hc, hpc, hic⟩ | ⟨hc, hc', hpc, hic⟩ | ⟨hc, hpc, hic⟩ := leaf_cases c <;>
          rw [hpc] at hp <;> rw [hic] at hi
        · cases hp
        · exact congrArg leaf (by omega)
        · cases hp
      | _ => cases hp
    · cases q with
      | leaf c =>
        obtain ⟨hc, hpc, hic⟩ | ⟨hc, hc', hpc, hic⟩ | ⟨hc, hpc, hic⟩ := leaf_cases c <;>
          rw [hpc] at hp <;> rw [hic] at hi
        · cases hp
        · cases hp
        · simp only [Option.some.injEq, indir2.injEq] at hp
          exact congrArg leaf (by omega)
      | _ => cases hp
  | indirect =>
    cases q with
    | leaf c =>
      obtain ⟨hc, -, hic⟩ | ⟨-, -, hpc, -⟩ | ⟨-, hpc, -⟩ := leaf_cases c
      · rw [hic] at hi; simp only [idx] at hi; omega
      · rw [hpc] at hp; cases hp
      · rw [hpc] at hp; cases hp
    | indirect => rfl
    | indirect2 => cases hi
    | indir2 k => cases hp
  | indirect2 =>
    cases q with
    | leaf c =>
      obtain ⟨hc, -, hic⟩ | ⟨-, -, hpc, -⟩ | ⟨-, hpc, -⟩ := leaf_cases c
      · rw [hic] at hi; simp only [idx] at hi; omega
      · rw [hpc] at hp; cases hp
      · rw [hpc] at hp; cases hp
    | indirect => cases hi
    | indirect2 => rfl
    | indir2 k => cases hp
  | indir2 k =>
    cases q with
    | leaf c =>
      obtain ⟨-, hpc, -⟩ | ⟨-, -, hpc, -⟩ | ⟨-, hpc, -⟩ := leaf_cases c <;> rw [hpc] at hp <;> cases hp
    | indirect => cases hp
    | indirect2 => cases hp
    | indir2 l => rw [show k = l from hi]

theorem idx_lt_of_none {p : Place} (h : p.parent = none) : p.idx < 12 := by
  cases p with
  | leaf b =>
    obtain ⟨hb, -, hi⟩ | ⟨-, -, hp, -⟩ | ⟨-, hp, -⟩ := leaf_cases b
    · omega
    · rw [hp] at h; cases h
    · rw [hp] at h; cases h
  | indirect => decide
  | indirect2 => decide
  | indir2 k => cases h

theorem idx_lt_of_some {p q : Place} (hv : p.Valid) (h : p.parent = some q) : p.idx < 256 := by
  cases p with
  | leaf b =>
    obtain ⟨-, hp, -⟩ | ⟨-, hb, -, hi⟩ | ⟨-, -, hi⟩ := leaf_cases b
    · rw [hp] at h; cases h
    · omega
    · omega
  | indirect => cases h
  | indirect2 => cases h
  | indir2 k => exact hv

theorem inUse_of_parent {p q : Place} {n : Nat} (h : p.parent = some q) (hp : p.InUse n) :
    q.InUse n := by
  cases p with
  | leaf b =>
    have hlt : b < n := hp
    obtain ⟨-, hb, -⟩ | ⟨hb', -, hb, -⟩ | ⟨hb', hb, -⟩ := leaf_cases b <;> rw [hb] at h <;> cases h
    · show 10 < n
      omega
    · show 266 + 256 * ((b - 266) / 256) < n
      omega
  | indirect => cases h
  | indirect2 => cases h
  | indir2 k => cases h; unfold InUse at *; omega

theorem inUse_succ {p : Place} {n : Nat} : p.InUse (n + 1) ↔ p.InUse n ∨ p.Under (leaf n) := by
  obtain ⟨hb, hp, -⟩ | ⟨hb, hb', hp, -⟩ | ⟨hb, hp, -⟩ := leaf_cases n
  · rw [under_of_none hp]
    cases p <;> simp [InUse] <;> omega
  · rw [under_of_some hp, under_of_none rfl]
    cases p <;> simp [InUse] <;> omega
  · rw [under_of_some hp, under_of_some rfl, under_of_none rfl]
    cases p <;> simp [InUse] <;> omega

end Place

/-! ## Pointers of an inode -/

/-- Entry `j` of the pointer block `p`, 0 when there is no such block. -/
def entry (m : Mem) (p j : Nat) : Nat := if p = 0 then 0 else m.get32 (ospfsBlock p + 4 * j)

def ptr (m : Mem) (oi : Nat) : Place → Nat
  | .leaf b =>
    if b < 10 then oiDirect m oi b
    else if b < 266 then entry m (oiIndirect m oi) (b - 10)
    else if b < maxfileblks then
      entry m (entry m (oiIndirect2 m oi) ((b - 266) / 256)) ((b - 266) % 256)
    else 0
  | .indirect => oiIndirect m oi
  | .indirect2 => oiIndirect2 m oi
  | .indir2 k => if k < 256 then entry m (oiIndirect2 m oi) k else 0

/-- The block a place lies in is there. -/
def Present (m : Mem) (oi : Nat) (p : Place) : Prop :=
  p.Valid ∧ ∀ q, p.parent = some q → ptr m oi q ≠ 0

theorem leaf_valid {b : Nat} (h : b < maxfileblks) : (Place.leaf b).Valid := h

theorem present_of_root {m : Mem} {oi : Nat} {p : Place} (hp : p.Valid) (h : p.parent = none) :
    Present m oi p := by
  refine ⟨hp, fun q hq => ?_⟩
  rw [h] at hq
  cases hq

theorem present_of_parent {m : Mem} {oi : Nat} {p q : Place} (hp : p.Valid)
    (h : p.parent = some q) (h0 : ptr m oi q ≠ 0) : Present m oi p := by
  refine ⟨hp, fun q' hq => ?_⟩
  rw [h] at hq
  cases hq
  exact h0

/-- The address at which a place's block number stands. -/
def slot (m : Mem) (oi : Nat) (p : Place) : Nat :=
  match p.parent with
  | none => oi + 16 + 4 * p.idx
  | some q => ospfsBlock (ptr m oi q) + 4 * p.idx

theorem slot_of_none {p : Place} (h : p.parent = none) (m : Mem) (oi : Nat) :
    slot m oi p = oi + 16 + 4 * p.idx := by
  unfold slot
  rw [h]

theorem slot_of_some {p q : Place} (h : p.parent = some q) (m : Mem) (oi : Nat) :
    slot m oi p = ospfsBlock (ptr m oi q) + 4 * p.idx := by
  unfold slot
  rw [h]

theorem ptr_of_present {m : Mem} {oi : Nat} {p : Place} (h : Present m oi p) :
    ptr m oi p = m.get32 (slot m oi p) := by
  obtain ⟨hv, hp⟩ := h
  cases p with
  | leaf b =>
    unfold Place.Valid at hv
    unfold slot ptr
    obtain ⟨hb, hpb, hib⟩ | ⟨hb, hb', hpb, hib⟩ | ⟨hb, hpb, hib⟩ := Place.leaf_cases b
    · rw [hpb, hib]
      simp only [hb, if_true, oiDirect]
    · have h0 := hp _ hpb
      have h10 : ¬ b < 10 := by omega
      rw [hpb, hib]
      simp only [ptr] at h0 ⊢
      simp only [h10, hb', if_true, if_false, entry, h0]
    · have h0 := hp _ hpb
      have h10 : ¬ b < 10 := by omega
      have h266 : ¬ b < 266 := by omega
      have hk : (b - 266) / 256 < 256 := by unfold maxfileblks at hv; omega
      rw [hpb, hib]
      simp only [ptr, hk, if_true] at h0 ⊢
      simp only [h10, h266, if_false, hv, if_true]
      rw [entry, if_neg h0]
  | indirect => rfl
  | indirect2 => rfl
  | indir2 k =>
    have h0 := hp _ rfl
    unfold Place.Valid at hv
    simp only [ptr] at h0 ⊢
    simp only [hv, if_true, entry, h0, if_false]
    rfl

theorem ptr_of_not_present {m : Mem} {oi : Nat} {p : Place} (h : ¬ Present m oi p) :
    ptr m oi p = 0 := by
  by_cases hv : p.Valid
  · have hex : ∃ q, p.parent = some q ∧ ptr m oi q = 0 := by
      by_contra hno
      exact h ⟨hv, fun q hq h0 => hno ⟨q, hq, h0⟩⟩
    obtain ⟨q, hq, h0⟩ := hex
    cases p with
    | leaf b =>
      unfold Place.Valid at hv
      obtain ⟨hb, hpb, -⟩ | ⟨hb, hb', hpb, -⟩ | ⟨hb, hpb, -⟩ := Place.leaf_cases b <;>
        rw [hpb] at hq <;> cases hq
      · have h10 : ¬ b < 10 := by omega
        simp only [ptr] at h0
        simp only [ptr, h10, hb', if_true, if_false, h0, entry]
      · have h10 : ¬ b < 10 := by omega
        have h266 : ¬ b < 266 := by omega
        have hk : (b - 266) / 256 < 256 := by unfold maxfileblks at hv; omega
        simp only [ptr, hk, if_true] at h0
        simp only [ptr, h10, h266, hv, if_true, if_false]
        rw [h0, entry, if_pos rfl]
    | indirect => cases hq
    | indirect2 => cases hq
    | indir2 k =>
      cases hq
      simp only [ptr] at h0
      simp only [ptr, h0, entry, if_true, ite_self]
  · cases p with
    | leaf b =>
      unfold Place.Valid at hv
      have h10 : ¬ b < 10 := by unfold maxfileblks at hv; omega
      have h266 : ¬ b < 266 := by unfold maxfileblks at hv; omega
      simp only [ptr, h10, h266, hv, if_false]
    | indirect => exact absurd trivial hv
    | indirect2 => exact absurd trivial hv
    | indir2 k =>
      unfold Place.Valid at hv
      simp only [ptr, hv, if_false]

/-! ## The pointers of the file system -/

/-- Number of blocks and inodes of a formatted disk. The bitmap is block 2, the
inodes begin in block 3. -/
structure Geometry where
  nblocks : Nat
  ninodes : Nat
  small : nblocks ≤ 8192
  inodes : ninodes + 2 < nblocks

namespace Geometry

variable (g : Geometry)

def firstdata : Nat := 3 + (g.ninodes + 15) / 16

def IsData (b : Nat) : Prop := g.firstdata ≤ b ∧ b < g.nblocks

theorem firstdata_le : g.firstdata ≤ g.nblocks := by
  have := g.inodes
  unfold firstdata
  omega

theorem firstdata_ge : 3 ≤ g.firstdata := by
  unfold firstdata
  omega

end Geometry

def inodeAddr (ino : Nat) : Nat := 3072 + 64 * ino

theorem inodeAddr_ge (ino : Nat) : 3072 ≤ inodeAddr ino := Nat.le_add_right _ _

theorem inodeAddr_lt {g : Geometry} {ino : Nat} (h : ino < g.ninodes) :
    inodeAddr ino + 64 ≤ 1024 * g.firstdata := by
  unfold inodeAddr Geometry.firstdata
  omega

open Classical in
/-- What the inodes of `S` point to. -/
noncomputable def own (m : Mem) (S : Nat → Prop) (i : Nat × Place) : Nat :=
  if S i.1 then ptr m (inodeAddr i.1) i.2 else 0

theorem own_of_mem {m : Mem} {S : Nat → Prop} {ino : Nat} (h : S ino) (p : Place) :
    own m S (ino, p) = ptr m (inodeAddr ino) p := if_pos h

theorem ptr_of_own {m m' : Mem} {S : Nat → Prop} {ino : Nat} (hown : own m' S = own m S)
    (h : S ino) (p : Place) : ptr m' (inodeAddr ino) p = ptr m (inodeAddr ino) p := by
  have := congrFun hown (ino, p)
  rwa [own_of_mem h, own_of_mem h] at this

theorem mem_of_own {m : Mem} {S : Nat → Prop} {i : Nat × Place} (h : own m S i ≠ 0) : S i.1 := by
  by_contra hs
  exact h (if_neg hs)

/-- The inodes of `S` point to data blocks that are `ok`, to each from one place only. -/
structure Laid (g : Geometry) (S : Nat → Prop) (ok : Nat → Prop) (m : Mem) : Prop where
  bound : ∀ ino, S ino → ino < g.ninodes
  data : ∀ b, ok b → g.IsData b
  owns : Owns (own m S) ok

section Laid

variable {g : Geometry} {S : Nat → Prop} {ok : Nat → Prop} {m m' : Mem}

theorem Laid.isData (h : Laid g S ok m) {i : Nat × Place} (hi : own m S i ≠ 0) :
    g.IsData (own m S i) := h.data _ (h.owns.ok i hi)

theorem Laid.block_own (h : Laid g S ok m) {i : Nat × Place} (hi : own m S i ≠ 0) :
    ospfsBlock (own m S i) = 1024 * own m S i := by
  have hd := (h.isData hi).2
  have hs := g.small
  exact ospfsBlock_of_lt (by omega)

theorem Laid.slot_table (h : Laid g S ok m) {ino : Nat} {p q : Place} (hi : S ino)
    (hp : Present m (inodeAddr ino) p) (hq : p.parent = some q) :
    own m S (ino, q) ≠ 0 ∧ g.IsData (own m S (ino, q)) ∧ p.idx < 256 ∧
      slot m (inodeAddr ino) p = 1024 * own m S (ino, q) + 4 * p.idx := by
  have h0 : own m S (ino, q) ≠ 0 := by
    rw [own_of_mem hi]
    exact hp.2 q hq
  refine ⟨h0, h.isData h0, Place.idx_lt_of_some hp.1 hq, ?_⟩
  rw [slot_of_some hq, ← own_of_mem hi, h.block_own h0]

theorem Laid.slot_sep (h : Laid g S ok m) {ino ino' : Nat} {p q : Place} (hi : S ino)
    (hi' : S ino') (hp : Present m (inodeAddr ino) p) (hq : Present m (inodeAddr ino') q)
    (hne : (ino, p) ≠ (ino', q)) :
    slot m (inodeAddr ino) p + 4 ≤ slot m (inodeAddr ino') q ∨
      slot m (inodeAddr ino') q + 4 ≤ slot m (inodeAddr ino) p := by
  have hb := inodeAddr_lt (h.bound _ hi)
  have hb' := inodeAddr_lt (h.bound _ hi')
  have hsame (hpq : p.parent = q.parent) (he : ino = ino') : p.idx ≠ q.idx := by
    intro hidx
    exact hne (by rw [he, Place.parent_idx_inj hpq hidx])
  rcases hpp : p.parent with _ | r <;> rcases hqp : q.parent with _ | s
  · have hip := Place.idx_lt_of_none hpp
    have hiq := Place.idx_lt_of_none hqp
    have hsame := hsame (hpp.trans hqp.symm)
    rw [slot_of_none hpp, slot_of_none hqp]
    unfold inodeAddr
    omega
  · have hip := Place.idx_lt_of_none hpp
    obtain ⟨hs, hd, -, hqs⟩ := h.slot_table hi' hq hqp
    rw [slot_of_none hpp, hqs]
    unfold Geometry.IsData at hd
    omega
  · have hiq := Place.idx_lt_of_none hqp
    obtain ⟨hr, hd, -, hpr⟩ := h.slot_table hi hp hpp
    rw [slot_of_none hqp, hpr]
    unfold Geometry.IsData at hd
    omega
  · obtain ⟨hr, -, hip, hpr⟩ := h.slot_table hi hp hpp
    obtain ⟨hs, -, hiq, hqs⟩ := h.slot_table hi' hq hqp
    rw [hpr, hqs]
    by_cases heq : own m S (ino, r) = own m S (ino', s)
    · have hrs := h.owns.inj _ _ hr heq
      simp only [Prod.mk.injEq] at hrs
      have := hsame (by rw [hpp, hqp, hrs.2]) hrs.1
      omega
    · omega

theorem Laid.slot_cases (h : Laid g S ok m) {ino : Nat} {p : Place} (hi : S ino)
    (hp : Present m (inodeAddr ino) p) :
    (inodeAddr ino + 16 ≤ slot m (inodeAddr ino) p ∧
      slot m (inodeAddr ino) p + 4 ≤ inodeAddr ino + 64) ∨
    ∃ q, q.IsTable ∧ own m S (ino, q) ≠ 0 ∧
      1024 * own m S (ino, q) ≤ slot m (inodeAddr ino) p ∧
      slot m (inodeAddr ino) p + 4 ≤ 1024 * own m S (ino, q) + 1024 := by
  rcases hpp : p.parent with _ | q
  · have hip := Place.idx_lt_of_none hpp
    rw [slot_of_none hpp]
    exact .inl ⟨by omega, by omega⟩
  · obtain ⟨h0, -, hi, hs⟩ := h.slot_table hi hp hpp
    exact .inr ⟨q, Place.parent_isTable hpp, h0, by omega, by omega⟩

/-- Where a place is depends on the pointer to its block only. -/
theorem place_congr {oi : Nat} {p : Place}
    (h : ∀ q, p.parent = some q → ptr m' oi q = ptr m oi q) :
    (Present m' oi p ↔ Present m oi p) ∧ slot m' oi p = slot m oi p := by
  refine ⟨and_congr_right fun _ => forall_congr' fun q => forall_congr' fun hq => ?_, ?_⟩
  · rw [h q hq]
  · rcases hq : p.parent with _ | q
    · rw [slot_of_none hq, slot_of_none hq]
    · rw [slot_of_some hq, slot_of_some hq, h q hq]

theorem ptr_congr {oi : Nat}
    (h : ∀ p, Present m oi p → m'.get32 (slot m oi p) = m.get32 (slot m oi p)) (p : Place) :
    ptr m' oi p = ptr m oi p := by
  induction p using Place.parent_induction with
  | h p ih =>
    obtain ⟨hpres, hslot⟩ := place_congr ih
    by_cases hp : Present m oi p
    · rw [ptr_of_present (hpres.2 hp), ptr_of_present hp, hslot, h p hp]
    · rw [ptr_of_not_present (fun h' => hp (hpres.1 h')), ptr_of_not_present hp]

/-- Writes outside the pointer words of the inodes and outside the tables. -/
theorem Laid.own_congr (h : Laid g S ok m)
    (hI : ∀ ino, S ino → ∀ x, inodeAddr ino + 16 ≤ x → x < inodeAddr ino + 64 → m' x = m x)
    (hT : ∀ i : Nat × Place, i.2.IsTable → own m S i ≠ 0 →
      ∀ x, 1024 * own m S i ≤ x → x < 1024 * own m S i + 1024 → m' x = m x) :
    own m' S = own m S := by
  funext ⟨ino, p⟩
  by_cases hs : S ino
  · rw [own_of_mem hs, own_of_mem hs]
    refine ptr_congr (fun q hq => Mem.get32_congr fun x hx hx' => ?_) p
    rcases h.slot_cases hs hq with ⟨h1, h2⟩ | ⟨r, hr, h0, h1, h2⟩
    · exact hI ino hs x (by omega) (by omega)
    · exact hT (ino, r) hr h0 x (by omega) (by omega)
  · simp only [own, hs, if_false]

theorem Laid.own_of_meta (h : Laid g S ok m)
    (hI : ∀ ino, S ino → ∀ x, inodeAddr ino + 16 ≤ x → x < inodeAddr ino + 64 → m' x = m x)
    (hD : ∀ x, 1024 * g.firstdata ≤ x → m' x = m x) : own m' S = own m S := by
  refine h.own_congr hI fun i _ h0 x hx _ => hD x ?_
  have := (h.isData h0).1
  omega

theorem Laid.own_of_data (h : Laid g S ok m) {b : Nat} (hb : g.firstdata ≤ b)
    (hno : ∀ i : Nat × Place, i.2.IsTable → own m S i ≠ b)
    (hw : ∀ x, x < 1024 * b ∨ 1024 * b + 1024 ≤ x → m' x = m x) : own m' S = own m S := by
  refine h.own_congr (fun ino hs x _ hx => hw x ?_) fun i hi h0 x hx hx' => hw x ?_
  · have := inodeAddr_lt (h.bound _ hs)
    omega
  · have := hno i hi
    omega

theorem Laid.own_write (h : Laid g S ok m) {ino b v : Nat} (hs : S ino)
    (hp : Present m (inodeAddr ino) (.leaf b)) (hv : v < 2 ^ 32) (i : Nat × Place) :
    own (m.set32 (slot m (inodeAddr ino) (.leaf b)) v) S i =
      if i = (ino, .leaf b) then v else own m S i := by
  obtain ⟨ino', q⟩ := i
  by_cases hs' : S ino'
  case neg =>
    rw [if_neg (by rintro ⟨⟩; exact hs' hs)]
    simp only [own, hs', if_false]
  rw [own_of_mem hs', own_of_mem hs']
  induction q using Place.parent_induction with
  | h q ih =>
    generalize hm : m.set32 (slot m (inodeAddr ino) (.leaf b)) v = m' at ih ⊢
    have ih' : ∀ r, q.parent = some r → ptr m' (inodeAddr ino') r = ptr m (inodeAddr ino') r := by
      intro r hr
      rw [ih r hr, if_neg]
      rintro ⟨⟩
      exact Place.parent_isTable hr
    obtain ⟨hpres, hslot⟩ := place_congr ih'
    by_cases hq : Present m (inodeAddr ino') q
    · rw [ptr_of_present (hpres.2 hq), hslot, ← hm]
      split
      · rename_i heq
        cases heq
        exact Mem.get32_set32_of_lt hv
      · rename_i hne
        rw [ptr_of_present hq]
        exact Mem.get32_set32_ne (h.slot_sep hs hs' hp hq (Ne.symm hne))
    · rw [ptr_of_not_present (fun h' => hq (hpres.1 h')), ptr_of_not_present hq, if_neg]
      rintro ⟨⟩
      exact hq hp

theorem Laid.own_clear (h : Laid g S ok m) {ino : Nat} {p : Place} (hs : S ino)
    (hp : Present m (inodeAddr ino) p) (i : Nat × Place) :
    (i.1 = ino ∧ p.Under i.2 ∧ own (m.set32 (slot m (inodeAddr ino) p) 0) S i = 0) ∨
      (¬ (i.1 = ino ∧ p.Under i.2) ∧
        own (m.set32 (slot m (inodeAddr ino) p) 0) S i = own m S i) := by
  obtain ⟨ino', q⟩ := i
  by_cases hs' : S ino'
  case neg =>
    refine .inr ⟨by rintro ⟨rfl, -⟩; exact hs' hs, ?_⟩
    simp only [own, hs', if_false]
  rw [own_of_mem hs', own_of_mem hs']
  induction q using Place.parent_induction with
  | h q ih =>
    generalize hm : m.set32 (slot m (inodeAddr ino) p) 0 = m' at ih ⊢
    simp only at ih ⊢
    by_cases heq : (ino, p) = (ino', q)
    · cases heq
      refine .inl ⟨rfl, .refl, ?_⟩
      have hslot : slot m' (inodeAddr ino) p = slot m (inodeAddr ino) p := by
        refine (place_congr fun r hr => ?_).2
        rcases ih r hr with ⟨-, hu, -⟩ | ⟨-, hsame⟩
        · exact absurd hu (Place.not_under_parent hr)
        · exact hsame
      by_cases hq : Present m' (inodeAddr ino) p
      · rw [ptr_of_present hq, hslot, ← hm, Mem.get32_set32]
        rfl
      · exact ptr_of_not_present hq
    by_cases hu : ∃ r, q.parent = some r ∧ ino' = ino ∧ p.Under r
    · obtain ⟨r, hr, rfl, hu⟩ := hu
      refine .inl ⟨rfl, .step hr hu, ptr_of_not_present fun hq => hq.2 r hr ?_⟩
      rcases ih r hr with ⟨-, -, h0⟩ | ⟨hno, -⟩
      · exact h0
      · exact absurd ⟨rfl, hu⟩ hno
    · refine .inr ⟨?_, ?_⟩
      · rintro ⟨rfl, hu'⟩
        cases hu' with
        | refl => exact heq rfl
        | step hr hu'' => exact hu ⟨_, hr, rfl, hu''⟩
      have ih' : ∀ r, q.parent = some r →
          ptr m' (inodeAddr ino') r = ptr m (inodeAddr ino') r := by
        intro r hr
        rcases ih r hr with ⟨he, hu', -⟩ | ⟨-, hsame⟩
        · exact absurd ⟨r, hr, he, hu'⟩ hu
        · exact hsame
      obtain ⟨hpres, hslot⟩ := place_congr ih'
      by_cases hq : Present m (inodeAddr ino') q
      · rw [ptr_of_present (hpres.2 hq), ptr_of_present hq, hslot, ← hm]
        exact Mem.get32_set32_ne (h.slot_sep hs hs' hp hq heq)
      · rw [ptr_of_not_present (fun h' => hq (hpres.1 h')), ptr_of_not_present hq]

/-- Entering a block of zeros that nobody uses as a table. -/
theorem Laid.own_link (h : Laid g S ok m) {ino b : Nat} {p : Place} (hs : S ino)
    (hp : Present m (inodeAddr ino) p) (hp0 : ptr m (inodeAddr ino) p = 0) (hb : g.IsData b)
    (hfresh : ∀ i, own m S i ≠ b) (hzero : ∀ x, 1024 * b ≤ x → x < 1024 * b + 1024 → m x = 0)
    (i : Nat × Place) :
    own (m.set32 (slot m (inodeAddr ino) p) b) S i = if i = (ino, p) then b else own m S i := by
  have hsmall := g.small
  have hb22 : b < 2 ^ 22 := by have := hb.2; omega
  obtain ⟨ino', q⟩ := i
  by_cases hs' : S ino'
  case neg =>
    rw [if_neg (by rintro ⟨⟩; exact hs' hs)]
    simp only [own, hs', if_false]
  rw [own_of_mem hs', own_of_mem hs']
  induction q using Place.parent_induction with
  | h q ih =>
    generalize hm : m.set32 (slot m (inodeAddr ino) p) b = m' at ih ⊢
    by_cases hchild : ∃ r, q.parent = some r ∧ (ino', r) = (ino, p)
    · obtain ⟨r, hr, heq⟩ := hchild
      cases heq
      have hne : (ino, q) ≠ (ino, p) := by
        rintro ⟨⟩
        exact Place.parent_ne hr rfl
      rw [if_neg hne, ptr_of_not_present (m := m) fun hq => hq.2 p hr hp0]
      by_cases hq : Present m' (inodeAddr ino) q
      · have hpb : ptr m' (inodeAddr ino) p = b := by rw [ih p hr, if_pos rfl]
        have hidx := Place.idx_lt_of_some hq.1 hr
        rw [ptr_of_present hq, slot_of_some hr, hpb, ospfsBlock_of_lt hb22, ← hm]
        have hzero' : m.get32 (1024 * b + 4 * q.idx) = 0 :=
          Mem.get32_of_zero fun x hx => hzero _ (by omega) (by omega)
        rw [Mem.get32_set32_ne, hzero']
        rcases h.slot_cases hs hp with ⟨-, h2⟩ | ⟨r, -, h0, h1, h2⟩
        · have := inodeAddr_lt (h.bound _ hs)
          have := hb.1
          omega
        · have := hfresh (ino, r)
          omega
      · exact ptr_of_not_present hq
    have ih' : ∀ r, q.parent = some r → ptr m' (inodeAddr ino') r = ptr m (inodeAddr ino') r := by
      intro r hr
      rw [ih r hr, if_neg fun heq => hchild ⟨r, hr, heq⟩]
    obtain ⟨hpres, hslot⟩ := place_congr ih'
    by_cases hq : Present m (inodeAddr ino') q
    · rw [ptr_of_present (hpres.2 hq), hslot, ← hm]
      split
      · rename_i heq
        cases heq
        exact Mem.get32_set32_of_lt (by omega)
      · rename_i hne
        rw [ptr_of_present hq]
        exact Mem.get32_set32_ne (h.slot_sep hs hs' hp hq (Ne.symm hne))
    · rw [ptr_of_not_present (fun h' => hq (hpres.1 h')), ptr_of_not_present hq, if_neg]
      rintro ⟨⟩
      exact hq hp

end Laid

end OsLabs.Ospfs
