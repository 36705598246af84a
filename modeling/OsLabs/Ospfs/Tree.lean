import OsLabs.Ospfs.Entries
import Mathlib.Data.Finset.Prod

/-!
# OSPFS: directory trees

`Tree g m`: sizes, types and directory entries are in order. `linkCount g m i` is
the number of live entries that name inode `i`.
-/

namespace OsLabs.Ospfs

/-- The inodes that hold block pointers: all but symbolic links. -/
def Files (g : Geometry) (m : Mem) (j : Nat) : Prop :=
  j < g.ninodes ∧ oiFtype m (inodeAddr j) ≠ ftypeSymlink

structure Tree (g : Geometry) (m : Mem) : Prop where
  kinds : ∀ j, j < g.ninodes → oiFtype m (inodeAddr j) ≤ ftypeSymlink
  whole : ∀ j, Files g m j → oiSize m (inodeAddr j) + 1023 < 2 ^ 32
  dirs : ∀ d, d < g.ninodes → IsDir m d →
    oiSize m (inodeAddr d) % 1024 = 0 ∧ oiNlink m (inodeAddr d) ≠ 0
  names : ∀ d k name i, d < g.ninodes → dirent m d k = some (name, i) →
    name.length ≤ 123 ∧ 0 ∉ name ∧ 2 ≤ i ∧ i < g.ninodes

def positions (g : Geometry) : Finset (Nat × Nat) :=
  Finset.range g.ninodes ×ˢ Finset.range (8 * g.nblocks)

def NamesIno (m : Mem) (i d k : Nat) : Prop := (dirent m d k).map Prod.snd = some i

instance (m : Mem) (i d k : Nat) : Decidable (NamesIno m i d k) :=
  inferInstanceAs (Decidable (_ = _))

def linkCount (g : Geometry) (m : Mem) (i : Nat) : Nat :=
  ((positions g).filter fun e => NamesIno m i e.1 e.2).card

variable {g : Geometry} {S : Nat → Prop} {m m' : Mem} {d k i : Nat}

theorem files_of_isDir (hd : IsDir m d) (hlt : d < g.ninodes) : Files g m d := by
  refine ⟨hlt, ?_⟩
  rw [show oiFtype m (inodeAddr d) = ftypeDir from hd]
  decide

theorem Tree.dirOk (h : Tree g m) (hlt : d < g.ninodes) (hd : IsDir m d) :
    DirOk (Files g m) m d :=
  ⟨files_of_isDir hd hlt, hd, (h.dirs d hlt hd).1⟩

theorem dirent_lt {v : Bytes × Nat} (h : dirent m d k = some v) :
    IsDir m d ∧ k < entries m d ∧ odIno m (entryAddr m d k) ≠ 0 ∧
      v = (odName m (entryAddr m d k), odIno m (entryAddr m d k)) := by
  unfold dirent at h
  split at h
  · next hc =>
    cases h
    exact ⟨hc.1, hc.2.1, hc.2.2, rfl⟩
  · cases h

theorem dirent_of_isDir (hd : IsDir m d) (hk : k < entries m d) :
    dirent m d k = if odIno m (entryAddr m d k) ≠ 0 then
      some (odName m (entryAddr m d k), odIno m (entryAddr m d k)) else none := by
  unfold dirent
  simp only [hd, hk, true_and]

/-! ## Counting -/

theorem card_filter_change {ι : Type} [DecidableEq ι] {E : Finset ι} {p q : ι → Prop}
    [DecidablePred p] [DecidablePred q] {e : ι} (he : e ∈ E)
    (h : ∀ x, x ∈ E → x ≠ e → (p x ↔ q x)) :
    (E.filter p).card + (if q e then 1 else 0) = (E.filter q).card + (if p e then 1 else 0) := by
  have hsplit (r : ι → Prop) [DecidablePred r] :
      (E.filter r).card = ((E.erase e).filter r).card + if r e then 1 else 0 := by
    conv_lhs => rw [← Finset.insert_erase he]
    rw [Finset.filter_insert]
    split
    · rw [Finset.card_insert_of_notMem (by simp)]
    · rfl
  have hsame : (E.erase e).filter p = (E.erase e).filter q :=
    Finset.filter_congr fun x hx => h x (Finset.mem_of_mem_erase hx) (Finset.ne_of_mem_erase hx)
  rw [hsplit p, hsplit q, hsame]
  omega

theorem linkCount_congr (h : ∀ d k, d < g.ninodes → dirent m' d k = dirent m d k) (i : Nat) :
    linkCount g m' i = linkCount g m i := by
  unfold linkCount
  congr 1
  refine Finset.filter_congr fun e he => ?_
  unfold NamesIno
  rw [h e.1 e.2 (Finset.mem_range.1 (Finset.mem_product.1 he).1)]

theorem linkCount_change (hd : d < g.ninodes) (hk : k < 8 * g.nblocks)
    (h : ∀ d' k', d' < g.ninodes → (d', k') ≠ (d, k) → dirent m' d' k' = dirent m d' k') (i : Nat) :
    linkCount g m' i + (if NamesIno m i d k then 1 else 0) =
      linkCount g m i + (if NamesIno m' i d k then 1 else 0) := by
  have he : (d, k) ∈ positions g :=
    Finset.mem_product.2 ⟨Finset.mem_range.2 hd, Finset.mem_range.2 hk⟩
  have hch := card_filter_change (p := fun e : Nat × Nat => NamesIno m' i e.1 e.2)
    (q := fun e => NamesIno m i e.1 e.2) he fun e he' hne => by
      unfold NamesIno
      rw [h e.1 e.2 (Finset.mem_range.1 (Finset.mem_product.1 he').1) hne]
  unfold linkCount
  exact hch

theorem linkCount_le (i : Nat) : linkCount g m i ≤ g.ninodes * (8 * g.nblocks) := by
  refine Nat.le_trans (Finset.card_filter_le _ _) ?_
  unfold positions
  rw [Finset.card_product, Finset.card_range, Finset.card_range]

theorem linkCount_eq_zero : linkCount g m i = 0 ↔
    ∀ d k, (d, k) ∈ positions g → ¬ NamesIno m i d k := by
  unfold linkCount
  rw [Finset.card_eq_zero, Finset.filter_eq_empty_iff]
  constructor
  · intro h d k hdk
    exact @h (d, k) hdk
  · rintro h ⟨d, k⟩ hdk
    exact h d k hdk

end OsLabs.Ospfs
