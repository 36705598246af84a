import OsLabs.Lib.Runs
import OsLabs.Ospfs.Clear
import OsLabs.Ospfs.Lengthen

/-!
# OSPFS: `change_size` under wrap-around

`change_size` as a system of single turns (`resizing`). As long as every call is clear of
`oi_size`, each turn takes the two block counts closer by one, the loops end, and the number of
calls is the distance (`resizing_run`), for any pair of 32-bit sizes. On a volume in order all
calls are clear.
-/

namespace OsLabs.Ospfs

variable {m m' m₁ : Mem} {oi ino a b c n v k : Nat}

/-! ## `change_size` step by step -/

/-- Where `change_size` stands: in its first loop, in the rollback with `r` blocks to go, in its
second loop, or back. -/
inductive Phase where
  | adding
  | undoing (r : Nat)
  | removing
  | returned (ret : Ret)

/-- `adds` counts the calls of `add_block` that succeeded (`r` in the first loop), `undos` and
`removes` those of `remove_block` in the rollback and in the second loop. -/
structure Resizing where
  phase : Phase
  mem : Mem
  adds : Nat
  undos : Nat
  removes : Nat

section

variable (oi newSize : Nat)

/-- One turn of a loop of `change_size`, or the way out of it. -/
def Resizing.next (s : Resizing) : Option Resizing :=
  match s.phase with
  | .adding =>
    if ospfsSize2nblocks (oiSize s.mem oi) < ospfsSize2nblocks newSize then
      match addBlock s.mem oi with
      | (.ok (), m) => some { s with mem := m, adds := s.adds + 1 }
      | (.error .eNoSpc, m) => some { s with phase := .undoing s.adds, mem := m }
      | (.error _, m) => some { s with phase := .returned (.error .eIo), mem := m }
    else some { s with phase := .removing }
  | .undoing 0 => some { s with phase := .returned (.error .eNoSpc) }
  | .undoing (r + 1) =>
    some { s with phase := .undoing r, mem := removeBlock s.mem oi, undos := s.undos + 1 }
  | .removing =>
    if ospfsSize2nblocks (oiSize s.mem oi) > ospfsSize2nblocks newSize then
      some { s with mem := removeBlock s.mem oi, removes := s.removes + 1 }
    else some { s with phase := .returned (.ok ()), mem := s.mem.set32 oi newSize }
  | .returned _ => none

def resizing (m : Mem) : System Resizing Unit where
  Init s := s = ⟨.adding, m, 0, 0, 0⟩
  Step s _ s' := s.next oi newSize = some s'

/-- The call of `add_block` or `remove_block` that comes next stores nowhere else in `oi_size`. -/
def Resizing.Clear (s : Resizing) : Prop :=
  match s.phase with
  | .adding => ospfsSize2nblocks (oiSize s.mem oi) < ospfsSize2nblocks newSize →
      AddClear s.mem oi
  | .undoing r => r ≠ 0 → RemoveClear s.mem oi
  | .removing => ospfsSize2nblocks newSize < ospfsSize2nblocks (oiSize s.mem oi) →
      RemoveClear s.mem oi
  | .returned _ => True

/-- What holds of every state: with `q` and `q'` blocks in the old and the new size, one of
`q' - q` and `q - q'` is 0 and the other one the distance. -/
structure Bounded (m : Mem) (s : Resizing) : Prop where
  adds : s.adds ≤ ospfsSize2nblocks newSize - ospfsSize2nblocks (oiSize m oi)
  removes : s.removes ≤ ospfsSize2nblocks (oiSize m oi) - ospfsSize2nblocks newSize
  undos : s.undos ≤ s.adds
  ok : s.phase = .returned (.ok ()) → s.undos = 0 ∧
    s.adds = ospfsSize2nblocks newSize - ospfsSize2nblocks (oiSize m oi) ∧
    s.removes = ospfsSize2nblocks (oiSize m oi) - ospfsSize2nblocks newSize
  noSpc : s.phase = .returned (.error .eNoSpc) →
    s.undos = s.adds ∧ s.removes = 0 ∧ oiSize s.mem oi = oiSize m oi
  errno : ∀ e, s.phase = .returned (.error e) → e = .eNoSpc
  result : ∀ ret, s.phase = .returned ret → changeSize m oi newSize = some (ret, s.mem)

/-- The turns, one by one. -/
inductive Turn : Resizing → Resizing → Prop
  | add {m m' : Mem} {a u r : Nat} :
      ospfsSize2nblocks (oiSize m oi) < ospfsSize2nblocks newSize →
      addBlock m oi = (.ok (), m') → Turn ⟨.adding, m, a, u, r⟩ ⟨.adding, m', a + 1, u, r⟩
  | full {m m' : Mem} {a u r : Nat} :
      ospfsSize2nblocks (oiSize m oi) < ospfsSize2nblocks newSize →
      addBlock m oi = (.error .eNoSpc, m') →
      Turn ⟨.adding, m, a, u, r⟩ ⟨.undoing a, m', a, u, r⟩
  | fail {m m' : Mem} {a u r : Nat} {e : Errno} :
      ospfsSize2nblocks (oiSize m oi) < ospfsSize2nblocks newSize →
      addBlock m oi = (.error e, m') → e ≠ .eNoSpc →
      Turn ⟨.adding, m, a, u, r⟩ ⟨.returned (.error .eIo), m', a, u, r⟩
  | grown {m : Mem} {a u r : Nat} :
      ospfsSize2nblocks newSize ≤ ospfsSize2nblocks (oiSize m oi) →
      Turn ⟨.adding, m, a, u, r⟩ ⟨.removing, m, a, u, r⟩
  | undo {m : Mem} {k a u r : Nat} :
      Turn ⟨.undoing (k + 1), m, a, u, r⟩ ⟨.undoing k, removeBlock m oi, a, u + 1, r⟩
  | undone {m : Mem} {a u r : Nat} :
      Turn ⟨.undoing 0, m, a, u, r⟩ ⟨.returned (.error .eNoSpc), m, a, u, r⟩
  | remove {m : Mem} {a u r : Nat} :
      ospfsSize2nblocks newSize < ospfsSize2nblocks (oiSize m oi) →
      Turn ⟨.removing, m, a, u, r⟩ ⟨.removing, removeBlock m oi, a, u, r + 1⟩
  | shrunk {m : Mem} {a u r : Nat} :
      ospfsSize2nblocks (oiSize m oi) ≤ ospfsSize2nblocks newSize →
      Turn ⟨.removing, m, a, u, r⟩ ⟨.returned (.ok ()), m.set32 oi newSize, a, u, r⟩

end

variable {newSize : Nat} {s s' : Resizing}

theorem turn_of_next (h : s.next oi newSize = some s') : Turn oi newSize s s' := by
  obtain ⟨p, m, a, u, r⟩ := s
  cases p with
  | adding =>
    unfold Resizing.next at h
    dsimp only at h
    by_cases hlt : ospfsSize2nblocks (oiSize m oi) < ospfsSize2nblocks newSize
    · rw [if_pos hlt] at h
      rcases hadd : addBlock m oi with ⟨e | ⟨⟩, m'⟩
      · rw [hadd] at h
        by_cases he : e = .eNoSpc
        · subst he
          cases h
          exact .full hlt hadd
        · cases e <;> first | exact absurd rfl he | (cases h; exact .fail hlt hadd he)
      · rw [hadd] at h
        cases h
        exact .add hlt hadd
    · rw [if_neg hlt] at h
      cases h
      exact .grown (Nat.le_of_not_lt hlt)
  | undoing k =>
    cases k with
    | zero => cases h; exact .undone
    | succ k => cases h; exact .undo
  | removing =>
    unfold Resizing.next at h
    dsimp only at h
    by_cases hlt : ospfsSize2nblocks (oiSize m oi) > ospfsSize2nblocks newSize
    · rw [if_pos hlt] at h
      cases h
      exact .remove hlt
    · rw [if_neg hlt] at h
      cases h
      exact .shrunk (Nat.le_of_not_lt hlt)
  | returned ret => cases h

theorem Turn.next (h : Turn oi newSize s s') : s.next oi newSize = some s' := by
  unfold Resizing.next
  cases h with
  | add hlt ha =>
    dsimp only
    rw [if_pos hlt, ha]
  | full hlt ha =>
    dsimp only
    rw [if_pos hlt, ha]
  | @fail _ _ _ _ _ e hlt ha he =>
    dsimp only
    rw [if_pos hlt, ha]
    cases e <;> first | rfl | exact absurd rfl he
  | grown hle => exact if_neg (Nat.not_lt_of_le hle)
  | undo => rfl
  | undone => rfl
  | remove hlt => exact if_pos hlt
  | shrunk hle => exact if_neg (Nat.not_lt_of_le hle)

theorem next_eq_none (h : s.next oi newSize = none) : ∃ ret, s.phase = .returned ret := by
  obtain ⟨p, m, a, u, r⟩ := s
  cases p with
  | adding =>
    unfold Resizing.next at h
    dsimp only at h
    split at h
    · rcases hadd : addBlock m oi with ⟨e | ⟨⟩, m'⟩
      · rw [hadd] at h
        cases e <;> cases h
      · rw [hadd] at h
        cases h
    · cases h
  | undoing k =>
    cases k <;> cases h
  | removing =>
    unfold Resizing.next at h
    dsimp only at h
    split at h <;> cases h
  | returned ret => exact ⟨ret, rfl⟩

/-! ## Every turn moves the quotient by one -/

/-- Turns to go, at most. -/
def toGo (oi newSize : Nat) (s : Resizing) : Nat :=
  let n := ospfsSize2nblocks (oiSize s.mem oi)
  let k := ospfsSize2nblocks newSize
  match s.phase with
  | .adding => 2 * (k - n) + (n - k) + s.adds + 2
  | .undoing r => r + 1
  | .removing => n - k + 1
  | .returned _ => 0

theorem inode_aligned (h : ospfsInode m ino = some oi) : oi % 64 = 0 := by
  have := ospfsBlock_mod (osFirstinob m)
  unfold ospfsInode at h
  split at h
  · cases h
  · cases h
    omega

theorem toGo_lt (halign : oi % 64 = 0) (hc : s.Clear oi newSize) (h : Turn oi newSize s s') :
    toGo oi newSize s' < toGo oi newSize s := by
  unfold toGo
  cases h with
  | @add m₁ m₂ a u r hlt ha =>
    have hclear : AddClear m₁ oi := hc hlt
    have hmax := size2nblocks_lt newSize
    have := (hclear.quotient halign (by omega) ha).2
    dsimp only
    omega
  | full hlt ha => dsimp only; omega
  | fail hlt ha he => dsimp only; omega
  | grown hle => dsimp only; omega
  | undo => dsimp only; omega
  | undone => dsimp only; omega
  | @remove m₁ a u r hlt =>
    have hclear : RemoveClear m₁ oi := hc hlt
    have := hclear.quotient (by omega)
    dsimp only
    omega
  | shrunk hle => dsimp only; omega

/-! ## Every run -/

/-- What holds in front of each turn. -/
def Progress (oi newSize : Nat) (m : Mem) (s : Resizing) : Prop :=
  let n := ospfsSize2nblocks (oiSize m oi)
  let k := ospfsSize2nblocks newSize
  let c := ospfsSize2nblocks (oiSize s.mem oi)
  match s.phase with
  | .adding => s.undos = 0 ∧ s.removes = 0 ∧ s.adds ≤ k - n ∧ c = n + s.adds ∧
      oiSize s.mem oi = (oiSize m oi + 1024 * s.adds) % 2 ^ 32
  | .undoing r => s.removes = 0 ∧ s.adds < k - n ∧ s.undos + r = s.adds ∧
      oiSize s.mem oi = (oiSize m oi + 1024 * r) % 2 ^ 32
  | .removing => s.undos = 0 ∧ s.adds = k - n ∧ k ≤ c ∧ s.removes + c = max n k
  | .returned (.ok ()) => s.undos = 0 ∧ s.adds = k - n ∧ s.removes = n - k
  | .returned (.error e) => e = .eNoSpc ∧ s.removes = 0 ∧ s.adds < k - n ∧ s.undos = s.adds ∧
      oiSize s.mem oi = oiSize m oi

theorem progress_turn (halign : oi % 64 = 0) (hp : Progress oi newSize m s)
    (hc : s.Clear oi newSize) (h : Turn oi newSize s s') : Progress oi newSize m s' := by
  unfold Progress at *
  cases h with
  | @add m₁ m₂ a u r hlt ha =>
    have hclear : AddClear m₁ oi := hc hlt
    obtain ⟨hu, hr, hle, hn, hsize⟩ := hp
    dsimp only at *
    have hmax := size2nblocks_lt newSize
    obtain ⟨hsize', hn'⟩ := hclear.quotient halign (by omega) ha
    refine ⟨hu, hr, by omega, by omega, ?_⟩
    rw [hsize', hsize]
    omega
  | @full m₁ m₂ a u r hlt ha =>
    have hclear : AddClear m₁ oi := hc hlt
    obtain ⟨hu, hr, hle, hn, hsize⟩ := hp
    dsimp only at *
    exact ⟨hr, by omega, by omega, (hclear.error halign ha).2.trans hsize⟩
  | @fail m₁ m₂ a u r e hlt ha he =>
    have hclear : AddClear m₁ oi := hc hlt
    exact absurd (hclear.error halign ha).1 he
  | grown hle =>
    obtain ⟨hu, hr, hadds, hn, hsize⟩ := hp
    dsimp only at *
    exact ⟨hu, by omega, hle, by omega⟩
  | @undo m₁ j a u r =>
    have hclear : RemoveClear m₁ oi := hc (Nat.succ_ne_zero j)
    obtain ⟨hr, hlt, hsum, hsize⟩ := hp
    dsimp only at *
    refine ⟨hr, hlt, by omega, ?_⟩
    rw [hclear.removeBlock, hsize]
    omega
  | undone =>
    obtain ⟨hr, hlt, hsum, hsize⟩ := hp
    have hsmall : oiSize m oi < 2 ^ 32 := oiSize_lt m oi
    dsimp only at *
    exact ⟨rfl, hr, hlt, by omega, by omega⟩
  | @remove m₁ a u r hlt =>
    have hclear : RemoveClear m₁ oi := hc hlt
    obtain ⟨hu, ha, hle, hsum⟩ := hp
    dsimp only at *
    have := hclear.quotient (by omega)
    exact ⟨hu, ha, by omega, by omega⟩
  | shrunk hle =>
    obtain ⟨hu, ha, hk, hsum⟩ := hp
    dsimp only at *
    exact ⟨hu, ha, by omega⟩

/-! ## The turns are those of `changeSize` -/

/-- What `changeSize` still has to do. -/
def rest (oi newSize : Nat) (s : Resizing) : Option (Ret × Mem) :=
  match s.phase with
  | .adding =>
    (growLoop oi newSize (ospfsSize2nblocks newSize - s.adds) s.adds s.mem).bind fun (r, m) =>
      match r with
      | .error e => some (.error e, m)
      | .ok () =>
        (shrinkLoop oi newSize (ospfsSize2nblocks (oiSize m oi)) m).bind fun m =>
          some (.ok (), m.set32 oi newSize)
  | .undoing r => some (.error .eNoSpc, removeBlocks oi r s.mem)
  | .removing =>
    (shrinkLoop oi newSize (ospfsSize2nblocks (oiSize s.mem oi)) s.mem).bind fun m =>
      some (.ok (), m.set32 oi newSize)
  | .returned ret => some (ret, s.mem)

theorem rest_start : rest oi newSize ⟨.adding, m, 0, 0, 0⟩ = changeSize m oi newSize := rfl

theorem rest_turn (halign : oi % 64 = 0) (hp : Progress oi newSize m s)
    (hc : s.Clear oi newSize) (h : Turn oi newSize s s') :
    rest oi newSize s' = rest oi newSize s := by
  unfold Progress at hp
  cases h with
  | @add m₁ m₂ a u r hlt ha =>
    obtain ⟨-, -, hle, hn, -⟩ := hp
    dsimp only at hle hn
    obtain ⟨f, hf⟩ : ∃ f, ospfsSize2nblocks newSize - a = f + 1 :=
      Nat.exists_eq_succ_of_ne_zero (by omega)
    have hf' : ospfsSize2nblocks newSize - (a + 1) = f := by omega
    unfold rest
    dsimp only
    rw [hf, hf', growLoop_add hlt ha]
  | @full m₁ m₂ a u r hlt ha =>
    obtain ⟨-, -, hle, hn, -⟩ := hp
    dsimp only at hle hn
    obtain ⟨f, hf⟩ : ∃ f, ospfsSize2nblocks newSize - a = f + 1 :=
      Nat.exists_eq_succ_of_ne_zero (by omega)
    unfold rest
    dsimp only
    rw [hf, growLoop_full hlt ha]
    rfl
  | @fail m₁ m₂ a u r e hlt ha he =>
    have hclear : AddClear m₁ oi := hc hlt
    exact absurd (hclear.error halign ha).1 he
  | @grown m₁ a u r hle =>
    unfold rest
    dsimp only
    rw [growLoop_done hle]
    rfl
  | undo => rfl
  | undone => rfl
  | @remove m₁ a u r hlt =>
    have hclear : RemoveClear m₁ oi := hc hlt
    obtain ⟨f, hf⟩ : ∃ f, ospfsSize2nblocks (oiSize m₁ oi) = f + 1 :=
      Nat.exists_eq_succ_of_ne_zero (by omega)
    have hf' : ospfsSize2nblocks (oiSize (removeBlock m₁ oi) oi) = f := by
      rw [hclear.quotient (by omega)]
      omega
    unfold rest
    dsimp only
    rw [hf, hf', shrinkLoop_remove hlt]
  | @shrunk m₁ a u r hle =>
    unfold rest
    dsimp only
    rw [shrinkLoop_done hle]
    rfl

theorem Progress.bounded (h : Progress oi newSize m s)
    (hrest : rest oi newSize s = changeSize m oi newSize) : Bounded oi newSize m s := by
  obtain ⟨p, m₁, a, u, r⟩ := s
  cases p with
  | adding =>
    obtain ⟨hu, hr, hle, -, -⟩ := h
    dsimp only at hu hr hle
    exact ⟨hle, by dsimp only; omega, by dsimp only; omega, nofun, nofun, nofun, nofun⟩
  | undoing k =>
    obtain ⟨hr, hlt, hsum, -⟩ := h
    dsimp only at hr hlt hsum
    exact ⟨by dsimp only; omega, by dsimp only; omega, by dsimp only; omega, nofun, nofun, nofun,
      nofun⟩
  | removing =>
    obtain ⟨hu, ha, hle, hsum⟩ := h
    dsimp only at hu ha hle hsum
    exact ⟨by dsimp only; omega, by dsimp only; omega, by dsimp only; omega, nofun, nofun, nofun,
      nofun⟩
  | returned ret =>
    have hresult : ∀ ret', Phase.returned ret = .returned ret' →
        changeSize m oi newSize = some (ret', m₁) := by
      rintro _ ⟨⟩
      exact hrest.symm
    cases ret with
    | ok _ =>
      obtain ⟨hu, ha, hr⟩ := h
      exact ⟨Nat.le_of_eq ha, Nat.le_of_eq hr, by dsimp only at hu ⊢; omega, fun _ => ⟨hu, ha, hr⟩,
        nofun, nofun, hresult⟩
    | error e =>
      obtain ⟨rfl, hr, hlt, hu, hsize⟩ := h
      dsimp only at hr hlt hu
      refine ⟨Nat.le_of_lt hlt, by dsimp only; omega, Nat.le_of_eq hu, nofun,
        fun _ => ⟨hu, hr, hsize⟩, ?_, hresult⟩
      rintro _ ⟨⟩
      rfl

namespace Volume

/-! ### Volumes in order -/

section

variable {V : Volume}

theorem Held.slot_misses (h : Held V oi c m) (hoi : V.Inode oi) {p : Place} (hp : p.Valid) :
    Misses oi (slot m oi p) 4 := by
  obtain ⟨hlo, hhi, -⟩ := hoi.address
  have hfirst := V.firstinob_ge
  by_cases hpres : Present m oi p
  · obtain ⟨-, -, hin | hdata⟩ := h.points.slot_range hoi hpres
    · exact .inr (by omega)
    · exact .inr (by omega)
  · obtain ⟨q, hq, h0⟩ : ∃ q, p.parent = some q ∧ ptr m oi q = 0 := by
      by_contra hno
      exact hpres ⟨hp, fun q hq h0 => hno ⟨q, hq, h0⟩⟩
    have hidx := Place.idx_lt_of_some hp hq
    have hzero : ospfsBlock 0 = 0 := rfl
    rw [slot_of_some hq, h0, hzero]
    exact .inl (by omega)

theorem tableSlot_eq (hn : 266 ≤ n) :
    tableSlot m oi n = slot m oi (.indir2 ((n - 266) / 256)) := by
  unfold tableSlot
  rw [toNat_indirIndex hn]
  rfl

theorem indir2_valid (hn' : n < maxfileblks) : (Place.indir2 ((n - 266) / 256)).Valid := by
  show (n - 266) / 256 < 256
  unfold maxfileblks at hn'
  omega

theorem Held.leafSlot_eq (h : Held V oi c m) (hn : n < maxfileblks) :
    leafSlot m oi n = slot m oi (.leaf n) := by
  obtain ⟨hlt, hpar, hidx⟩ | ⟨hge, hlt, hpar, hidx⟩ | ⟨hge, hpar, hidx⟩ := Place.leaf_cases n
  · rw [leafSlot_direct hlt, slot_of_none hpar, hidx]
  · rw [leafSlot_indirect hge hlt, slot_of_some hpar, hidx, directIndex_indirect hge hlt]
    rfl
  · rw [leafSlot_indirect2 hge, slot_of_some hpar, hidx, directIndex_indirect2 hge,
      tableSlot_eq hge, h.boot.get_slot (indir2_valid hn)]

theorem Held.addClear (h : Held V oi c m) (hoi : V.Inode oi) (hc : c < maxfileblks) :
    AddClear m oi := by
  obtain ⟨hlo, hhi, -⟩ := hoi.address
  have hend : bitmapEnd m ≤ 1024 * V.firstinob := by
    unfold bitmapEnd
    rw [h.mounted.nblocks]
    exact V.bitmap
  refine ⟨by omega, fun b hb => ?_, ?_, ?_⟩
  · obtain ⟨-, hlt, hf⟩ := mem_freeSet.1 hb
    rw [h.mounted.nblocks] at hlt
    have hd := h.mounted.isData hlt hf
    have := hd.address
    rw [hd.block]
    exact .inr (by omega)
  · dsimp only
    rw [h.count]
    intro _ _ _
    rw [h.leafSlot_eq hc]
    exact h.slot_misses hoi (leaf_valid hc)
  · dsimp only
    rw [h.count]
    intro hge _
    split
    · exact hc
    · next h0 =>
      have hpres : Present m oi (.indir2 ((c - 266) / 256)) :=
        present_of_parent (indir2_valid hc) rfl h0
      have hrange := (h.points.slot_range hoi hpres).2.1
      refine ⟨.inr ?_, fun _ => ?_⟩
      · rw [tableSlot_eq hge]
        omega
      · rw [h.leafSlot_eq hc]
        exact h.slot_misses hoi (leaf_valid hc)

theorem Held.removeClear (h : Held V oi c m) (hoi : V.Inode oi) (hc : c < maxfileblks) :
    RemoveClear m oi := by
  have hleaf := h.leafSlot_eq hc
  refine ⟨?_, ?_, ?_⟩ <;> dsimp only <;> rw [h.count]
  · rw [hleaf]
    exact h.slot_misses hoi (leaf_valid hc)
  · intro hge _
    rw [tableSlot_eq hge]
    exact h.slot_misses hoi (indir2_valid hc)
  · rw [hleaf, h.boot.get_slot (leaf_valid hc), h.mounted.firstinob]
    intro hv _
    have hfirst := V.firstinob_ge
    have hd := h.points (.leaf c) (by omega)
    have := bit_word hd.2
    have := hoi.address.1
    exact .inl (by omega)

/-- The file between two turns, resized from `n` to `k` blocks. -/
def InOrder (V : Volume) (oi n k : Nat) (s : Resizing) : Prop :=
  match s.phase with
  | .adding => ∃ c, Held V oi c s.mem ∧ Taken s.mem oi ∧ s.adds ≤ c ∧ c ≤ max n k
  | .undoing r => ∃ c, Held V oi c s.mem ∧ r ≤ c ∧ c < maxfileblks
  | .removing => ∃ c, Held V oi c s.mem ∧ c ≤ max n k
  | .returned _ => True

theorem InOrder.clear (h : InOrder V oi n (ospfsSize2nblocks newSize) s) (hoi : V.Inode oi)
    (hn : n < maxfileblks) (hk : ospfsSize2nblocks newSize ≤ maxfileblks) :
    s.Clear oi newSize := by
  obtain ⟨p, m, a, u, r⟩ := s
  cases p with
  | adding =>
    obtain ⟨c, hheld, -, -, hc⟩ := h
    intro hlt
    dsimp only at hlt hheld ⊢
    rw [hheld.count] at hlt
    exact hheld.addClear hoi (by omega)
  | undoing j =>
    obtain ⟨c, hheld, -, hc⟩ := h
    exact fun _ => hheld.removeClear hoi hc
  | removing =>
    obtain ⟨c, hheld, hc⟩ := h
    intro hlt
    dsimp only at hlt hheld ⊢
    rw [hheld.count] at hlt
    exact hheld.removeClear hoi (by omega)
  | returned ret => trivial

theorem InOrder.turn (h : InOrder V oi n (ospfsSize2nblocks newSize) s) (hoi : V.Inode oi)
    (hn : n < maxfileblks) (hk : ospfsSize2nblocks newSize ≤ maxfileblks)
    (ht : Turn oi newSize s s') : InOrder V oi n (ospfsSize2nblocks newSize) s' := by
  cases ht with
  | @add m₁ m₂ a u r hlt ha =>
    obtain ⟨c, hheld, htaken, hadds, hc⟩ := h
    dsimp only at hheld htaken hadds
    rw [hheld.count] at hlt
    obtain ⟨m₃, hadd, hlen⟩ | ⟨m₃, hadd, -, -⟩ := hheld.addBlock htaken hoi (by omega)
    · rw [ha] at hadd
      cases hadd
      exact ⟨c + 1, hlen.held, hlen.taken, Nat.succ_le_succ hadds, by omega⟩
    · rw [ha] at hadd
      cases hadd
  | @full m₁ m₂ a u r hlt ha =>
    obtain ⟨c, hheld, htaken, hadds, hc⟩ := h
    dsimp only at hheld htaken hadds
    rw [hheld.count] at hlt
    obtain ⟨m₃, hadd, -⟩ | ⟨m₃, hadd, hfail, -⟩ := hheld.addBlock htaken hoi (by omega)
    · rw [ha] at hadd
      cases hadd
    · rw [ha] at hadd
      cases hadd
      exact ⟨c, hfail.held, hadds, by omega⟩
  | fail hlt ha he => trivial
  | grown hle =>
    obtain ⟨c, hheld, -, -, hc⟩ := h
    exact ⟨c, hheld, hc⟩
  | undo =>
    obtain ⟨c, hheld, hr, hc⟩ := h
    have htrim := hheld.removeBlock hoi (by omega) (Nat.le_of_lt hc) fun he => by omega
    exact ⟨c - 1, htrim.held, by omega, by omega⟩
  | undone => trivial
  | @remove m₁ a u r hlt =>
    obtain ⟨c, hheld, hc⟩ := h
    dsimp only at hheld
    rw [hheld.count] at hlt
    have htrim := hheld.removeBlock hoi (by omega) (by omega) fun he => by omega
    exact ⟨c - 1, htrim.held, by omega⟩
  | shrunk hle => trivial

/-- On a volume in order with an empty boot block every run is clear. -/
theorem Held.clear_run {h : List Unit} (hheld : Held V oi n m) (ht : Taken m oi)
    (hoi : V.Inode oi) (hn : n < maxfileblks) (hk : ospfsSize2nblocks newSize ≤ maxfileblks)
    (hr : (resizing oi newSize m).Run h s) :
    (resizing oi newSize m).RunIf (fun s _ => s.Clear oi newSize) h s := by
  have hboth : (resizing oi newSize m).RunIf (fun s _ => s.Clear oi newSize) h s ∧
      InOrder V oi n (ospfsSize2nblocks newSize) s := by
    induction hr with
    | init hi =>
      refine ⟨.init hi, ?_⟩
      cases hi
      exact ⟨n, hheld, ht, Nat.zero_le n, Nat.le_max_left _ _⟩
    | step _ _ hs ih =>
      obtain ⟨hrun, hord⟩ := ih
      exact ⟨.step hrun (hord.clear hoi hn hk) hs, hord.turn hoi hn hk (turn_of_next hs)⟩
  exact hboth.1

theorem WellFormed.clear_run {h : List Unit} (hwf : V.WellFormed m oi n) (hboot : BootZero m)
    (hn : n < maxfileblks) (hk : ospfsSize2nblocks newSize ≤ maxfileblks)
    (hr : (resizing oi newSize m).Run h s) :
    (resizing oi newSize m).RunIf (fun s _ => s.Clear oi newSize) h s :=
  (hwf.held hboot).clear_run hwf.taken hwf.inode hn hk hr

end

theorem WellFormed.of_boot {V : Volume} (h : V.WellFormed m oi n)
    (hx : ∀ x, 1024 ≤ x → m' x = m x) : V.WellFormed m' oi n := by
  have hfirst := V.firstinob_ge
  have hword {a : Nat} (ha : 1024 ≤ a) : m'.get32 a = m.get32 a :=
    Mem.get32_congr fun x hxa _ => hx x (Nat.le_trans ha hxa)
  have hlo := h.inode.address.1
  have hsize : oiSize m' oi = oiSize m oi := hword (by omega)
  have hfree {b : Nat} : isFree m' b = isFree m b := by
    rw [isFree_eq, isFree_eq, hword (by omega)]
  have hptr (p : Place) : ptr m' oi p = ptr m oi p := by
    refine ptr_congr (fun q hq => hword ?_) p
    have := (h.points.slot_range h.inode hq).2.1
    omega
  refine ⟨h.mounted.congr (fun x hx' _ => hx x hx') fun b hb => hfree.trans (h.mounted.low b hb),
    h.inode, h.within, by rw [hsize]; exact h.size, by rw [hsize]; exact h.blocks, ?_, ?_, ?_⟩
  · intro p hp
    rw [hptr p]
    exact ⟨(h.used p hp).1, hfree.trans (h.used p hp).2⟩
  · intro p q hp hq he
    rw [hptr p, hptr q] at he
    exact h.once p q hp hq he
  · intro p hp
    rw [hptr p]
    exact h.beyond p hp

end Volume

open Volume

/-- `change_size` under wrap-around: every run whose calls of `add_block` and `remove_block` store
nowhere else in `oi_size` ends, and makes as many of them as there are blocks between the sizes. -/
theorem resizing_run {h : List Unit} (hino : ospfsInode m ino = some oi)
    (hr : (resizing oi newSize m).RunIf (fun s _ => s.Clear oi newSize) h s) :
    h.length ≤ 2 * (ospfsSize2nblocks newSize - ospfsSize2nblocks (oiSize m oi)) +
        (ospfsSize2nblocks (oiSize m oi) - ospfsSize2nblocks newSize) + 2 ∧
      ((∃ ret, s.phase = .returned ret) ∨ ∃ s', s.next oi newSize = some s') ∧
      Bounded oi newSize m s := by
  have halign := inode_aligned hino
  have hinv : Progress oi newSize m s ∧ rest oi newSize s = changeSize m oi newSize := by
    refine hr.inv (I := fun _ s => Progress oi newSize m s ∧
      rest oi newSize s = changeSize m oi newSize) ?_ ?_
    · rintro _ rfl
      have hsmall := oiSize_lt m oi
      exact ⟨⟨rfl, rfl, Nat.zero_le _, rfl, (Nat.mod_eq_of_lt hsmall).symm⟩, rest_start⟩
    · rintro _ s _ s' ⟨hp, hrest⟩ hc hs
      have hturn := turn_of_next hs
      exact ⟨progress_turn halign hp hc hturn, (rest_turn halign hp hc hturn).trans hrest⟩
  refine ⟨?_, ?_, hinv.1.bounded hinv.2⟩
  · obtain ⟨_, rfl, hle⟩ := hr.length_add_le (m := toGo oi newSize)
      fun s _ s' hc hs => toGo_lt halign hc (turn_of_next hs)
    unfold toGo at hle
    dsimp only at hle
    omega
  · cases hnext : s.next oi newSize with
    | none => exact .inl (next_eq_none hnext)
    | some s' => exact .inr ⟨s', rfl⟩

/-- A file of `n` blocks whose size is set to `v`. -/
def sizedDisk (n v : Nat) : Mem := (sampleDisk n 7).set32 3136 v

theorem sizedDisk_clear_run {n v : Nat} {h : List Unit} (hm : sizedDisk n v = m) (hn : n ≤ 266)
    (hv : v < 2 ^ 32) (hk : ospfsSize2nblocks v = n)
    (hnew : ospfsSize2nblocks newSize ≤ maxfileblks) (hr : (resizing 3136 newSize m).Run h s) :
    (resizing 3136 newSize m).RunIf (fun s _ => s.Clear 3136 newSize) h s := by
  subst hm
  have hwf : sampleVolume.WellFormed (sampleDisk n 7) 3136 n :=
    sampleDisk_wellFormed hn (by decide)
  obtain ⟨hh, ht, -⟩ :=
    (hwf.held fun x hx => sampleDisk_boot hx).set_size hwf.inode (v := v) hv hk
  exact hh.clear_run (ht hwf.taken) hwf.inode (Nat.lt_of_le_of_lt hn (by decide)) hnew hr

/-- A size close to 2 ^ 32 goes over it with the first of the two blocks that are added, and one
below a block goes below 0 with the block that is removed. -/
theorem resizing_run_wraps :
    (∃ s, (resizing 3136 2048 (sizedDisk 0 (2 ^ 32 - 512))).Run [(), (), (), ()] s ∧
      s.phase = .returned (.ok ()) ∧ s.adds = 2 ∧
      Bounded 3136 2048 (sizedDisk 0 (2 ^ 32 - 512)) s) ∧
    ∃ s, (resizing 3136 0 (sizedDisk 1 512)).Run [(), (), ()] s ∧
      s.phase = .returned (.ok ()) ∧ s.removes = 1 ∧ Bounded 3136 0 (sizedDisk 1 512) s := by
  constructor
  · generalize hm : sizedDisk 0 (2 ^ 32 - 512) = m₀
    have hadd : addBlock m₀ 3136 = (.ok (), (addBlock m₀ 3136).2) :=
      Prod.ext (by subst hm; decide +kernel) rfl
    generalize hm1 : (addBlock m₀ 3136).2 = m₁ at hadd
    have hadd1 : addBlock m₁ 3136 = (.ok (), (addBlock m₁ 3136).2) :=
      Prod.ext (by subst hm1 hm; decide +kernel) rfl
    generalize hm2 : (addBlock m₁ 3136).2 = m₂ at hadd1
    have hsize : oiSize m₀ 3136 = 2 ^ 32 - 512 := by subst hm; decide +kernel
    have hsize1 : oiSize m₁ 3136 = 512 := by subst hm1 hm; decide +kernel
    have hsize2 : oiSize m₂ 3136 = 1536 := by subst hm2 hm1 hm; decide +kernel
    have h1 : Turn 3136 2048 ⟨.adding, m₀, 0, 0, 0⟩ ⟨.adding, m₁, 1, 0, 0⟩ :=
      .add (by rw [hsize]; decide) hadd
    have h2 : Turn 3136 2048 ⟨.adding, m₁, 1, 0, 0⟩ ⟨.adding, m₂, 2, 0, 0⟩ :=
      .add (by rw [hsize1]; decide) hadd1
    have h3 : Turn 3136 2048 ⟨.adding, m₂, 2, 0, 0⟩ ⟨.removing, m₂, 2, 0, 0⟩ :=
      .grown (by rw [hsize2]; decide)
    have h4 : Turn 3136 2048 ⟨.removing, m₂, 2, 0, 0⟩
        ⟨.returned (.ok ()), m₂.set32 3136 2048, 2, 0, 0⟩ := .shrunk (by rw [hsize2]; decide)
    have hrun : (resizing 3136 2048 m₀).Run [(), (), (), ()]
        ⟨.returned (.ok ()), m₂.set32 3136 2048, 2, 0, 0⟩ :=
      .step (.step (.step (.step (.init rfl) trivial h1.next) trivial h2.next) trivial h3.next)
        trivial h4.next
    have hino : ospfsInode m₀ 1 = some 3136 := by subst hm; decide +kernel
    have hclear :=
      sizedDisk_clear_run hm (by decide) (by decide) (by decide) (by decide) hrun
    exact ⟨_, hrun, rfl, rfl, (resizing_run hino hclear).2.2⟩
  · generalize hm : sizedDisk 1 512 = m₀
    have hsize : oiSize m₀ 3136 = 512 := by subst hm; decide +kernel
    have hsize1 : oiSize (removeBlock m₀ 3136) 3136 = 2 ^ 32 - 512 := by subst hm; decide +kernel
    have h1 : Turn 3136 0 ⟨.adding, m₀, 0, 0, 0⟩ ⟨.removing, m₀, 0, 0, 0⟩ :=
      .grown (by rw [hsize]; decide)
    have h2 : Turn 3136 0 ⟨.removing, m₀, 0, 0, 0⟩ ⟨.removing, removeBlock m₀ 3136, 0, 0, 1⟩ :=
      .remove (by rw [hsize]; decide)
    have h3 : Turn 3136 0 ⟨.removing, removeBlock m₀ 3136, 0, 0, 1⟩
        ⟨.returned (.ok ()), (removeBlock m₀ 3136).set32 3136 0, 0, 0, 1⟩ :=
      .shrunk (by rw [hsize1]; decide)
    have hrun : (resizing 3136 0 m₀).Run [(), (), ()]
        ⟨.returned (.ok ()), (removeBlock m₀ 3136).set32 3136 0, 0, 0, 1⟩ :=
      .step (.step (.step (.init rfl) trivial h1.next) trivial h2.next) trivial h3.next
    have hino : ospfsInode m₀ 1 = some 3136 := by subst hm; decide +kernel
    have hclear :=
      sizedDisk_clear_run hm (by decide) (by decide) (by decide) (by decide) hrun
    exact ⟨_, hrun, rfl, rfl, (resizing_run hino hclear).2.2⟩

/-- A file of ten direct blocks. Read as a block number, the first word of the boot block has its
bit in the size of the inode. -/
def tenBlocks : Mem := (sampleDisk 10 0).set32 0 8714

theorem tenBlocks_two_removes : sampleVolume.WellFormed tenBlocks 3136 10 ∧
    ospfsInode tenBlocks 1 = some 3136 ∧
    ospfsSize2nblocks (oiSize tenBlocks 3136) - ospfsSize2nblocks 9216 = 1 ∧
    ∃ s, (resizing 3136 9216 tenBlocks).Run [(), (), (), ()] s ∧
      s.phase = .returned (.ok ()) ∧ s.removes = 2 := by
  have hsize : oiSize tenBlocks 3136 = 10240 := by decide +kernel
  have hsize1 : oiSize (removeBlock tenBlocks 3136) 3136 = 10240 := by decide +kernel
  have hsize2 : oiSize (removeBlock (removeBlock tenBlocks 3136) 3136) 3136 = 9216 := by
    decide +kernel
  have hwf : sampleVolume.WellFormed tenBlocks 3136 10 :=
    (sampleDisk_wellFormed (f := 0) (by decide) (by decide)).of_boot
      fun x hx => Mem.set32_of_ne (by omega)
  refine ⟨hwf, by decide +kernel, by rw [hsize]; rfl, ?_⟩
  have h1 : Turn 3136 9216 ⟨.adding, tenBlocks, 0, 0, 0⟩ ⟨.removing, tenBlocks, 0, 0, 0⟩ :=
    .grown (by rw [hsize]; decide)
  have h2 : Turn 3136 9216 ⟨.removing, tenBlocks, 0, 0, 0⟩
      ⟨.removing, removeBlock tenBlocks 3136, 0, 0, 1⟩ := .remove (by rw [hsize]; decide)
  have h3 : Turn 3136 9216 ⟨.removing, removeBlock tenBlocks 3136, 0, 0, 1⟩
      ⟨.removing, removeBlock (removeBlock tenBlocks 3136) 3136, 0, 0, 2⟩ :=
    .remove (by rw [hsize1]; decide)
  have h4 : Turn 3136 9216 ⟨.removing, removeBlock (removeBlock tenBlocks 3136) 3136, 0, 0, 2⟩
      ⟨.returned (.ok ()), (removeBlock (removeBlock tenBlocks 3136) 3136).set32 3136 9216,
        0, 0, 2⟩ := .shrunk (by rw [hsize2])
  exact ⟨_, .step (.step (.step (.step (.init rfl) trivial h1.next) trivial h2.next) trivial
    h3.next) trivial h4.next, rfl, rfl⟩

end OsLabs.Ospfs
