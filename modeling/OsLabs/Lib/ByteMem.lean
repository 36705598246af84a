import Mathlib.Data.Nat.Bitwise
import Mathlib.Tactic.Ring

/-!
# Byte memories

A memory maps addresses to bytes. `get32` and `set32` read and write
little-endian 32-bit words, `fill` is `memset`, `store` is `memcpy` from a list
of bytes. Each write changes only its own range, so a read at other addresses
is unchanged; a read of the range gives what was written.
-/

namespace OsLabs

abbrev Mem := Nat → UInt8

namespace Mem

variable (m m' : Mem) (a b n v : Nat)

def get32 : Nat :=
  (m a).toNat + 2 ^ 8 * (m (a + 1)).toNat + 2 ^ 16 * (m (a + 2)).toNat +
    2 ^ 24 * (m (a + 3)).toNat

/-- The low 32 bits of `v` are stored. -/
def set32 : Mem := fun x =>
  if a ≤ x ∧ x < a + 4 then UInt8.ofNat (v / 2 ^ (8 * (x - a))) else m x

def fill (c : UInt8) : Mem := fun x => if a ≤ x ∧ x < a + n then c else m x

def store (bytes : List UInt8) : Mem := fun x =>
  if a ≤ x ∧ x < a + bytes.length then bytes.getD (x - a) 0 else m x

/-- The `n` bytes of `m'` from address `b` are copied to address `a`. -/
def copy : Mem := fun x => if a ≤ x ∧ x < a + n then m' (b + (x - a)) else m x

/-- The `n` bytes from address `a`. -/
def load : List UInt8 := (List.range n).map fun i => m (a + i)

/-- The memory with the word `w j` at address `4 * j`. -/
def ofWords (w : Nat → Nat) : Mem := fun x => UInt8.ofNat (w (x / 4) / 2 ^ (8 * (x % 4)))

variable {m m' a b n v}

/-! ## Words -/

theorem get32_lt : m.get32 a < 2 ^ 32 := by
  have h0 := (m a).toNat_lt
  have h1 := (m (a + 1)).toNat_lt
  have h2 := (m (a + 2)).toNat_lt
  have h3 := (m (a + 3)).toNat_lt
  unfold get32
  omega

theorem get32_congr (h : ∀ x, a ≤ x → x < a + 4 → m' x = m x) : m'.get32 a = m.get32 a := by
  unfold get32
  rw [h a (by omega) (by omega), h (a + 1) (by omega) (by omega), h (a + 2) (by omega) (by omega),
    h (a + 3) (by omega) (by omega)]

theorem get32_of_zero (h : ∀ i, i < 4 → m (a + i) = 0) : m.get32 a = 0 := by
  have h0 := h 0 (by omega)
  rw [Nat.add_zero] at h0
  unfold get32
  rw [h0, h 1 (by omega), h 2 (by omega), h 3 (by omega)]
  rfl

theorem get32_ofWords (w : Nat → Nat) (j : Nat) : (ofWords w).get32 (4 * j) = w j % 2 ^ 32 := by
  have hbyte (i : Nat) (hi : i < 4) :
      (ofWords w (4 * j + i)).toNat = w j / 2 ^ (8 * i) % 2 ^ 8 := by
    unfold ofWords
    rw [show (4 * j + i) / 4 = j by omega, show (4 * j + i) % 4 = i by omega, UInt8.toNat_ofNat']
  have h0 := hbyte 0 (by omega)
  have h1 := hbyte 1 (by omega)
  have h2 := hbyte 2 (by omega)
  have h3 := hbyte 3 (by omega)
  rw [Nat.add_zero] at h0
  unfold get32
  rw [h0, h1, h2, h3]
  omega

/-- A word determines its bytes. -/
theorem byte_of_get32 (h : m'.get32 b = m.get32 a) {i : Nat} (hi : i < 4) :
    m' (b + i) = m (a + i) := by
  unfold get32 at h
  have h0 := (m a).toNat_lt
  have h1 := (m (a + 1)).toNat_lt
  have h2 := (m (a + 2)).toNat_lt
  have h3 := (m (a + 3)).toNat_lt
  have h0' := (m' b).toNat_lt
  have h1' := (m' (b + 1)).toNat_lt
  have h2' := (m' (b + 2)).toNat_lt
  have h3' := (m' (b + 3)).toNat_lt
  apply UInt8.toNat_inj.1
  obtain rfl | rfl | rfl | rfl : i = 0 ∨ i = 1 ∨ i = 2 ∨ i = 3 := by omega
  · simp only [Nat.add_zero]; omega
  · omega
  · omega
  · omega

theorem set32_of_ne {x : Nat} (h : x < a ∨ a + 4 ≤ x) : m.set32 a v x = m x := by
  unfold set32
  rw [if_neg (by omega)]

theorem get32_set32 : (m.set32 a v).get32 a = v % 2 ^ 32 := by
  have hbyte (i : Nat) (hi : i < 4) : (m.set32 a v (a + i)).toNat = v / 2 ^ (8 * i) % 2 ^ 8 := by
    unfold set32
    rw [if_pos (by omega), Nat.add_sub_cancel_left, UInt8.toNat_ofNat']
  have h0 := hbyte 0 (by omega)
  have h1 := hbyte 1 (by omega)
  have h2 := hbyte 2 (by omega)
  have h3 := hbyte 3 (by omega)
  rw [Nat.add_zero] at h0
  unfold get32
  rw [h0, h1, h2, h3]
  omega

theorem get32_set32_of_lt (h : v < 2 ^ 32) : (m.set32 a v).get32 a = v := by
  rw [get32_set32, Nat.mod_eq_of_lt h]

theorem get32_set32_ne (h : a + 4 ≤ b ∨ b + 4 ≤ a) : (m.set32 a v).get32 b = m.get32 b :=
  get32_congr fun _ _ _ => set32_of_ne (by omega)

theorem set32_mod : m.set32 a (v % 2 ^ 32) = m.set32 a v := by
  funext x
  unfold set32
  split
  · apply UInt8.toNat_inj.1
    rw [UInt8.toNat_ofNat', UInt8.toNat_ofNat']
    obtain h | h | h | h : x - a = 0 ∨ x - a = 1 ∨ x - a = 2 ∨ x - a = 3 := by omega
    all_goals rw [h]; omega
  · rfl

theorem set32_zero (h : ∀ x, a ≤ x → x < a + 4 → m x = 0) : m.set32 a 0 = m := by
  funext x
  unfold set32
  split
  · rename_i hx
    rw [h x hx.1 hx.2, Nat.zero_div]
    rfl
  · rfl

theorem set32_get32 : m.set32 a (m.get32 a) = m := by
  funext x
  by_cases hx : a ≤ x ∧ x < a + 4
  · have hb : m.set32 a (m.get32 a) (a + (x - a)) = m (a + (x - a)) :=
      byte_of_get32 (get32_set32_of_lt get32_lt) (by omega)
    rwa [Nat.add_sub_cancel' hx.1] at hb
  · exact set32_of_ne (by omega)

/-! ## Ranges -/

theorem fill_of_ne {c : UInt8} {x : Nat} (h : x < a ∨ a + n ≤ x) : m.fill a n c x = m x := by
  unfold fill
  rw [if_neg (by omega)]

theorem fill_of_mem {c : UInt8} {x : Nat} (h : a ≤ x) (h' : x < a + n) : m.fill a n c x = c := by
  unfold fill
  rw [if_pos ⟨h, h'⟩]

theorem store_of_ne {bytes : List UInt8} {x : Nat} (h : x < a ∨ a + bytes.length ≤ x) :
    m.store a bytes x = m x := by
  unfold store
  rw [if_neg (by omega)]

theorem store_of_lt {bytes : List UInt8} {i : Nat} (h : i < bytes.length) :
    m.store a bytes (a + i) = bytes[i] := by
  unfold store
  rw [if_pos (by omega), Nat.add_sub_cancel_left, List.getD_eq_getElem _ _ h]

theorem get32_store_ne {bytes : List UInt8} (h : a + bytes.length ≤ b ∨ b + 4 ≤ a) :
    (m.store a bytes).get32 b = m.get32 b :=
  get32_congr fun _ _ _ => store_of_ne (by omega)

@[simp] theorem length_load : (m.load a n).length = n := by simp [load]

theorem getElem_load {i : Nat} (h : i < (m.load a n).length) : (m.load a n)[i] = m (a + i) := by
  simp [load]

theorem load_congr (h : ∀ x, a ≤ x → x < a + n → m' x = m x) : m'.load a n = m.load a n := by
  unfold load
  apply List.map_congr_left
  intro i hi
  rw [List.mem_range] at hi
  exact h _ (by omega) (by omega)

end Mem

/-! ## Single bits of a word -/

theorem testBit_and_shift (w k : Nat) : (w &&& 1 <<< k != 0) = w.testBit k := by
  rw [Nat.one_shiftLeft, Nat.and_two_pow]
  cases w.testBit k
  · simp
  · simp

theorem testBit_setBit (w k j : Nat) :
    (w ||| 1 <<< k).testBit j = (w.testBit j || decide (k = j)) := by
  rw [Nat.one_shiftLeft, Nat.testBit_or, Nat.testBit_two_pow]

/-- `w & ~(1 << k)` on 32-bit words. -/
theorem testBit_clearBit {w k : Nat} (hw : w < 2 ^ 32) (hk : k < 32) (j : Nat) :
    (w &&& (2 ^ 32 - 1 - 1 <<< k)).testBit j = (w.testBit j && decide (k ≠ j)) := by
  have hlt : 1 <<< k < 2 ^ 32 := by
    rw [Nat.one_shiftLeft]
    exact Nat.pow_lt_pow_right (by decide) hk
  rw [Nat.testBit_and, Nat.sub_sub, Nat.add_comm 1, Nat.testBit_two_pow_sub_succ hlt,
    Nat.one_shiftLeft, Nat.testBit_two_pow]
  rcases Nat.lt_or_ge j 32 with hj | hj
  · simp [hj]
  · have hwj : w.testBit j = false :=
      Nat.testBit_lt_two_pow (Nat.lt_of_lt_of_le hw (Nat.pow_le_pow_right (by decide) hj))
    simp [hwj]

end OsLabs
