import OsLabs.Lib.ByteMem

/-!
# C strings in byte memories

`IsString m a s`: the bytes `s` and a NUL stand at address `a`, and `s` has no
NUL. `strchr` and `cString` walk through a string with the room up to the end of
a 32-bit address space; on a string that fits they find what `s` says.
-/

namespace OsLabs

namespace Mem

variable (m : Mem)

def IsString : Nat → List UInt8 → Prop
  | a, [] => m a = 0
  | a, c :: s => m a = c ∧ c ≠ 0 ∧ IsString (a + 1) s

/-- The loop of `strchr`: the address of the first `c`, or `none` at the NUL. -/
def strchrFrom (c : UInt8) : (room a : Nat) → Option Nat
  | 0, _ => none
  | k + 1, a => if m a = c then some a else if m a = 0 then none else strchrFrom c k (a + 1)

def strchr (a : Nat) (c : UInt8) : Option Nat := strchrFrom m c (2 ^ 32) a

def cStringFrom : (room a : Nat) → List UInt8
  | 0, _ => []
  | k + 1, a => if m a = 0 then [] else m a :: cStringFrom k (a + 1)

/-- The string that a pointer leads to, less its NUL. -/
def cString (a : Nat) : List UInt8 := cStringFrom m (2 ^ 32) a

variable {m : Mem} {a : Nat} {c : UInt8}

theorem IsString.ne_zero {s : List UInt8} (h : m.IsString a s) : 0 ∉ s := by
  induction s generalizing a with
  | nil => exact List.not_mem_nil
  | cons c s ih =>
    rintro (_ | ⟨_, hmem⟩)
    · exact h.2.1 rfl
    · exact ih h.2.2 hmem

theorem IsString.append {s t : List UInt8} (h : m.IsString a (s ++ t)) :
    m.IsString (a + s.length) t := by
  induction s generalizing a with
  | nil => exact h
  | cons c s ih =>
    rw [List.length_cons, Nat.add_comm s.length, ← Nat.add_assoc]
    exact ih h.2.2

theorem IsString.last {s : List UInt8} (h : m.IsString a s) : m (a + s.length) = 0 := by
  have h' : m.IsString a (s ++ []) := by rwa [List.append_nil]
  exact h'.append

theorem IsString.congr {m' : Mem} {s : List UInt8} (h : m.IsString a s)
    (hx : ∀ x, a ≤ x → x ≤ a + s.length → m' x = m x) : m'.IsString a s := by
  induction s generalizing a with
  | nil => exact (hx a (Nat.le_refl _) (Nat.le_add_right _ _)).trans h
  | cons c s ih =>
    rw [List.length_cons] at hx
    exact ⟨(hx a (Nat.le_refl _) (Nat.le_add_right _ _)).trans h.1, h.2.1,
      ih h.2.2 fun x h1 h2 => hx x (by omega) (by omega)⟩

theorem IsString.byte {s : List UInt8} {i : Nat} (h : m.IsString a s) (hi : i < s.length) :
    m (a + i) ≠ 0 := by
  induction s generalizing a i with
  | nil => exact absurd hi (Nat.not_lt_zero _)
  | cons c s ih =>
    cases i with
    | zero => exact h.1 ▸ h.2.1
    | succ i =>
      rw [Nat.add_comm i, ← Nat.add_assoc]
      exact ih h.2.2 (Nat.lt_of_succ_lt_succ hi)

/-- A string is cut off where a NUL is stored. -/
theorem IsString.cut {s t : List UInt8} (h : m.IsString a (s ++ t)) :
    IsString (m.store (a + s.length) [0]) a s := by
  induction s generalizing a with
  | nil =>
    show m.store a [0] a = 0
    exact store_of_lt (i := 0) (show 0 < [(0 : UInt8)].length from Nat.zero_lt_one)
  | cons c s ih =>
    refine ⟨?_, h.2.1, ?_⟩
    · rw [store_of_ne (by rw [List.length_cons]; omega)]
      exact h.1
    · rw [List.length_cons, Nat.add_comm s.length, ← Nat.add_assoc]
      exact ih h.2.2

theorem load_cons (m : Mem) (a n : Nat) : m.load a (n + 1) = m a :: m.load (a + 1) n := by
  unfold load
  rw [List.range_succ_eq_map, List.map_cons, List.map_map, Nat.add_zero]
  congr 1
  refine List.map_congr_left fun i _ => ?_
  rw [Function.comp_apply, Nat.succ_eq_add_one, Nat.add_assoc, Nat.add_comm 1]

theorem load_prefix (m : Mem) (a : Nat) {n k : Nat} (h : n ≤ k) : m.load a n <+: m.load a k := by
  have htake : m.load a n = (m.load a k).take n := by
    unfold load
    rw [← List.map_take, List.take_range, Nat.min_eq_left h]
  exact htake ▸ List.take_prefix n _

/-- `strncmp` with a prefix of the string. -/
theorem IsString.load {s t : List UInt8} (h : m.IsString a (s ++ t)) : m.load a s.length = s := by
  induction s generalizing a with
  | nil => rfl
  | cons d s ih => rw [List.length_cons, load_cons, h.1, ih h.2.2]

/-- Bytes in front of a string. -/
theorem IsString.prepend {s t : List UInt8} (hs : m.load a s.length = s) (hz : 0 ∉ s)
    (h : m.IsString (a + s.length) t) : m.IsString a (s ++ t) := by
  induction s generalizing a with
  | nil => exact h
  | cons d s ih =>
    rw [List.length_cons, load_cons, List.cons.injEq] at hs
    refine ⟨hs.1, fun hd => hz (hd ▸ List.mem_cons_self),
      ih hs.2 (fun hm => hz (List.mem_cons_of_mem _ hm)) ?_⟩
    rwa [List.length_cons, Nat.add_comm s.length, ← Nat.add_assoc] at h

/-- The first `c` behind bytes that are neither `c` nor NUL. -/
theorem strchrFrom_behind {s : List UInt8} {k : Nat} (hs : m.load a s.length = s) (hz : 0 ∉ s)
    (hc : c ∉ s) (hp : m (a + s.length) = c) (hk : s.length < k) :
    strchrFrom m c k a = some (a + s.length) := by
  induction s generalizing a k with
  | nil =>
    cases k with
    | zero => omega
    | succ k => exact if_pos hp
  | cons d s ih =>
    rw [List.length_cons] at hk
    rw [List.length_cons, load_cons, List.cons.injEq] at hs
    rw [List.length_cons, Nat.add_comm s.length, ← Nat.add_assoc] at hp ⊢
    cases k with
    | zero => omega
    | succ k =>
      have hd : d ≠ c := fun he => hc (he ▸ List.mem_cons_self)
      have hd0 : d ≠ 0 := fun he => hz (he ▸ List.mem_cons_self)
      rw [strchrFrom, hs.1, if_neg hd, if_neg hd0]
      exact ih hs.2 (fun hm => hz (List.mem_cons_of_mem _ hm))
        (fun hm => hc (List.mem_cons_of_mem _ hm)) hp (by omega)

theorem strchrFrom_first {s t : List UInt8} {k : Nat} (h : m.IsString a (s ++ c :: t))
    (hs : c ∉ s) (hk : s.length < k) : strchrFrom m c k a = some (a + s.length) :=
  strchrFrom_behind h.load (fun hm => h.ne_zero (List.mem_append_left _ hm)) hs h.append.1 hk

/-- What `strchr` finds. -/
theorem strchrFrom_some {k p : Nat} (h : strchrFrom m c k a = some p) :
    a ≤ p ∧ m p = c ∧ ∀ x, a ≤ x → x < p → m x ≠ 0 := by
  induction k generalizing a with
  | zero => cases h
  | succ k ih =>
    rw [strchrFrom] at h
    split at h
    · cases h
      exact ⟨Nat.le_refl _, ‹_›, fun x h1 h2 => by omega⟩
    split at h
    · cases h
    · obtain ⟨hle, hp, hno⟩ := ih h
      refine ⟨by omega, hp, fun x h1 h2 => ?_⟩
      rcases Nat.eq_or_lt_of_le h1 with rfl | h1
      · assumption
      · exact hno x h1 h2

theorem strchrFrom_none {s : List UInt8} {k : Nat} (h : m.IsString a s) (hs : c ∉ s) (hc : c ≠ 0) :
    strchrFrom m c k a = none := by
  induction s generalizing a k with
  | nil =>
    cases k with
    | zero => rfl
    | succ k => rw [strchrFrom, show m a = 0 from h, if_neg (Ne.symm hc), if_pos rfl]
  | cons d s ih =>
    cases k with
    | zero => rfl
    | succ k =>
      have hd : d ≠ c := fun he => hs (he ▸ List.mem_cons_self)
      rw [strchrFrom, h.1, if_neg hd, if_neg h.2.1]
      exact ih h.2.2 fun hm => hs (List.mem_cons_of_mem _ hm)

theorem cStringFrom_eq {s : List UInt8} {k : Nat} (h : m.IsString a s) (hk : s.length < k) :
    cStringFrom m k a = s := by
  induction s generalizing a k with
  | nil =>
    cases k with
    | zero => rfl
    | succ k => exact if_pos h
  | cons d s ih =>
    rw [List.length_cons] at hk
    cases k with
    | zero => omega
    | succ k => rw [cStringFrom, h.1, if_neg h.2.1, ih h.2.2 (by omega)]

/-- A string shorter than the room ends with a NUL. -/
theorem isString_cStringFrom {s : List UInt8} {k : Nat} (h : cStringFrom m k a = s)
    (hk : s.length < k) : m.IsString a s := by
  induction k generalizing a s with
  | zero => omega
  | succ k ih =>
    rw [cStringFrom] at h
    split at h
    · cases h
      assumption
    · cases h
      exact ⟨rfl, ‹_›, ih rfl (by rw [List.length_cons] at hk; omega)⟩

theorem IsString.strchr {s t : List UInt8} (h : m.IsString a (s ++ c :: t)) (hs : c ∉ s)
    (hlen : s.length < 2 ^ 32) : m.strchr a c = some (a + s.length) :=
  strchrFrom_first h hs hlen

theorem IsString.strchr_none {s : List UInt8} (h : m.IsString a s) (hs : c ∉ s) (hc : c ≠ 0) :
    m.strchr a c = none :=
  strchrFrom_none h hs hc

theorem IsString.cString {s : List UInt8} (h : m.IsString a s) (hlen : s.length < 2 ^ 32) :
    m.cString a = s :=
  cStringFrom_eq h hlen

end Mem

end OsLabs
