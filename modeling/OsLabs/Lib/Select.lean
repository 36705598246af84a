import Mathlib.Data.Nat.Basic
import Mathlib.Tactic.Common

/-!
# Selection loops

Searches through an array of `n` slots whose indices are taken modulo `n`:
`cyclic` looks for the first slot after a given one that meets a test, `scanMin`
for the first slot with the least value below a bound.
-/

namespace OsLabs.Select

variable {n : Nat} {P : Nat → Bool}

/-! ## Cyclic search -/

/-- The first of the `k` slots after `i` that meets the test. -/
def cyclic (n : Nat) (P : Nat → Bool) : (k i : Nat) → Option Nat
  | 0, _ => none
  | k + 1, i => if P ((i + 1) % n) then some ((i + 1) % n) else cyclic n P k ((i + 1) % n)

/-- `q` is the first slot after `i` that meets the test. -/
def Next (n : Nat) (P : Nat → Bool) (i q : Nat) : Prop :=
  ∃ j, q = (i + j + 1) % n ∧ P q = true ∧ ∀ k < j, P ((i + k + 1) % n) = false

theorem mod_add_mod (i k : Nat) : ((i + 1) % n + k + 1) % n = (i + (k + 1) + 1) % n := by
  rw [Nat.add_assoc, Nat.mod_add_mod]
  congr 1
  omega

/-- The first slot after the next one is the first after this one, unless that meets the test. -/
theorem Next.step {i q : Nat} (hi : P ((i + 1) % n) = false) (h : Next n P ((i + 1) % n) q) :
    Next n P i q := by
  obtain ⟨j, hq, hP, hno⟩ := h
  refine ⟨j + 1, hq.trans (mod_add_mod i j), hP, fun k hk => ?_⟩
  rcases k with _ | k
  · exact hi
  · rw [← mod_add_mod]
    exact hno k (by omega)

theorem Next.unique {i q q' : Nat} (h : Next n P i q) (h' : Next n P i q') : q = q' := by
  obtain ⟨j, hq, hP, hno⟩ := h
  obtain ⟨j', hq', hP', hno'⟩ := h'
  rcases Nat.lt_trichotomy j j' with hlt | rfl | hgt
  · have hfalse := hno' j hlt
    rw [← hq, hP] at hfalse
    cases hfalse
  · exact hq.trans hq'.symm
  · have hfalse := hno j' hgt
    rw [← hq', hP'] at hfalse
    cases hfalse

theorem Next.lt {i q : Nat} (h : Next n P i q) (hn : 0 < n) : q < n := by
  obtain ⟨j, rfl, -⟩ := h
  exact Nat.mod_lt _ hn

/-- The first slot comes within one round. -/
theorem Next.offset {i q : Nat} (h : Next n P i q) (hn : 0 < n) :
    ∃ j < n, q = (i + j + 1) % n ∧ P q = true ∧ ∀ k < j, P ((i + k + 1) % n) = false := by
  obtain ⟨j, hq, hP, hno⟩ := h
  refine ⟨j, ?_, hq, hP, hno⟩
  by_contra hge
  have hback : (i + (j - n) + 1) % n = q := by
    rw [hq, show i + j + 1 = i + (j - n) + 1 + n by omega, Nat.add_mod_right]
  have hfalse := hno (j - n) (by omega)
  rw [hback, hP] at hfalse
  cases hfalse

theorem next_of_cyclic {k i q : Nat} (h : cyclic n P k i = some q) : Next n P i q := by
  induction k generalizing i with
  | zero => cases h
  | succ k ih =>
    rw [cyclic] at h
    split at h
    · next hP =>
      obtain rfl := Option.some.inj h
      exact ⟨0, rfl, hP, by simp⟩
    · next hP => exact (ih h).step (by simpa using hP)

theorem cyclic_none {k i : Nat} (h : cyclic n P k i = none) :
    ∀ j < k, P ((i + j + 1) % n) = false := by
  induction k generalizing i with
  | zero => intro j hj; omega
  | succ k ih =>
    rw [cyclic] at h
    split at h
    · cases h
    · next hP =>
      intro j hj
      rcases j with _ | j
      · simpa using hP
      · rw [← mod_add_mod]
        exact ih h j (by omega)

/-- Every slot comes up within `n` steps. -/
theorem exists_offset {i q : Nat} (hq : q < n) : ∃ j < n, (i + j + 1) % n = q := by
  have hi := Nat.mod_lt (i + 1) (show 0 < n by omega)
  refine ⟨(q + n - (i + 1) % n) % n, Nat.mod_lt _ (by omega), ?_⟩
  have hsum : i + (q + n - (i + 1) % n) % n + 1 = i + 1 + (q + n - (i + 1) % n) % n := by omega
  rw [hsum, Nat.add_mod_mod, ← Nat.mod_add_mod,
    show (i + 1) % n + (q + n - (i + 1) % n) = q + n by omega, Nat.add_mod_right,
    Nat.mod_eq_of_lt hq]

theorem cyclic_exists {i q : Nat} (hq : q < n) (hP : P q = true) :
    ∃ q', cyclic n P n i = some q' := by
  rcases h : cyclic n P n i with _ | q'
  · obtain ⟨j, hj, he⟩ := exists_offset (i := i) hq
    have := cyclic_none h j hj
    rw [he, hP] at this
    cases this
  · exact ⟨q', rfl⟩

/-! ## Least value -/

variable {value : Nat → Int}

/-- The first slot with the least value below the bound, and this value; slot zero
stands for none. -/
def scanMin (P : Nat → Bool) (value : Nat → Int) (bound : Int) : (n : Nat) → Int × Nat
  | 0 => (bound, 0)
  | i + 1 =>
    let r := scanMin P value bound i
    if P i ∧ value i < r.1 then (value i, i) else r

/-- The scan finds a slot below the bound with the least value, or there is none
below the bound. -/
theorem scanMin_spec (P : Nat → Bool) (value : Nat → Int) (bound : Int) (n : Nat) :
    ((scanMin P value bound n).2 < n ∧ P (scanMin P value bound n).2 = true ∧
      value (scanMin P value bound n).2 = (scanMin P value bound n).1 ∧
      (scanMin P value bound n).1 < bound ∧
      ∀ i < n, P i = true → (scanMin P value bound n).1 ≤ value i) ∨
    (scanMin P value bound n = (bound, 0) ∧ ∀ i < n, P i = true → bound ≤ value i) := by
  induction n with
  | zero => exact .inr ⟨rfl, by simp⟩
  | succ n ih =>
    rw [scanMin]
    split
    case isTrue h =>
      obtain ⟨hP, hlt⟩ := h
      refine .inl ⟨by omega, hP, rfl, ?_, fun i hi hPi => ?_⟩
      · rcases ih with ⟨-, -, -, hb, -⟩ | ⟨he, -⟩
        · dsimp only
          omega
        · rwa [he] at hlt
      · dsimp only
        rcases Nat.lt_succ_iff_lt_or_eq.1 hi with hi | rfl
        · rcases ih with ⟨-, -, -, -, hmin⟩ | ⟨he, hmin⟩
          · have := hmin i hi hPi
            omega
          · have := hmin i hi hPi
            rw [he] at hlt
            dsimp only at hlt
            omega
        · exact Int.le_refl _
    case isFalse h =>
      have hle (hP : P n = true) : (scanMin P value bound n).1 ≤ value n := by
        by_contra hgt
        exact h ⟨hP, by omega⟩
      rcases ih with ⟨hlt, hP, hv, hb, hmin⟩ | ⟨he, hmin⟩
      · refine .inl ⟨by omega, hP, hv, hb, fun i hi hPi => ?_⟩
        rcases Nat.lt_succ_iff_lt_or_eq.1 hi with hi | rfl
        · exact hmin i hi hPi
        · exact hle hPi
      · refine .inr ⟨he, fun i hi hPi => ?_⟩
        rcases Nat.lt_succ_iff_lt_or_eq.1 hi with hi | rfl
        · exact hmin i hi hPi
        · have := hle hPi
          rw [he] at this
          exact this

end OsLabs.Select
