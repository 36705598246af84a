import Mathlib.Order.Monotone.Basic
import Mathlib.Data.Nat.Find

/-!
# Transfers in pieces

A transfer of `count` units from position `pos` on is cut at the multiples of
`B`. Piece `k` begins at `cut B pos k` and ends where the next begins or where
the transfer ends: `reach B pos count k` is the position after `k` pieces. When
pieces can fail, the first failure decides (`FirstFailure`).
-/

namespace OsLabs.Chunks

variable {B pos count j k p : Nat}

/-- Where piece `k` begins. -/
def cut (B pos : Nat) : Nat → Nat
  | 0 => pos
  | k + 1 => B * (pos / B + (k + 1))

/-- The position after `k` pieces. -/
def reach (B pos count k : Nat) : Nat := min (cut B pos k) (pos + count)

@[simp] theorem cut_zero : cut B pos 0 = pos := rfl

@[simp] theorem reach_zero : reach B pos count 0 = pos := Nat.min_eq_left (Nat.le_add_right _ _)

theorem cut_div (hB : 0 < B) : cut B pos k / B = pos / B + k := by
  cases k with
  | zero => rfl
  | succ k => exact Nat.mul_div_cancel_left _ hB

/-- The next piece begins at the next multiple. -/
theorem cut_succ (hB : 0 < B) : cut B pos (k + 1) = B * (cut B pos k / B + 1) := by
  rw [cut_div hB]
  rfl

theorem cut_lt_succ (hB : 0 < B) : cut B pos k < cut B pos (k + 1) := by
  rw [cut_succ hB]
  exact Nat.lt_mul_div_succ _ hB

theorem cut_strictMono (hB : 0 < B) : StrictMono (cut B pos) :=
  strictMono_nat_of_lt_succ fun _ => cut_lt_succ hB

theorem le_cut (hB : 0 < B) : pos ≤ cut B pos k := (cut_strictMono hB).monotone (Nat.zero_le k)

theorem cut_eq_iff (hB : 0 < B) : cut B pos k = pos ↔ k = 0 := by
  have h : cut B pos k = cut B pos 0 ↔ k = 0 := (cut_strictMono hB).injective.eq_iff
  rwa [cut_zero] at h

theorem reach_le : reach B pos count k ≤ pos + count := Nat.min_le_right _ _

theorem reach_of_lt (h : cut B pos k < pos + count) : reach B pos count k = cut B pos k :=
  Nat.min_eq_left (Nat.le_of_lt h)

/-- The positions of a piece lie between the same multiples as its first one. -/
theorem div_of_mem_piece (hB : 0 < B) (h : cut B pos k ≤ p) (h' : p < cut B pos (k + 1)) :
    p / B = cut B pos k / B := by
  rw [cut_succ hB] at h'
  have hle : cut B pos k / B ≤ p / B := Nat.div_le_div_right h
  have hlt : p / B < cut B pos k / B + 1 := (Nat.div_lt_iff_lt_mul hB).2 (by rwa [Nat.mul_comm])
  omega

/-- Every position from `pos` on is in a piece. -/
theorem exists_piece (hB : 0 < B) (h : pos ≤ p) : ∃ k, cut B pos k ≤ p ∧ p < cut B pos (k + 1) := by
  have hdiv : pos / B ≤ p / B := Nat.div_le_div_right h
  refine ⟨p / B - pos / B, ?_, ?_⟩
  · rcases hk : p / B - pos / B with _ | k
    · exact h
    · have hp : pos / B + (k + 1) = p / B := by omega
      show B * (pos / B + (k + 1)) ≤ p
      rw [hp]
      exact Nat.mul_div_le p B
  · have hnext : pos / B + (p / B - pos / B + 1) = p / B + 1 := by omega
    show p < B * (pos / B + (p / B - pos / B + 1))
    rw [hnext]
    exact Nat.lt_mul_div_succ p hB

/-- Piece `k` is the first that fails. -/
def FirstFailure (fails : Nat → Prop) (k : Nat) : Prop := fails k ∧ ∀ j < k, ¬ fails j

theorem exists_firstFailure {fails : Nat → Prop} (h : fails k) : ∃ j, FirstFailure fails j := by
  classical
  exact ⟨Nat.find ⟨k, h⟩, Nat.find_spec ⟨k, h⟩, fun _ => Nat.find_min ⟨k, h⟩⟩

theorem FirstFailure.unique {fails : Nat → Prop} (h : FirstFailure fails k)
    (h' : FirstFailure fails j) : k = j := by
  rcases Nat.lt_trichotomy k j with hlt | heq | hgt
  · exact absurd h.1 (h'.2 k hlt)
  · exact heq
  · exact absurd h'.1 (h.2 j hgt)

/-- If every failure comes with a failure of piece 0, piece 0 is the first to fail. -/
theorem FirstFailure.eq_zero {fails : Nat → Prop} (h : FirstFailure fails k)
    (h0 : ∀ j, fails j → fails 0) : k = 0 := by
  by_contra hk
  exact h.2 0 (Nat.pos_of_ne_zero hk) (h0 k h.1)

end OsLabs.Chunks
