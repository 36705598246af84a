import Mathlib.Data.List.GetD
import Mathlib.Data.Nat.Digits.Lemmas

/-!
# Digit strings

`numeral base digits d val` writes `val` with the first `base` elements of
`digits` as digits, the most significant one first (`d` stands for a digit the
alphabet lacks). `numberOf` reads a digit string back.
-/

namespace OsLabs.Numerals

variable {α : Type}

/-- The first `base` elements of `digits` are the digits of a number system. -/
structure Alphabet (base : Nat) (digits : List α) : Prop where
  one_lt : 1 < base
  base_le : base ≤ digits.length
  nodup : digits.Nodup

/-- The digits of `val`, one at least. -/
def numeral (base : Nat) (digits : List α) (d : α) (val : Nat) : List α :=
  if val = 0 then [digits.getD 0 d]
  else (Nat.digits base val).reverse.map fun i => digits.getD i d

variable {base val p : Nat} {digits s : List α} {c d : α}

theorem numeral_of_lt (digits : List α) (d : α) (h : val < base) :
    numeral base digits d val = [digits.getD val d] := by
  unfold numeral
  split_ifs with h0
  · rw [h0]
  · rw [Nat.digits_of_lt base val h0 h]
    rfl

theorem numeral_div (digits : List α) (d : α) (hb : 1 < base) (h : val / base ≠ 0) :
    numeral base digits d val =
      numeral base digits d (val / base) ++ [digits.getD (val % base) d] := by
  have hpos : 0 < val := Nat.pos_of_ne_zero fun h0 => h (by rw [h0, Nat.zero_div])
  unfold numeral
  rw [if_neg hpos.ne', if_neg h, Nat.digits_def' hb hpos, List.reverse_cons, List.map_append]
  rfl

theorem numeral_ne_nil : numeral base digits d val ≠ [] := by
  unfold numeral
  split_ifs with h0
  · exact List.cons_ne_nil _ _
  · simpa using Nat.digits_ne_nil_iff_ne_zero.2 h0

/-- A digit is one of the first `base` elements. -/
theorem getD_mem_take (hlen : base ≤ digits.length) {i : Nat} (hi : i < base) :
    digits.getD i d ∈ digits.take base := by
  rw [List.getD_eq_getElem _ _ (Nat.lt_of_lt_of_le hi hlen), List.mem_take_iff_getElem]
  exact ⟨i, by omega, rfl⟩

theorem mem_numeral (h : Alphabet base digits) (hc : c ∈ numeral base digits d val) :
    c ∈ digits.take base := by
  unfold numeral at hc
  split_ifs at hc with h0
  · obtain rfl := List.mem_singleton.1 hc
    exact getD_mem_take h.base_le (Nat.lt_of_succ_lt h.one_lt)
  · obtain ⟨i, hi, rfl⟩ := List.mem_map.1 hc
    exact getD_mem_take h.base_le (Nat.digits_lt_base h.one_lt (List.mem_reverse.1 hi))

theorem length_numeral_le_iff (hb : 1 < base) (h0 : val ≠ 0) :
    (numeral base digits d val).length ≤ p ↔ val < base ^ p := by
  unfold numeral
  rw [if_neg h0, List.length_map, List.length_reverse]
  exact Nat.digits_length_le_iff hb val

/-! ## Reading -/

variable [DecidableEq α]

/-- The number that a digit string denotes. -/
def numberOf (base : Nat) (digits s : List α) : Nat :=
  Nat.ofDigits base (s.map digits.idxOf).reverse

theorem idxOf_getD (h : Alphabet base digits) {i : Nat} (hi : i < base) :
    digits.idxOf (digits.getD i d) = i := by
  have hlt := Nat.lt_of_lt_of_le hi h.base_le
  rw [List.getD_eq_getElem _ _ hlt]
  exact h.nodup.idxOf_getElem i hlt

/-- Reading a number that was written. -/
theorem numberOf_numeral (h : Alphabet base digits) :
    numberOf base digits (numeral base digits d val) = val := by
  unfold numberOf numeral
  split_ifs with h0
  · rw [List.map_singleton, idxOf_getD h (Nat.lt_of_succ_lt h.one_lt), List.reverse_singleton,
      Nat.ofDigits_singleton, h0]
  · have hmap : ((Nat.digits base val).reverse.map fun i => digits.getD i d).map digits.idxOf =
        (Nat.digits base val).reverse := by
      rw [List.map_map]
      refine (List.map_congr_left fun i hi => ?_).trans (List.map_id _)
      exact idxOf_getD h (Nat.digits_lt_base h.one_lt (List.mem_reverse.1 hi))
    rw [hmap, List.reverse_reverse, Nat.ofDigits_digits]

/-- Leading zeros do not count. -/
theorem numberOf_zeros (hc : digits.idxOf c = 0) (n : Nat) :
    numberOf base digits (List.replicate n c ++ s) = numberOf base digits s := by
  unfold numberOf
  rw [List.map_append, List.map_replicate, hc, List.reverse_append, List.reverse_replicate,
    Nat.ofDigits_append_replicate_zero]

/-- A string of `n` digits denotes a number below `base ^ n`. -/
theorem numberOf_lt (h : Alphabet base digits) (hs : ∀ c ∈ s, c ∈ digits.take base) :
    numberOf base digits s < base ^ s.length := by
  unfold numberOf
  have hlt : ∀ i ∈ (s.map digits.idxOf).reverse, i < base := by
    intro i hi
    obtain ⟨c, hc, rfl⟩ := List.mem_map.1 (List.mem_reverse.1 hi)
    obtain ⟨j, hj, hjc⟩ := List.mem_take_iff_getElem.1 (hs c hc)
    rw [← hjc, h.nodup.idxOf_getElem j]
    omega
  have hsum := Nat.ofDigits_lt_base_pow_length h.one_lt hlt
  rwa [List.length_reverse, List.length_map] at hsum

end OsLabs.Numerals
