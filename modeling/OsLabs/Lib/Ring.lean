import Mathlib.Data.List.Basic

/-!
# Ring buffers with running counters

`N` cells hold the queue `q` whose first element has the running number `first`:
element `i` stands in cell `(first + i) % N` (`Holds`). Data go in and out in
pieces of neighbouring cells. `room` and `filled` are the lengths that a piece
may have, as C code computes them from the two positions modulo `N`.
-/

namespace OsLabs.Ring

universe u

variable {α : Type u}

/-- Put `xs` into the cells from `pos` on. -/
def store (buf : Nat → α) (pos : Nat) (xs : List α) : Nat → α :=
  fun i => if pos ≤ i then (xs[i - pos]?).getD (buf i) else buf i

/-- The `n` cells from `pos` on. -/
def load (buf : Nat → α) (pos n : Nat) : List α := (List.range n).map fun i => buf (pos + i)

@[simp] theorem length_load (buf : Nat → α) (pos n : Nat) : (load buf pos n).length = n := by
  rw [load, List.length_map, List.length_range]

theorem store_of_lt (buf : Nat → α) {pos i : Nat} (xs : List α) (h : i < pos) :
    store buf pos xs i = buf i := if_neg (Nat.not_le.mpr h)

theorem store_of_ge (buf : Nat → α) {pos i : Nat} (xs : List α) (h : pos + xs.length ≤ i) :
    store buf pos xs i = buf i := by
  rw [store, if_pos (by omega), List.getElem?_eq_none (by omega), Option.getD_none]

theorem store_add (buf : Nat → α) (pos : Nat) {xs : List α} {i : Nat} (h : i < xs.length) :
    store buf pos xs (pos + i) = xs[i] := by
  rw [store, if_pos (by omega), Nat.add_sub_cancel_left, List.getElem?_eq_getElem h,
    Option.getD_some]

/-- The cells hold the queue `q`; its first element has number `first`. -/
structure Holds (N : Nat) (buf : Nat → α) (first : Nat) (q : List α) : Prop where
  length_le : q.length ≤ N
  get : ∀ i (h : i < q.length), buf ((first + i) % N) = q[i]

variable {N first : Nat} {buf : Nat → α} {q : List α}

theorem holds_nil (N first : Nat) (buf : Nat → α) : Holds N buf first [] :=
  ⟨Nat.zero_le N, fun _ h => absurd h (Nat.not_lt_zero _)⟩

/-- Numbers less than `N` apart stand in different cells. -/
theorem mod_ne {a b : Nat} (h : a < b) (hN : b < a + N) : a % N ≠ b % N := by
  intro e
  have hd : N ∣ b - a := Nat.dvd_of_mod_eq_zero (Nat.sub_mod_eq_zero_of_mod_eq e.symm)
  have := Nat.le_of_dvd (by omega) hd
  omega

/-- A position that does not wrap is reached by adding. -/
theorem add_mod_of_lt {a n : Nat} (h : a % N + n < N) : (a + n) % N = a % N + n := by
  rw [Nat.add_mod, Nat.mod_eq_of_lt (show n < N by omega), Nat.mod_eq_of_lt h]

theorem Holds.store {xs : List α} (h : Holds N buf first q)
    (hfit : (first + q.length) % N + xs.length ≤ N) (hroom : q.length + xs.length ≤ N) :
    Holds N (store buf ((first + q.length) % N) xs) first (q ++ xs) := by
  refine ⟨by rwa [List.length_append], fun i hi => ?_⟩
  rw [List.length_append] at hi
  by_cases hiq : i < q.length
  · rw [List.getElem_append_left hiq, ← h.get i hiq]
    -- the cells written hold later numbers
    by_cases hlt : (first + i) % N < (first + q.length) % N
    · exact store_of_lt buf xs hlt
    · refine store_of_ge buf xs (Nat.not_lt.mp fun hcell => ?_)
      refine mod_ne (N := N) (a := first + i)
        (b := first + q.length + ((first + i) % N - (first + q.length) % N)) (by omega)
        (by omega) ?_
      rw [add_mod_of_lt (a := first + q.length) (by omega)]
      omega
  · rw [List.getElem_append_right (Nat.not_lt.mp hiq)]
    have hcell : (first + i) % N = (first + q.length) % N + (i - q.length) := by
      rw [show first + i = first + q.length + (i - q.length) by omega]
      exact add_mod_of_lt (by omega)
    rw [hcell, store_add]

theorem Holds.load {n : Nat} (h : Holds N buf first q) (hfit : first % N + n ≤ N)
    (hn : n ≤ q.length) : load buf (first % N) n = q.take n := by
  refine List.ext_getElem (by simp [hn]) fun i h1 h2 => ?_
  have hi : i < n := by simpa using h1
  simp only [Ring.load, List.getElem_map, List.getElem_range, List.getElem_take]
  rw [← h.get i (by omega), add_mod_of_lt (by omega)]

theorem Holds.drop (h : Holds N buf first q) (n : Nat) : Holds N buf (first + n) (q.drop n) := by
  refine ⟨by rw [List.length_drop]; exact Nat.le_trans (Nat.sub_le ..) h.length_le, fun i hi => ?_⟩
  rw [List.length_drop] at hi
  rw [List.getElem_drop, ← h.get (n + i) (by omega), Nat.add_assoc]

/-! ## Lengths of the pieces -/

/-- How much can be put in at once: the cells from `tailpos` to the end or to `headpos`. -/
def room (N : Nat) (empty : Bool) (headpos tailpos : Nat) : Nat :=
  if empty || headpos < tailpos then N - tailpos else headpos - tailpos

/-- How much can be taken out at once from a queue that is not empty. -/
def filled (N headpos tailpos : Nat) : Nat :=
  if headpos < tailpos then tailpos - headpos else N - headpos

/-- The two positions of a queue of `n` elements lie `n` apart, round the end or not. -/
theorem positions (first : Nat) {n : Nat} (hn : n ≤ N) (hN : 0 < N) :
    first % N < N ∧
      ((first + n) % N = first % N + n ∨ (first + n) % N + N = first % N + n) := by
  have h1 := Nat.mod_lt first hN
  refine ⟨h1, ?_⟩
  by_cases h : first % N + n < N
  · exact .inl (add_mod_of_lt h)
  · right
    have h2 : (first + n) % N = (first % N + n - N) % N := by
      rw [← Nat.mod_add_mod, Nat.mod_eq_sub_mod (by omega)]
    rcases Nat.lt_or_ge (first % N + n - N) N with hlt | hge
    · rw [h2, Nat.mod_eq_of_lt hlt]
      omega
    · omega

theorem room_spec (first : Nat) {n : Nat} (hn : n ≤ N) (hN : 0 < N) {empty : Bool}
    (he : empty = decide (n = 0)) :
    (first + n) % N + room N empty (first % N) ((first + n) % N) ≤ N ∧
      n + room N empty (first % N) ((first + n) % N) ≤ N ∧
      (n = 0 → 0 < room N empty (first % N) ((first + n) % N)) := by
  obtain ⟨h1, h2⟩ := positions first hn hN
  have h3 := Nat.mod_lt (first + n) hN
  subst he
  simp only [room, Bool.or_eq_true, decide_eq_true_eq]
  split <;> omega

theorem filled_spec (first : Nat) {n : Nat} (hn : n ≤ N) (hpos : 0 < n) :
    first % N + filled N (first % N) ((first + n) % N) ≤ N ∧
      filled N (first % N) ((first + n) % N) ≤ n := by
  obtain ⟨h1, h2⟩ := positions first hn (by omega)
  have h3 := Nat.mod_lt (first + n) (show 0 < N by omega)
  simp only [filled]
  split <;> omega

theorem filled_pos {headpos : Nat} (h : headpos < N) (tailpos : Nat) :
    0 < filled N headpos tailpos := by
  simp only [filled]
  split <;> omega

theorem room_pos {tailpos : Nat} (h : tailpos < N) (headpos : Nat) :
    0 < room N true headpos tailpos := by
  simp only [room, Bool.true_or, if_true]
  omega

end OsLabs.Ring
