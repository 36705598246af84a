import Mathlib.Data.List.Basic
import Mathlib.Tactic.Common

/-!
# Absorbing a stream in blocks

A stream arrives in pieces of any length and is worked off in blocks of `n`
elements: `f s block` is the state after one more block. `absorb` takes one element
at a time, and holds a pair of a state and the begun block. So it does not matter
where the pieces end (`absorb_append`); an implementation is right when it takes
every piece to `absorb` of it.
-/

namespace OsLabs.BlockStream

universe u v

variable {σ : Type u} {β : Type v}

/-- One more element for the begun block. -/
def push (n : Nat) (f : σ → List β → σ) (p : σ × List β) (x : β) : σ × List β :=
  if p.2.length + 1 < n then (p.1, p.2 ++ [x]) else (f p.1 (p.2 ++ [x]), [])

def absorb (n : Nat) (f : σ → List β → σ) (p : σ × List β) (l : List β) : σ × List β :=
  l.foldl (push n f) p

variable {n : Nat} {f : σ → List β → σ} {p : σ × List β} {s : σ} {a b l : List β}

@[simp] theorem absorb_nil : absorb n f p [] = p := rfl

theorem absorb_append : absorb n f p (a ++ b) = absorb n f (absorb n f p a) b :=
  List.foldl_append ..

/-- A piece that does not fill the begun block. -/
theorem absorb_short (h : a.length + l.length < n) : absorb n f (s, a) l = (s, a ++ l) := by
  induction l generalizing a with
  | nil => simp [absorb]
  | cons x l ih =>
    rw [List.length_cons] at h
    have hp : push n f (s, a) x = (s, a ++ [x]) := if_pos (by simp only []; omega)
    rw [absorb, List.foldl_cons, hp, ← absorb, ih (by simp; omega), List.append_assoc,
      List.singleton_append]

/-- A piece that fills it. -/
theorem absorb_full (h : a.length + l.length = n) (hl : l ≠ []) :
    absorb n f (s, a) l = (f s (a ++ l), []) := by
  obtain ⟨l, x, rfl⟩ := List.eq_nil_or_concat l |>.resolve_left hl
  rw [List.concat_eq_append, List.length_append, List.length_singleton] at h
  have hshort : absorb n f (s, a) l = (s, a ++ l) := absorb_short (by omega)
  rw [List.concat_eq_append, absorb_append, hshort]
  show push n f (s, a ++ l) x = _
  rw [push, if_neg (by simp; omega), List.append_assoc]

/-- A block of a stream that stands at the start of a block. -/
theorem absorb_block (h : l.length = n) (hn : 0 < n) : absorb n f (s, []) l = (f s l, []) := by
  refine absorb_full (by simpa using h) fun hl => ?_
  rw [hl, List.length_nil] at h
  omega

theorem push_lt (hn : 0 < n) {x : β} : (push n f p x).2.length < n := by
  unfold push
  split
  · simpa using ‹_›
  · exact hn

/-- The begun block stays shorter than a block, and takes up what does not fill one. -/
theorem absorb_length (hn : 0 < n) (hp : p.2.length < n) :
    (absorb n f p l).2.length = (p.2.length + l.length) % n := by
  induction l generalizing p with
  | nil => exact (Nat.mod_eq_of_lt hp).symm
  | cons x l ih =>
    rw [absorb, List.foldl_cons, ← absorb, ih (push_lt hn), List.length_cons]
    unfold push
    split
    · simp only [List.length_append, List.length_singleton]
      rw [Nat.add_assoc, Nat.add_comm 1]
    · have hfull : p.2.length + 1 = n := by omega
      rw [List.length_nil, Nat.zero_add, ← Nat.add_assoc, Nat.add_right_comm, hfull,
        Nat.add_mod_left]

/-! ## The buffer of the begun block -/

/-- Store the elements from index `i` on. -/
def overwrite (buf : List β) (i : Nat) : List β → List β
  | [] => buf
  | x :: l => overwrite (buf.set i x) (i + 1) l

theorem length_overwrite {buf : List β} {i : Nat} : (overwrite buf i l).length = buf.length := by
  induction l generalizing buf i with
  | nil => rfl
  | cons x l ih => rw [overwrite, ih, List.length_set]

theorem take_set {buf : List β} {i : Nat} {x : β} (h : i < buf.length) :
    (buf.set i x).take (i + 1) = buf.take i ++ [x] := by
  rw [List.take_add_one, List.take_set_of_le (Nat.le_refl i), List.getElem?_set_self h]
  rfl

theorem take_overwrite {buf : List β} {i : Nat} (h : i + l.length ≤ buf.length) :
    (overwrite buf i l).take (i + l.length) = buf.take i ++ l := by
  induction l generalizing buf i with
  | nil => simp [overwrite]
  | cons x l ih =>
    rw [List.length_cons] at h ⊢
    rw [overwrite, ← Nat.add_assoc, Nat.add_right_comm, ih (by rw [List.length_set]; omega),
      take_set (by omega), List.append_assoc, List.singleton_append]

end OsLabs.BlockStream
