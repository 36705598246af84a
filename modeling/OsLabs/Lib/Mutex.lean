import Mathlib.Logic.Basic
import Mathlib.Tactic.Common

/-!
# A lock word

`Held lock H`: the lock word is taken by swapping in something other than 0, and `H`
are the actors that hold it. A word that is not 0 without a holder is possible; then
nobody ever gets the lock.
-/

namespace OsLabs

universe u

structure Held {ι : Type u} (lock : Nat) (H : ι → Prop) : Prop where
  free : lock = 0 → ∀ i, ¬ H i
  single : ∀ i j, H i → H j → i = j

namespace Held

variable {ι : Type u} {lock lock' : Nat} {H H' : ι → Prop} {i : ι}

theorem congr (h : Held lock H) (hH : ∀ j, H' j ↔ H j) : Held lock H' := by
  have he : H' = H := funext fun j => propext (hH j)
  rwa [he]

/-- The actor that finds 0 is the holder. -/
theorem acquire (h : Held 0 H) (hlock : lock' ≠ 0) (hH : ∀ j, H' j ↔ j = i ∨ H j) :
    Held lock' H' := by
  have honly (j : ι) (hj : H' j) : j = i := ((hH j).1 hj).resolve_right (h.free rfl j)
  exact ⟨fun h0 => absurd h0 hlock, fun j k hj hk => (honly j hj).trans (honly k hk).symm⟩

/-- The others do not get the lock. -/
theorem spin (h : Held lock H) (hlock' : lock' ≠ 0) : Held lock' H :=
  ⟨fun h0 => absurd h0 hlock', h.single⟩

theorem release (h : Held lock H) (hi : H i) (hH : ∀ j, H' j → H j ∧ j ≠ i) : Held lock' H' := by
  have hno (j : ι) : ¬ H' j := fun hj => (hH j hj).2 (h.single j i (hH j hj).1 hi)
  exact ⟨fun _ => hno, fun j _ hj => absurd hj (hno j)⟩

end Held

end OsLabs
