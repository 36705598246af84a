import Mathlib.Data.Finset.Card
import Mathlib.Algebra.Group.Defs
import Mathlib.Tactic.Ring

/-!
# Exclusive ownership

Holders `ι` hold resources `β`, or nothing (`0`). `Owns own ok`: every resource
held is `ok` and has one holder. A step in which each holder keeps what it has,
lets go of it, or (one holder only) takes a resource that nobody held keeps
ownership exclusive (`Owns.step`).
-/

namespace OsLabs

universe u v

variable {ι : Type u} {β : Type v} [Zero β]

structure Owns (own : ι → β) (ok : β → Prop) : Prop where
  ok : ∀ i, own i ≠ 0 → ok (own i)
  inj : ∀ i j, own i ≠ 0 → own i = own j → i = j

variable {own own' : ι → β} {ok ok' : β → Prop}

/-- One holder may take a resource nobody held, the others keep what they have or let go. -/
theorem Owns.step (h : Owns own ok) {t : ι} {b : β} (hfresh : ∀ i, own i ≠ b)
    (hstep : ∀ i, own' i = own i ∨ own' i = 0 ∨ (i = t ∧ own' i = b))
    (hkeep : ∀ i, own i ≠ 0 → own' i = own i → ok' (own i)) (hb : own' t = b → ok' b) :
    Owns own' ok' := by
  constructor
  · intro i hi
    rcases hstep i with hk | h0 | ⟨rfl, hib⟩
    · rw [hk] at hi ⊢
      exact hkeep i hi hk
    · exact absurd h0 hi
    · rw [hib]
      exact hb hib
  · intro i j hi hij
    rcases hstep i with hk | h0 | ⟨rfl, hib⟩
    · rcases hstep j with hkj | h0j | ⟨rfl, hjb⟩
      · exact h.inj i j (hk ▸ hi) (by rw [← hk, ← hkj]; exact hij)
      · exact absurd (hij.trans h0j) hi
      · exact absurd (hk.symm.trans (hij.trans hjb)) (hfresh i)
    · exact absurd h0 hi
    · rcases hstep j with hkj | h0j | ⟨rfl, -⟩
      · exact absurd (hkj.symm.trans (hij.symm.trans hib)) (hfresh j)
      · exact absurd (hij.trans h0j) hi
      · rfl

/-- Holders that keep what they have or let go. -/
theorem Owns.shrink (h : Owns own ok) (hstep : ∀ i, own' i = own i ∨ own' i = 0)
    (hkeep : ∀ i, own i ≠ 0 → own' i = own i → ok' (own i)) : Owns own' ok' := by
  constructor
  · intro i hi
    rcases hstep i with hk | h0
    · rw [hk] at hi ⊢
      exact hkeep i hi hk
    · exact absurd h0 hi
  · intro i j hi hij
    rcases hstep i with hk | h0
    · rcases hstep j with hkj | h0j
      · exact h.inj i j (hk ▸ hi) (by rw [← hk, ← hkj]; exact hij)
      · exact absurd (hij.trans h0j) hi
    · exact absurd h0 hi

theorem Owns.mono (h : Owns own ok) (hok : ∀ b, ok b → ok' b) : Owns own ok' :=
  ⟨fun i hi => hok _ (h.ok i hi), h.inj⟩

/-- Distinct holders below `n` hold distinct resources of a finite set. -/
theorem Owns.le_card {own : ι → Nat} {ok : Nat → Prop} (h : Owns own ok) {f : Nat → ι}
    (hf : ∀ i j, f i = f j → i = j) {n k : Nat} (hn : ∀ i < n, own (f i) ≠ 0)
    (hk : ∀ b, ok b → b < k) : n ≤ k := by
  have hcard := Finset.card_le_card_of_injOn (s := Finset.range n) (t := Finset.range k)
    (fun i => own (f i))
    (fun i hi => Finset.mem_coe.2 (Finset.mem_range.2
      (hk _ (h.ok _ (hn i (Finset.mem_range.1 hi))))))
    (fun i hi j _ hij => hf i j (h.inj _ _ (hn i (Finset.mem_range.1 hi)) hij))
  simpa using hcard

end OsLabs
