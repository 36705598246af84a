import Mathlib.Logic.Function.Basic

/-!
# Write-back caches

A cache of slots over a store: a resident slot holds the value of one key, which may be
newer than the store's. `Coherent slot store flat`: together slots and store stand for the
contents `flat`. Every operation of a cache that loads, changes and writes back one slot at
a time keeps this; a store that agrees with every resident slot is `flat` itself.
-/

namespace OsLabs.WriteBack

open Function

variable {ι κ δ : Type} {slot : ι → Option (κ × δ)} {store flat : κ → δ}

def Resident (slot : ι → Option (κ × δ)) (k : κ) : Prop := ∃ i d, slot i = some (k, d)

structure Coherent (slot : ι → Option (κ × δ)) (store flat : κ → δ) : Prop where
  distinct : ∀ i j k d d', slot i = some (k, d) → slot j = some (k, d') → i = j
  resident : ∀ i k d, slot i = some (k, d) → d = flat k
  absent : ∀ k, ¬ Resident slot k → store k = flat k

theorem coherent_empty : Coherent (fun _ : ι => none) flat flat where
  distinct _ _ _ _ _ h := nomatch h
  resident _ _ _ h := nomatch h
  absent _ _ := rfl

/-- Once every resident slot is written back the store has the contents. -/
theorem Coherent.store_eq (h : Coherent slot store flat)
    (hs : ∀ i k d, slot i = some (k, d) → store k = d) (k : κ) : store k = flat k := by
  by_cases hk : Resident slot k
  · obtain ⟨i, d, hi⟩ := hk
    rw [hs i k d hi]
    exact h.resident i k d hi
  · exact h.absent k hk

variable {i : ι} {k : κ} {d : δ}

theorem Coherent.flush [DecidableEq κ] (h : Coherent slot store flat) (hi : slot i = some (k, d)) :
    Coherent slot (update store k d) flat := by
  refine ⟨h.distinct, h.resident, fun k' hk' => ?_⟩
  have hne : k' ≠ k := by
    rintro rfl
    exact hk' ⟨i, d, hi⟩
  rw [update_of_ne hne]
  exact h.absent k' hk'

/-- A slot whose value the store has may be dropped. -/
theorem Coherent.drop [DecidableEq ι] (h : Coherent slot store flat)
    (hi : ∀ k d, slot i = some (k, d) → store k = d) :
    Coherent (update slot i none) store flat := by
  have hsub {j : ι} {r : κ × δ} (hj : update slot i none j = some r) : slot j = some r := by
    by_cases hji : j = i
    · subst hji
      rw [update_self] at hj
      cases hj
    · rwa [update_of_ne hji] at hj
  refine ⟨fun j j' k d d' hj hj' => h.distinct j j' k d d' (hsub hj) (hsub hj'),
    fun j k d hj => h.resident j k d (hsub hj), fun k hk => ?_⟩
  by_cases hr : Resident slot k
  · obtain ⟨j, d, hj⟩ := hr
    have hji : j = i := by
      by_contra hji
      exact hk ⟨j, d, by rwa [update_of_ne hji]⟩
    subst hji
    rw [hi k d hj]
    exact h.resident j k d hj
  · exact h.absent k hr

/-- An absent key is loaded into an empty slot. -/
theorem Coherent.load [DecidableEq ι] (h : Coherent slot store flat) (hi : slot i = none)
    (hk : ¬ Resident slot k) : Coherent (update slot i (some (k, store k))) store flat := by
  have hcases {j : ι} {k' : κ} {d : δ}
      (hj : update slot i (some (k, store k)) j = some (k', d)) :
      j = i ∧ k' = k ∧ d = store k ∨ slot j = some (k', d) ∧ k' ≠ k := by
    by_cases hji : j = i
    · subst hji
      rw [update_self] at hj
      cases hj
      exact .inl ⟨rfl, rfl, rfl⟩
    · rw [update_of_ne hji] at hj
      refine .inr ⟨hj, ?_⟩
      rintro rfl
      exact hk ⟨j, d, hj⟩
  refine ⟨fun j j' k' d d' hj hj' => ?_, fun j k' d hj => ?_, fun k' hk' => ?_⟩
  · rcases hcases hj with ⟨rfl, rfl, -⟩ | ⟨hj, hne⟩
    · rcases hcases hj' with ⟨rfl, -⟩ | ⟨-, hne⟩
      · rfl
      · exact absurd rfl hne
    · rcases hcases hj' with ⟨-, rfl, -⟩ | ⟨hj', -⟩
      · exact absurd rfl hne
      · exact h.distinct j j' k' d d' hj hj'
  · rcases hcases hj with ⟨-, rfl, rfl⟩ | ⟨hj, -⟩
    · exact h.absent k' hk
    · exact h.resident j k' d hj
  · refine h.absent k' fun ⟨j, d, hj⟩ => hk' ⟨j, d, ?_⟩
    rw [update_of_ne]
    · exact hj
    · rintro rfl
      rw [hi] at hj
      cases hj

/-- A resident value changes, and the contents with it. -/
theorem Coherent.write [DecidableEq ι] [DecidableEq κ] (h : Coherent slot store flat)
    (hi : slot i = some (k, d)) (d' : δ) :
    Coherent (update slot i (some (k, d'))) store (update flat k d') := by
  have hcases {j : ι} {k' : κ} {d'' : δ} (hj : update slot i (some (k, d')) j = some (k', d'')) :
      j = i ∧ k' = k ∧ d'' = d' ∨ slot j = some (k', d'') ∧ k' ≠ k := by
    by_cases hji : j = i
    · subst hji
      rw [update_self] at hj
      cases hj
      exact .inl ⟨rfl, rfl, rfl⟩
    · rw [update_of_ne hji] at hj
      refine .inr ⟨hj, ?_⟩
      rintro rfl
      exact hji (h.distinct j i k' d'' d hj hi)
  refine ⟨fun j j' k' d1 d2 hj hj' => ?_, fun j k' d'' hj => ?_, fun k' hk' => ?_⟩
  · rcases hcases hj with ⟨rfl, rfl, -⟩ | ⟨hj, hne⟩
    · rcases hcases hj' with ⟨rfl, -⟩ | ⟨-, hne⟩
      · rfl
      · exact absurd rfl hne
    · rcases hcases hj' with ⟨-, rfl, -⟩ | ⟨hj', -⟩
      · exact absurd rfl hne
      · exact h.distinct j j' k' d1 d2 hj hj'
  · rcases hcases hj with ⟨-, rfl, rfl⟩ | ⟨hj, hne⟩
    · rw [update_self]
    · rw [update_of_ne hne]
      exact h.resident j k' d'' hj
  · have hne : k' ≠ k := by
      rintro rfl
      exact hk' ⟨i, d', update_self _ _ _⟩
    rw [update_of_ne hne]
    refine h.absent k' fun ⟨j, d'', hj⟩ => hk' ⟨j, d'', ?_⟩
    rw [update_of_ne]
    · exact hj
    · rintro rfl
      rw [hi] at hj
      cases hj
      exact hne rfl

end OsLabs.WriteBack
