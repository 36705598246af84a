import Mathlib.Logic.Basic

/-!
# Runs of labelled transition systems

`System σ α` has initial states and labelled steps. `M.RunIf G h s`: some run
from an initial state performs the steps `h` (newest first), every one of them
taken in a state and with a label that meets the guard `G`, and ends in `s`.
`M.Run` is the unguarded case. `RunIf.inv` is the induction over runs that
every safety theorem goes through; `exec` runs a deterministic step function
on a concrete list of labels.
-/

namespace OsLabs

universe u v

structure System (σ : Type u) (α : Type v) where
  Init : σ → Prop
  Step : σ → α → σ → Prop

namespace System

variable {σ : Type u} {α : Type v}

/-- Runs whose steps all meet the guard `G`; the labels are listed newest first. -/
inductive RunIf (M : System σ α) (G : σ → α → Prop) : List α → σ → Prop where
  | init {s : σ} : M.Init s → RunIf M G [] s
  | step {h : List α} {s s' : σ} {a : α} :
      RunIf M G h s → G s a → M.Step s a s' → RunIf M G (a :: h) s'

/-- Runs with no condition on the steps. -/
abbrev Run (M : System σ α) : List α → σ → Prop := M.RunIf fun _ _ => True

def Reachable (M : System σ α) (s : σ) : Prop := ∃ h, M.Run h s

variable {M : System σ α} {G : σ → α → Prop}

/-- **Invariants of guarded runs**: what holds initially and is kept by every
guarded step holds at the end of every guarded run. -/
theorem RunIf.inv {I : List α → σ → Prop} (h0 : ∀ s, M.Init s → I [] s)
    (h1 : ∀ h s a s', I h s → G s a → M.Step s a s' → I (a :: h) s')
    {h : List α} {s : σ} (hr : M.RunIf G h s) : I h s := by
  induction hr with
  | init hi => exact h0 _ hi
  | step _ hg hs ih => exact h1 _ _ _ _ ih hg hs

theorem RunIf.mono {G' : σ → α → Prop} (hG : ∀ s a, G s a → G' s a) {h : List α} {s : σ}
    (hr : M.RunIf G h s) : M.RunIf G' h s := by
  induction hr with
  | init hi => exact .init hi
  | step _ hg hs ih => exact .step ih (hG _ _ hg) hs

theorem RunIf.run {h : List α} {s : σ} (hr : M.RunIf G h s) : M.Run h s :=
  hr.mono fun _ _ _ => trivial

/-- The steps of a run are taken in states with the invariant. -/
theorem RunIf.strengthen {I : σ → Prop} (h0 : ∀ s, M.Init s → I s)
    (h1 : ∀ s a s', I s → G s a → M.Step s a s' → I s') {h : List α} {s : σ}
    (hr : M.RunIf G h s) : I s ∧ M.RunIf (fun s a => I s ∧ G s a) h s := by
  induction hr with
  | init hi => exact ⟨h0 _ hi, .init hi⟩
  | step _ hg hs ih => exact ⟨h1 _ _ _ ih.1 hg hs, .step ih.2 ⟨ih.1, hg⟩ hs⟩

/-- **Runs end** where every step makes the measure smaller: none is longer than
the measure of its initial state. -/
theorem RunIf.length_add_le {m : σ → Nat}
    (hm : ∀ s a s', G s a → M.Step s a s' → m s' < m s) {h : List α} {s : σ}
    (hr : M.RunIf G h s) : ∃ s0, M.Init s0 ∧ h.length + m s ≤ m s0 := by
  induction hr with
  | init hi => exact ⟨_, hi, by simp⟩
  | step _ hg hs ih =>
    obtain ⟨s0, hi, hle⟩ := ih
    have hlt := hm _ _ _ hg hs
    refine ⟨s0, hi, ?_⟩
    rw [List.length_cons]
    omega

/-- Where no run is longer than `n`, some run cannot go on. -/
theorem RunIf.exists_last {n : Nat} (hn : ∀ h s, M.RunIf G h s → h.length ≤ n) {s : σ}
    (hi : M.Init s) : ∃ h s, M.RunIf G h s ∧ ∀ a s', G s a → ¬ M.Step s a s' := by
  -- the induction is on the steps that may still come
  have key : ∀ k h s, M.RunIf G h s → n ≤ h.length + k →
      ∃ h s, M.RunIf G h s ∧ ∀ a s', G s a → ¬ M.Step s a s' := by
    intro k
    induction k with
    | zero =>
      intro h s hr hle
      refine ⟨h, s, hr, fun a s' hg hs => ?_⟩
      have hlong := hn _ _ (.step hr hg hs)
      rw [List.length_cons] at hlong
      omega
    | succ k ih =>
      intro h s hr hle
      by_cases hnext : ∃ a s', G s a ∧ M.Step s a s'
      · obtain ⟨a, s', hg, hs⟩ := hnext
        refine ih _ _ (.step hr hg hs) ?_
        rw [List.length_cons]
        omega
      · exact ⟨h, s, hr, fun a s' hg hs => hnext ⟨a, s', hg, hs⟩⟩
  exact key n [] s (.init hi) (Nat.le_add_left n _)

/-! ## Performing a list of labels -/

/-- Perform the labels in order (oldest first) with the step function `f`,
giving up at a step that the check `g` refuses. -/
def execIf (g : σ → α → Bool) (f : σ → α → Option σ) : σ → List α → Option σ
  | s, [] => some s
  | s, a :: as => if g s a then (f s a).bind fun s' => execIf g f s' as else none

theorem RunIf.append_execIf {f : σ → α → Option σ} {g : σ → α → Bool}
    (hf : ∀ s a s', g s a = true → f s a = some s' → G s a ∧ M.Step s a s') :
    ∀ {as h : List α} {s s' : σ}, M.RunIf G h s → execIf g f s as = some s' →
      M.RunIf G (as.reverse ++ h) s'
  | [], h, s, s', hr, he => by
    cases he
    exact hr
  | a :: as, h, s, s', hr, he => by
    simp only [execIf] at he
    split at he
    · next ha =>
      obtain ⟨t, ht, he⟩ := Option.bind_eq_some_iff.mp he
      obtain ⟨hg, hs⟩ := hf _ _ _ ha ht
      simpa using RunIf.append_execIf hf (.step hr hg hs) he
    · cases he

theorem runIf_of_execIf {f : σ → α → Option σ} {g : σ → α → Bool}
    (hf : ∀ s a s', g s a = true → f s a = some s' → G s a ∧ M.Step s a s')
    {as : List α} {s s' : σ} (hi : M.Init s) (he : execIf g f s as = some s') :
    M.RunIf G as.reverse s' := by
  simpa using RunIf.append_execIf hf (.init hi) he

end System

end OsLabs
