import Mathlib.Logic.Basic

/-!
# States that answer alike

`f s a` is the answer of a deterministic machine in state `s` to the label `a`
and the state it moves to, or `none` where the machine cannot take the label.
`Alike f s t`: no list of labels tells `s` from `t`. A relation kept by every
step with equal answers proves two states alike (`Alike.of_rel`); two states
are told apart by walking down a measure to labels that are answered
differently (`not_alike_of_descent`).
-/

namespace OsLabs

universe u v w

section

variable {σ : Type u} {α : Type v} {β : Type w} (f : σ → α → Option (σ × β))

/-- The answer to `a`; `none` where the label cannot be taken. -/
def answer (s : σ) (a : α) : Option β := (f s a).map Prod.snd

/-- The state behind `a`; a label that cannot be taken changes nothing. -/
def after (s : σ) (a : α) : σ := (f s a).elim s Prod.fst

/-- The answers to the labels, in order. -/
def answers : σ → List α → List (Option β)
  | _, [] => []
  | s, a :: as => answer f s a :: answers (after f s a) as

def afterAll (s : σ) (as : List α) : σ := as.foldl (after f) s

/-- Every list of labels is answered the same in `s` and in `t`. -/
def Alike (s t : σ) : Prop := ∀ as, answers f s as = answers f t as

variable {f} {s t s' t' : σ} {a : α} {b b' : β}

theorem answer_of_some (h : f s a = some (s', b)) : answer f s a = some b := by
  rw [answer, h, Option.map_some]

theorem after_of_some (h : f s a = some (s', b)) : after f s a = s' := by
  rw [after, h, Option.elim_some]

theorem Alike.answer (h : Alike f s t) (a : α) : answer f s a = answer f t a :=
  (List.cons.inj (h [a])).1

theorem Alike.after (h : Alike f s t) (a : α) : Alike f (after f s a) (after f t a) :=
  fun as => (List.cons.inj (h (a :: as))).2

theorem Alike.afterAll (h : Alike f s t) (as : List α) :
    Alike f (afterAll f s as) (afterAll f t as) := by
  induction as generalizing s t with
  | nil => exact h
  | cons a as ih => exact ih (h.after a)

/-- **Bisimulation**: states related by a relation that every step keeps, with
equal answers, are alike. -/
theorem Alike.of_rel {R : σ → σ → Prop}
    (hR : ∀ s t a, R s t → OsLabs.answer f s a = OsLabs.answer f t a ∧
      R (OsLabs.after f s a) (OsLabs.after f t a)) (h : R s t) : Alike f s t := by
  intro as
  induction as generalizing s t with
  | nil => rfl
  | cons a as ih =>
    obtain ⟨ha, hn⟩ := hR s t a h
    rw [answers, answers, ha, ih hn]

theorem not_alike_of_answer (h : f s a = some (s', b)) (h' : f t a = some (t', b'))
    (hne : b ≠ b') : ¬ Alike f s t := fun hal => hne <| Option.some.inj <| by
  rw [← answer_of_some h, ← answer_of_some h', hal.answer a]

/-- **Telling two states apart**: related states are not alike when any two of
them are told apart by one label or are led by some labels to related states
with a smaller measure. -/
theorem not_alike_of_descent {R : σ → σ → Prop} (m : σ → σ → Nat)
    (hR : ∀ s t, R s t → ¬ Alike f s t ∨
      ∃ as, R (OsLabs.afterAll f s as) (OsLabs.afterAll f t as) ∧
        m (OsLabs.afterAll f s as) (OsLabs.afterAll f t as) < m s t)
    (h : R s t) : ¬ Alike f s t := by
  induction hn : m s t using Nat.strongRecOn generalizing s t with
  | _ n ih =>
    intro hal
    rcases hR s t h with hno | ⟨as, hr, hlt⟩
    · exact hno hal
    · exact ih _ (hn ▸ hlt) hr rfl (hal.afterAll as)

end

end OsLabs
