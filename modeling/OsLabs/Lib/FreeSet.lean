import Mathlib.Data.Finset.Max

/-!
# Allocation from a set

An allocator is a set of free elements: `take` hands out the least one, `give`
puts an element of the universe `U` back. `taken_once`: between two times that
an element is handed out it is given back.
-/

namespace OsLabs

namespace FreeSet

universe u

inductive Op (α : Type u) where
  | take
  | give (a : α)
  deriving DecidableEq, Repr

/-- What an operation reports. -/
inductive Event (α : Type u) where
  | taken (a : α)
  | full
  | given (a : α)
  deriving DecidableEq, Repr

variable {α : Type u} [LinearOrder α]

def take (s : Finset α) : Event α × Finset α :=
  if h : s.Nonempty then (.taken (s.min' h), s.erase (s.min' h)) else (.full, s)

def give (U : α → Bool) (a : α) (s : Finset α) : Event α × Finset α :=
  (.given a, if U a then insert a s else s)

def step (U : α → Bool) (s : Finset α) : Op α → Event α × Finset α
  | .take => take s
  | .give a => give U a s

/-- The events of a run, oldest first, and the set after it. -/
def run (U : α → Bool) (s : Finset α) : List (Op α) → List (Event α) × Finset α
  | [] => ([], s)
  | op :: ops =>
    let (e, s) := step U s op
    let (es, s) := run U s ops
    (e :: es, s)

variable {U : α → Bool} {s s' : Finset α} {a : α} {op : Op α} {ops : List (Op α)} {e : Event α}

theorem take_empty : take (∅ : Finset α) = (.full, ∅) := dif_neg Finset.not_nonempty_empty

/-- The least free element is taken. -/
theorem take_least (ha : a ∈ s) (hle : ∀ b ∈ s, a ≤ b) : take s = (.taken a, s.erase a) := by
  have hmin : s.min' ⟨a, ha⟩ = a := le_antisymm (s.min'_le a ha) (hle _ (s.min'_mem _))
  rw [take, dif_pos ⟨a, ha⟩, hmin]

/-- What an operation does. -/
theorem step_cases (U : α → Bool) (s : Finset α) (op : Op α) :
    (∃ a ∈ s, step U s op = (.taken a, s.erase a)) ∨ step U s op = (.full, s) ∨
      ∃ a, step U s op = (.given a, if U a then insert a s else s) := by
  cases op with
  | give a => exact .inr (.inr ⟨a, rfl⟩)
  | take =>
    by_cases h : s.Nonempty
    · exact .inl ⟨s.min' h, s.min'_mem h, dif_pos h⟩
    · exact .inr (.inl (dif_neg h))

theorem mem_of_taken (h : (step U s op).1 = .taken a) : a ∈ s := by
  obtain ⟨b, hb, he⟩ | he | ⟨b, he⟩ := step_cases U s op
  · rw [he] at h
    cases h
    exact hb
  · rw [he] at h
    cases h
  · rw [he] at h
    cases h

theorem not_mem_of_taken (h : (step U s op).1 = .taken a) : a ∉ (step U s op).2 := by
  obtain ⟨b, hb, he⟩ | he | ⟨b, he⟩ := step_cases U s op
  · rw [he] at h ⊢
    cases h
    exact Finset.notMem_erase _ _
  · rw [he] at h
    cases h
  · rw [he] at h
    cases h

/-- Only giving `a` back adds it. -/
theorem not_mem_step (ha : a ∉ s) (h : (step U s op).1 ≠ .given a) : a ∉ (step U s op).2 := by
  obtain ⟨b, hb, he⟩ | he | ⟨b, he⟩ := step_cases U s op
  · rw [he]
    exact fun hm => ha (Finset.mem_of_mem_erase hm)
  · rw [he]
    exact ha
  · rw [he] at h ⊢
    have hne : a ≠ b := fun hab => h (by rw [hab])
    show a ∉ ite _ _ _
    split
    · exact fun hm => (Finset.mem_insert.1 hm).elim hne ha
    · exact ha

/-- An element that is not free is given back before it is handed out. -/
theorem given_before_taken (ha : a ∉ s) {between after : List (Event α)}
    (h : (run U s ops).1 = between ++ .taken a :: after) : .given a ∈ between := by
  induction ops generalizing s between with
  | nil => cases between <;> cases h
  | cons op ops ih =>
    cases between with
    | nil =>
      simp only [run, List.nil_append, List.cons.injEq] at h
      exact absurd (mem_of_taken h.1) ha
    | cons e between =>
      simp only [run, List.cons_append, List.cons.injEq] at h
      by_cases he : e = .given a
      · exact he ▸ List.mem_cons_self
      · exact List.mem_cons_of_mem _ (ih (not_mem_step ha (h.1 ▸ he)) h.2)

/-- **No element is handed out twice without being given back in between.** -/
theorem taken_once {before between after : List (Event α)}
    (h : (run U s ops).1 = before ++ .taken a :: between ++ .taken a :: after) :
    .given a ∈ between := by
  induction ops generalizing s before with
  | nil => cases before <;> cases h
  | cons op ops ih =>
    cases before with
    | nil =>
      simp only [run, List.nil_append, List.cons_append, List.cons.injEq] at h
      exact given_before_taken (not_mem_of_taken h.1) h.2
    | cons e before =>
      simp only [run, List.cons_append, List.cons.injEq] at h
      exact ih h.2

end FreeSet

end OsLabs
