import Mathlib.Data.List.Basic

/-!
# Operator-precedence parsing

Operands `x, y₁, y₂, …` are joined by binary operators with a binding strength
`prec` (larger binds tighter, equal strengths associate to the left). `Parse`
says which tree such a chain has: the root is the rightmost of its loosest
operators. `shiftReduce` is the two-stack algorithm; `parse_iff` is its
correctness.
-/

namespace OsLabs.Precedence

universe u v

variable {Op : Type u} {α : Type v} (prec : Op → Nat) (node : Op → α → α → α)

/-- `Parse x l t`: the operand `x` followed by the operators and operands `l` is the tree `t`. -/
inductive Parse : α → List (Op × α) → α → Prop where
  | atom (x : α) : Parse x [] x
  | node {x y a b : α} {l r : List (Op × α)} {op : Op} :
      (∀ p ∈ l, prec op ≤ prec p.1) → (∀ p ∈ r, prec op < prec p.1) →
      Parse x l a → Parse y r b → Parse x (l ++ (op, y) :: r) (node op a b)

/-- Combine the pending operators that bind at least as tightly as `k`; `st`
holds the pending operators with their left operands, the latest first. -/
def reduce (k : Nat) : List (Op × α) → α → List (Op × α) × α
  | [], c => ([], c)
  | (o, a) :: st, c => if k ≤ prec o then reduce k st (node o a c) else ((o, a) :: st, c)

/-- Shift the operators and operands of `l` one after the other. -/
def feed : List (Op × α) → α → List (Op × α) → List (Op × α) × α
  | st, c, [] => (st, c)
  | st, c, (o, y) :: l =>
    let r := reduce prec node (prec o) st c
    feed ((o, r.2) :: r.1) y l

/-- The two-stack algorithm: shift everything, then combine what is pending. -/
def shiftReduce (x : α) (l : List (Op × α)) : α :=
  let r := feed prec node [] x l
  (reduce prec node 0 r.1 r.2).2

variable {prec node}

theorem feed_append (st : List (Op × α)) (c : α) (l m : List (Op × α)) :
    feed prec node st c (l ++ m) =
      feed prec node (feed prec node st c l).1 (feed prec node st c l).2 m := by
  induction l generalizing st c with
  | nil => rfl
  | cons p l ih => exact ih _ _

theorem reduce_of_lt {k : Nat} {st : List (Op × α)} (c : α)
    (h : ∀ p ∈ st.head?, prec p.1 < k) : reduce prec node k st c = (st, c) := by
  cases st with
  | nil => rfl
  | cons p st =>
    have hp : prec p.1 < k := h p rfl
    simp only [reduce]
    rw [if_neg (by omega)]

theorem reduce_pop {k : Nat} {o : Op} (h : k ≤ prec o) (a c : α) (st : List (Op × α)) :
    reduce prec node k ((o, a) :: st) c = reduce prec node k st (node o a c) := by
  simp only [reduce]
  rw [if_pos h]

/-- Shifting a chain above looser pending operators leaves its tree to be combined. -/
theorem Parse.feed_reduce {x t : α} {l : List (Op × α)} (h : Parse prec node x l t) :
    ∀ (st : List (Op × α)) (k : Nat), (∀ q ∈ st.head?, ∀ p ∈ l, prec q.1 < prec p.1) →
      (∀ p ∈ l, k ≤ prec p.1) →
      reduce prec node k (feed prec node st x l).1 (feed prec node st x l).2 =
        reduce prec node k st t := by
  induction h with
  | atom x => intro st k _ _; rfl
  | @node x y a b l r op hl hr _ _ iha ihb =>
    intro st k hst hk
    have hop : (op, y) ∈ l ++ (op, y) :: r := by simp
    have ha : reduce prec node (prec op) (feed prec node st x l).1 (feed prec node st x l).2 =
        (st, a) := by
      rw [iha st (prec op) (fun q hq p hp => hst q hq p (by simp [hp])) hl]
      exact reduce_of_lt a fun q hq => hst q hq _ hop
    have hb := ihb ((op, a) :: st) k
      (by intro q hq p hp; cases hq; exact hr p hp)
      (fun p hp => hk p (by simp [hp]))
    rw [feed_append]
    simp only [feed, ha]
    rw [hb, reduce_pop (hk _ hop)]

/-- A nonempty chain has a rightmost loosest operator. -/
theorem exists_loosest (prec : Op → Nat) (l : List (Op × α)) (h : l ≠ []) :
    ∃ l₁ q l₂, l = l₁ ++ q :: l₂ ∧ (∀ p ∈ l₁, prec q.1 ≤ prec p.1) ∧
      ∀ p ∈ l₂, prec q.1 < prec p.1 := by
  induction l with
  | nil => exact absurd rfl h
  | cons p l ih =>
    rcases l with _ | ⟨p', l⟩
    · exact ⟨[], p, [], rfl, by simp, by simp⟩
    · obtain ⟨l₁, q, l₂, he, h1, h2⟩ := ih (by simp)
      rw [he]
      rcases Nat.lt_or_ge (prec p.1) (prec q.1) with hpq | hpq
      · refine ⟨[], p, l₁ ++ q :: l₂, rfl, by simp, ?_⟩
        intro r hr
        rcases List.mem_append.1 hr with hr | hr
        · exact Nat.lt_of_lt_of_le hpq (h1 r hr)
        · rcases List.mem_cons.1 hr with rfl | hr
          · exact hpq
          · exact Nat.lt_trans hpq (h2 r hr)
      · refine ⟨p :: l₁, q, l₂, rfl, ?_, h2⟩
        intro r hr
        rcases List.mem_cons.1 hr with rfl | hr
        · exact hpq
        · exact h1 r hr

/-- Every chain has a tree. -/
theorem Parse.exists (prec : Op → Nat) (node : Op → α → α → α) (x : α) (l : List (Op × α)) :
    ∃ t, Parse prec node x l t := by
  induction hn : l.length using Nat.strongRecOn generalizing x l with
  | ind n ih =>
    by_cases hl : l = []
    · subst hl; exact ⟨x, .atom x⟩
    · obtain ⟨l₁, ⟨op, y⟩, l₂, he, h1, h2⟩ := exists_loosest prec l hl
      have hlen : l₁.length + l₂.length < n := by
        rw [← hn, he]; simp
      obtain ⟨a, ha⟩ := ih l₁.length (by omega) x l₁ rfl
      obtain ⟨b, hb⟩ := ih l₂.length (by omega) y l₂ rfl
      exact ⟨node op a b, he ▸ .node h1 h2 ha hb⟩

theorem Parse.shiftReduce_eq {x t : α} {l : List (Op × α)} (h : Parse prec node x l t) :
    shiftReduce prec node x l = t := by
  have hr := h.feed_reduce [] 0 (by simp) (by simp)
  simp only [shiftReduce, hr]
  rfl

/-- **Correctness of the two-stack algorithm**; in particular a chain has only one tree. -/
theorem parse_iff {x t : α} {l : List (Op × α)} :
    Parse prec node x l t ↔ shiftReduce prec node x l = t := by
  refine ⟨Parse.shiftReduce_eq, ?_⟩
  rintro rfl
  obtain ⟨t, ht⟩ := Parse.exists prec node x l
  rw [ht.shiftReduce_eq]
  exact ht

end OsLabs.Precedence
