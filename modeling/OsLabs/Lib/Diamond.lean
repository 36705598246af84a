import Mathlib.Data.List.Perm.Basic
import Mathlib.Tactic.Common

/-!
# Actors whose steps commute

Each actor `i` has a partial step function `f i` on a common state. `Diamond f`
says that steps two actors can both take can be taken in either order with one
result. Then every complete schedule does the same steps in another order and ends in
the same state (`Diamond.complete`).

`Confined R W op` bounds what an operation on a store may read and write; confined
operations with `Apart` bounds commute.
-/

namespace OsLabs

universe u v w x

variable {ι : Type u} {σ : Type v}

/-- Perform one step of each actor in the list, in order. -/
def perform (f : ι → σ → Option σ) : List ι → σ → Option σ
  | [], s => some s
  | i :: l, s => (f i s).bind (perform f l)

/-- No actor can take a step. -/
def Stuck (f : ι → σ → Option σ) (s : σ) : Prop := ∀ i, f i s = none

def Diamond (f : ι → σ → Option σ) : Prop :=
  ∀ i j s s₁ s₂, i ≠ j → f i s = some s₁ → f j s = some s₂ →
    ∃ t, f j s₁ = some t ∧ f i s₂ = some t

variable {f : ι → σ → Option σ} {s t u : σ}

theorem perform_cons {i : ι} {l : List ι} :
    perform f (i :: l) s = some t ↔ ∃ r, f i s = some r ∧ perform f l r = some t :=
  Option.bind_eq_some_iff

theorem perform_append {a b : List ι} :
    perform f (a ++ b) s = some t ↔ ∃ r, perform f a s = some r ∧ perform f b r = some t := by
  induction a generalizing s with
  | nil => simp [perform]
  | cons i a ih =>
    rw [List.cons_append, perform_cons]
    simp only [ih, perform_cons]
    constructor
    · rintro ⟨r, hr, r', ha, hb⟩
      exact ⟨r', ⟨r, hr, ha⟩, hb⟩
    · rintro ⟨r', ⟨r, hr, ha⟩, hb⟩
      exact ⟨r, hr, r', ha, hb⟩

/-- A step that is possible now is one of those a complete schedule performs, and
can be performed first. -/
theorem Diamond.first (hd : Diamond f) {a : List ι} (ha : perform f a s = some t)
    (ht : Stuck f t) {i : ι} {r : σ} (hi : f i s = some r) :
    ∃ c, perform f c r = some t ∧ a.Perm (i :: c) := by
  induction a generalizing s r with
  | nil =>
    obtain rfl := Option.some.inj ha
    rw [ht i] at hi
    cases hi
  | cons j a ih =>
    obtain ⟨q, hj, ha⟩ := perform_cons.1 ha
    by_cases hij : i = j
    · subst hij
      obtain rfl := Option.some.inj (hi.symm.trans hj)
      exact ⟨a, ha, .refl _⟩
    · obtain ⟨p, hp, hp'⟩ := hd i j s r q hij hi hj
      obtain ⟨c, hc, hperm⟩ := ih ha hp'
      exact ⟨j :: c, perform_cons.2 ⟨p, hp, hc⟩, (hperm.cons j).trans (.swap ..)⟩

/-- **One outcome.** When a schedule `a` is complete, every other schedule can be
continued to the same final state, and performs each step of `a` once. -/
theorem Diamond.complete (hd : Diamond f) {a b : List ι} (ha : perform f a s = some t)
    (ht : Stuck f t) (hb : perform f b s = some u) :
    ∃ c, perform f c u = some t ∧ a.Perm (b ++ c) := by
  induction b generalizing s a with
  | nil =>
    obtain rfl := Option.some.inj hb
    exact ⟨a, ha, .refl _⟩
  | cons i b ih =>
    obtain ⟨r, hi, hb⟩ := perform_cons.1 hb
    obtain ⟨c, hc, hperm⟩ := hd.first ha ht hi
    obtain ⟨e, he, hperm'⟩ := ih hc hb
    exact ⟨e, he, hperm.trans (hperm'.cons i)⟩

theorem Diamond.length_le (hd : Diamond f) {a b : List ι} (ha : perform f a s = some t)
    (ht : Stuck f t) (hb : perform f b s = some u) : b.length ≤ a.length := by
  obtain ⟨c, -, hperm⟩ := hd.complete ha ht hb
  rw [hperm.length_eq, List.length_append]
  omega

theorem Diamond.unique (hd : Diamond f) {a b : List ι} (ha : perform f a s = some t)
    (ht : Stuck f t) (hb : perform f b s = some u) (hu : Stuck f u) : u = t := by
  obtain ⟨c, hc, -⟩ := hd.complete ha ht hb
  cases c with
  | nil => exact Option.some.inj hc
  | cons i c =>
    obtain ⟨r, hr, -⟩ := perform_cons.1 hc
    rw [hu i] at hr
    cases hr

/-! ## Operations on a store -/

variable {ν : Type u} {β : Type v} {ρ : Type w} {ρ' : Type x}

/-- An operation that returns a value and changes the store. -/
abbrev StoreOp (ν : Type u) (β : Type v) (ρ : Type w) := (ν → β) → ρ × (ν → β)

/-- `op` writes only names in `W`, and what it does depends only on the names in
`R` and `W`. -/
structure Confined (R W : ν → Prop) (op : StoreOp ν β ρ) : Prop where
  frame : ∀ st n, ¬ W n → (op st).2 n = st n
  result : ∀ st st', (∀ n, R n ∨ W n → st n = st' n) → (op st).1 = (op st').1
  written : ∀ st st', (∀ n, R n ∨ W n → st n = st' n) → ∀ n, W n → (op st).2 n = (op st').2 n

/-- Neither side writes what the other one uses. -/
def Apart (R W R' W' : ν → Prop) : Prop :=
  ∀ n, (W n → ¬ (R' n ∨ W' n)) ∧ (W' n → ¬ (R n ∨ W n))

variable {R W R' W' : ν → Prop}

theorem Apart.symm (h : Apart R W R' W') : Apart R' W' R W := fun n => (h n).symm

/-- An operation does not see what the other one did. -/
theorem Apart.unseen (h : Apart R W R' W') {op : StoreOp ν β ρ} (hop : Confined R W op)
    (st : ν → β) {n : ν} (hn : R' n ∨ W' n) : (op st).2 n = st n :=
  hop.frame st n fun hw => (h n).1 hw hn

theorem Apart.result (h : Apart R W R' W') {p : StoreOp ν β ρ} {q : StoreOp ν β ρ'}
    (hp : Confined R W p) (hq : Confined R' W' q) (st : ν → β) : (q (p st).2).1 = (q st).1 :=
  hq.result _ _ fun _ hn => h.unseen hp st hn

/-- What `q` writes after `p` is what it writes without `p`. -/
theorem Apart.store (h : Apart R W R' W') {p : StoreOp ν β ρ} {q : StoreOp ν β ρ'}
    (hp : Confined R W p) (hq : Confined R' W' q) (st : ν → β) :
    (q (p st).2).2 = (p (q st).2).2 := by
  funext n
  by_cases hw : W n
  · have hw' : ¬ W' n := fun hw' => (h n).1 hw (.inr hw')
    rw [hq.frame _ n hw']
    exact hp.written _ _ (fun m hm => (h.symm.unseen hq st hm).symm) n hw
  · rw [hp.frame _ n hw]
    by_cases hw' : W' n
    · exact hq.written _ _ (fun m hm => h.unseen hp st hm) n hw'
    · rw [hq.frame _ n hw', hp.frame _ n hw, hq.frame _ n hw']

end OsLabs
