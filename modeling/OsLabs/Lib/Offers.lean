import Mathlib.Data.List.Basic
import Mathlib.Tactic.Common

/-!
# Offering a list piecemeal

A producer offers the items of a list, one after the other, to a consumer who may
refuse. A refusal ends the call, and the next call starts with the refused item.
`answers t` is the consumer's answer number `t`, over all calls.
-/

namespace OsLabs

namespace Offers

variable {α : Type*}

/-- The items accepted, those that are left, and the answers used up. -/
structure Call (α : Type*) where
  accepted : List α
  rest : List α
  asked : Nat

section

variable (answers : Nat → Bool)

/-- A call that starts with answer `t`. -/
def call : List α → Nat → Call α
  | [], t => ⟨[], [], t⟩
  | x :: xs, t =>
    if answers t then
      let c := call xs (t + 1)
      { c with accepted := x :: c.accepted }
    else ⟨[], x :: xs, t + 1⟩

/-- After `n` calls. -/
def calls (items : List α) : Nat → Call α
  | 0 => ⟨[], items, 0⟩
  | n + 1 =>
    let c := calls items n
    let d := call answers c.rest c.asked
    { d with accepted := c.accepted ++ d.accepted }

end

variable {answers : Nat → Bool} {items : List α} {n t : Nat}

theorem call_cons_true (x : α) (xs : List α) (h : answers t = true) : call answers (x :: xs) t =
    ⟨x :: (call answers xs (t + 1)).accepted, (call answers xs (t + 1)).rest,
      (call answers xs (t + 1)).asked⟩ :=
  if_pos h

theorem call_cons_false (x : α) (xs : List α) (h : answers t = false) :
    call answers (x :: xs) t = ⟨[], x :: xs, t + 1⟩ :=
  if_neg (h ▸ Bool.false_ne_true)

/-- No item is lost and none comes twice. -/
theorem call_append (answers : Nat → Bool) (items : List α) (t : Nat) :
    (call answers items t).accepted ++ (call answers items t).rest = items := by
  induction items generalizing t with
  | nil => rfl
  | cons x xs ih =>
    cases h : answers t with
    | true =>
      rw [call_cons_true x xs h]
      exact congrArg (x :: ·) (ih (t + 1))
    | false => rw [call_cons_false x xs h, List.nil_append]

/-- Where items are left, the last answer was a refusal. -/
theorem call_refused (h : (call answers items t).rest ≠ []) :
    t < (call answers items t).asked ∧ answers ((call answers items t).asked - 1) = false := by
  induction items generalizing t with
  | nil => exact absurd rfl h
  | cons x xs ih =>
    cases ha : answers t with
    | true =>
      rw [call_cons_true x xs ha] at h ⊢
      obtain ⟨hlt, hans⟩ := ih h
      exact ⟨Nat.lt_of_succ_lt hlt, hans⟩
    | false =>
      rw [call_cons_false x xs ha]
      exact ⟨Nat.lt_succ_self t, ha⟩

theorem calls_append (answers : Nat → Bool) (items : List α) (n : Nat) :
    (calls answers items n).accepted ++ (calls answers items n).rest = items := by
  induction n with
  | zero => rfl
  | succ n ih =>
    show ((calls answers items n).accepted ++ _) ++
      (call answers (calls answers items n).rest _).rest = items
    rw [List.append_assoc, call_append]
    exact ih

theorem calls_refused (h : (calls answers items (n + 1)).rest ≠ []) :
    (calls answers items n).asked < (calls answers items (n + 1)).asked ∧
      answers ((calls answers items (n + 1)).asked - 1) = false :=
  call_refused h

/-- An accepted answer leaves fewer items. -/
theorem call_progress (h : answers t = true) (hne : items ≠ []) :
    (call answers items t).rest.length < items.length := by
  cases items with
  | nil => exact absurd rfl hne
  | cons x xs =>
    have happ := congrArg List.length (call_append answers xs (t + 1))
    rw [List.length_append] at happ
    rw [call_cons_true x xs h, List.length_cons]
    show (call answers xs (t + 1)).rest.length < _
    omega

/-- Some later call comes to an answer `t` that accepts, so that fewer items are left. -/
theorem calls_progress (ht : answers t = true) (hn : (calls answers items n).asked ≤ t)
    (hne : (calls answers items n).rest ≠ []) :
    ∃ k, (calls answers items k).rest.length < (calls answers items n).rest.length := by
  induction hd : t - (calls answers items n).asked generalizing n with
  | zero =>
    have hask : (calls answers items n).asked = t := by omega
    exact ⟨n + 1, call_progress (hask ▸ ht) hne⟩
  | succ d ih =>
    cases ha : answers (calls answers items n).asked with
    | true => exact ⟨n + 1, call_progress ha hne⟩
    | false =>
      obtain ⟨y, ys, hrest⟩ := List.exists_cons_of_ne_nil hne
      have hnext : (calls answers items (n + 1)).rest = (calls answers items n).rest ∧
          (calls answers items (n + 1)).asked = (calls answers items n).asked + 1 := by
        show (call answers (calls answers items n).rest _).rest = _ ∧
          (call answers (calls answers items n).rest _).asked = _
        rw [hrest, call_cons_false y ys ha]
        exact ⟨rfl, rfl⟩
      rw [← hnext.1]
      exact ih (by omega) (hnext.1 ▸ hne) (by omega)

/-- A consumer who does not refuse for good gets the whole list. -/
theorem calls_end (h : ∀ k, ∃ t, k ≤ t ∧ answers t = true) (items : List α) :
    ∃ n, (calls answers items n).rest = [] := by
  suffices hs : ∀ len n, (calls answers items n).rest.length = len →
      ∃ k, (calls answers items k).rest = [] from hs _ 0 rfl
  intro len
  induction len using Nat.strongRecOn with
  | ind len ih =>
    intro n hlen
    by_cases hne : (calls answers items n).rest = []
    · exact ⟨n, hne⟩
    · obtain ⟨t, hle, ht⟩ := h (calls answers items n).asked
      obtain ⟨k, hk⟩ := calls_progress ht hle hne
      exact ih _ (hlen ▸ hk) k rfl

end Offers

end OsLabs
