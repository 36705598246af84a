import Mathlib.Data.List.Basic
import Mathlib.Tactic.Common

/-!
# Scanning loops and decimal numbers

`scanWhile step s l` feeds elements of `l` to `step` until it refuses one; it
returns the state reached and what is left. `decimal n` is the text of a natural
number, and `foldlM_decimal` reads it back with any step that computes
`10 * v + d`.
-/

namespace OsLabs.Scan

variable {α σ : Type}

/-- Consume elements as long as `step` accepts them. -/
def scanWhile (step : σ → α → Option σ) : σ → List α → σ × List α
  | s, [] => (s, [])
  | s, c :: l =>
    match step s c with
    | none => (s, c :: l)
    | some s => scanWhile step s l

/-- What the step function accepts is consumed. -/
theorem scanWhile_append {step : σ → α → Option σ} {l : List α} :
    ∀ {s t : σ} (rest : List α), l.foldlM step s = some t →
      scanWhile step s (l ++ rest) = scanWhile step t rest := by
  induction l with
  | nil =>
    intro s t rest h
    obtain rfl : s = t := Option.some.inj h
    rfl
  | cons c l ih =>
    intro s t rest h
    rw [List.foldlM_cons] at h
    obtain ⟨u, hu, ht⟩ := Option.bind_eq_some_iff.1 h
    rw [List.cons_append, scanWhile, hu]
    exact ih rest ht

/-- The loop ends in front of an element the step function refuses. -/
theorem scanWhile_stop {step : σ → α → Option σ} {s : σ} {rest : List α}
    (h : ∀ c ∈ rest.head?, step s c = none) : scanWhile step s rest = (s, rest) := by
  rcases rest with _ | ⟨c, rest⟩
  · rfl
  · rw [scanWhile, h c rfl]

theorem length_scanWhile_le {step : σ → α → Option σ} (l : List α) :
    ∀ s : σ, (scanWhile step s l).2.length ≤ l.length := by
  induction l with
  | nil => exact fun s => Nat.le_refl _
  | cons c l ih =>
    intro s
    unfold scanWhile
    split
    · exact Nat.le_refl _
    · exact Nat.le_succ_of_le (ih _)

/-- What every step keeps holds of the state reached. -/
theorem scanWhile_inv {step : σ → α → Option σ} {P : σ → Prop}
    (hstep : ∀ s c t, P s → step s c = some t → P t) (l : List α) :
    ∀ s : σ, P s → P (scanWhile step s l).1 := by
  induction l with
  | nil => exact fun s hs => hs
  | cons c l ih =>
    intro s hs
    unfold scanWhile
    split
    · exact hs
    · rename_i t ht
      exact ih t (hstep s c t hs ht)

/-! ## Decimal numbers -/

/-- The byte of a character; the characters used here are ASCII. -/
def byte (c : Char) : UInt8 := c.toUInt8

/-- The decimal text of a number. -/
def decimal (n : Nat) : List UInt8 := (Nat.toDigits 10 n).map byte

/-- The digit of a number below ten. -/
def digit (d : Nat) : UInt8 := byte (Nat.digitChar d)

theorem decimal_of_lt {n : Nat} (h : n < 10) : decimal n = [digit n] := by
  unfold decimal digit
  rw [Nat.toDigits_of_lt_base h]
  rfl

theorem decimal_of_le {n : Nat} (h : 10 ≤ n) :
    decimal n = decimal (n / 10) ++ [digit (n % 10)] := by
  unfold decimal digit
  rw [Nat.toDigits_of_base_le (by decide) h, List.map_append]
  rfl

theorem digit_toNat : ∀ {d : Nat}, d < 10 → (digit d).toNat = 48 + d := by
  decide

/-- A number begins with a digit. -/
theorem decimal_head (n : Nat) : ∃ d l, d < 10 ∧ decimal n = digit d :: l := by
  induction n using Nat.strongRecOn with
  | ind n ih =>
    rcases Nat.lt_or_ge n 10 with h | h
    · exact ⟨n, [], h, decimal_of_lt h⟩
    · obtain ⟨d, l, hd, hl⟩ := ih (n / 10) (by omega)
      refine ⟨d, l ++ [digit (n % 10)], hd, ?_⟩
      rw [decimal_of_le h, hl, List.cons_append]

/-- A step that computes `10 * v + d` from its first digit on reads `decimal n` as `n`. -/
theorem foldlM_decimal {step : σ → UInt8 → Option σ} {s : σ} {f : Nat → σ} (n : Nat)
    (h0 : ∀ d, d < 10 → step s (digit d) = some (f d))
    (h1 : ∀ v d, d < 10 → 10 * v + d ≤ n → step (f v) (digit d) = some (f (10 * v + d))) :
    (decimal n).foldlM step s = some (f n) := by
  induction n using Nat.strongRecOn with
  | ind n ih =>
    rcases Nat.lt_or_ge n 10 with h | h
    · rw [decimal_of_lt h, List.foldlM_cons, h0 n h]
      rfl
    · have hrec := ih (n / 10) (by omega) fun v d hd hle => h1 v d hd (by omega)
      have hstep := h1 (n / 10) (n % 10) (Nat.mod_lt _ (by decide)) (by omega)
      rw [Nat.div_add_mod] at hstep
      rw [decimal_of_le h, List.foldlM_append, hrec]
      show ([digit (n % 10)].foldlM step (f (n / 10)) : Option σ) = some (f n)
      rw [List.foldlM_cons, hstep]
      rfl

end OsLabs.Scan
