import OsLabs.Ospfs.Layout

/-!
# OSPFS: the formatter's `readn`

`readn` keeps the result of `read` in a `size_t`. So `m <= 0` holds at the end of the file
only, and -1 is 2^64 - 1: a failed read takes one byte back from `t`, and the next read
overwrites the last byte. `balance` counts that way along the results; `Backed` is the
condition on the results under which `readn` still reports what it read
(`reports_iff`).
-/

namespace OsLabs.Ospfs.Readn

/-- The variables of `readn`, with what the calls of `read` have done so far. -/
structure Reading where
  t : Nat
  buf : Nat → UInt8
  calls : Nat
  delivered : Nat

def ssize (t : Nat) : Int := (t : Int).bmod (2 ^ 64)

section

variable (n : Nat) (reads : Nat → Option Nat) (bytes : Nat → UInt8)

/-- `read(f, a + t, n - t)`, its result as a `size_t`. The call number `i` fails (`none`) or
has up to `reads i` bytes; `bytes` are the bytes of the file. -/
def Reading.read (s : Reading) : Nat × Reading :=
  match reads s.calls with
  | none => (2 ^ 64 - 1, { s with calls := s.calls + 1 })
  | some c =>
    let m := min c (n - s.t)
    (m, { s with
      buf := fun x => if s.t ≤ x ∧ x < s.t + m then bytes (s.delivered + (x - s.t)) else s.buf x
      calls := s.calls + 1
      delivered := s.delivered + m })

/-- The loop of `readn`: the result and the state at the end. -/
def readnLoop : (fuel : Nat) → Reading → Option (Int × Reading)
  | fuel, s =>
    if s.t < n then
      match fuel with
      | 0 => none
      | fuel + 1 =>
        let (m, s) := s.read n reads bytes
        if m ≤ 0 then
          if s.t = 0 then some (ssize m, s) else some (ssize s.t, s)
        else readnLoop fuel { s with t := (s.t + m) % 2 ^ 64 }
    else some (ssize s.t, s)

def readn (buf : Nat → UInt8) (fuel : Nat) : Option (Int × Reading) :=
  readnLoop n reads bytes fuel ⟨0, buf, 0, 0⟩

/-! ## What is reported -/

/-- The first `t` bytes of the buffer are the first `t` bytes delivered. -/
structure Counted (t : Nat) (s : Reading) : Prop where
  le : t ≤ n
  delivered : t ≤ s.delivered
  bytes : ∀ x < t, s.buf x = bytes x
  short : t < n → ∃ i < s.calls, reads i = none ∨ reads i = some 0

/-- The result is what was read. -/
structure Reported (buf : Nat → UInt8) (out : Int × Reading) : Prop where
  outside : ∀ x, n ≤ x → out.2.buf x = buf x
  result : (∃ t : Nat, out.1 = t ∧ Counted n reads bytes t out.2) ∨
    (out.1 = -1 ∧ 0 < out.2.calls ∧ reads 0 = none)

/-- Whatever the bytes are, `readn` returns and reports what it read. -/
def Reports : Prop :=
  ∀ bytes buf, ∃ fuel out,
    readn n reads bytes buf fuel = some out ∧ Reported n reads bytes buf out

/-- What the first `i` reads have to give, less the failures among them. -/
def balance : Nat → Int
  | 0 => 0
  | i + 1 => balance i + match reads i with
    | none => -1
    | some c => c

def Going (i : Nat) : Prop := 0 ≤ balance reads i ∧ balance reads i < n ∧ reads i ≠ some 0

instance (i : Nat) : Decidable (Going n reads i) :=
  inferInstanceAs (Decidable (_ ∧ _))

/-- At read `N` first the file ends or the balance is outside `0 .. n - 1`. -/
structure EndsAt (N : Nat) : Prop where
  going : ∀ i < N, Going n reads i
  ended : ¬ Going n reads N

/-- Bytes read behind a failure are all given back by later failures. -/
structure Backed (N : Nat) : Prop extends EndsAt n reads N where
  first : balance reads N < 0 → reads 0 = none
  fits : min (balance reads N) n < 2 ^ 63
  givenBack : ∀ i j, i < j → j < N → reads i = none → reads j ≠ none →
    balance reads N ≤ balance reads j

end

variable {n : Nat} {reads : Nat → Option Nat} {bytes buf : Nat → UInt8} {s : Reading}
  {out : Int × Reading} {i N : Nat}

/-! ## Turns -/

/-- A turn after which the loop goes on. -/
def Reading.next (n : Nat) (reads : Nat → Option Nat) (bytes : Nat → UInt8) (s : Reading) :
    Reading :=
  let (m, s) := s.read n reads bytes
  { s with t := (s.t + m) % 2 ^ 64 }

def Reading.Done (n : Nat) (reads : Nat → Option Nat) (s : Reading) : Prop :=
  n ≤ s.t ∨ reads s.calls = some 0

def Reading.finish (n : Nat) (s : Reading) : Int × Reading :=
  (ssize s.t, if s.t < n then { s with calls := s.calls + 1 } else s)

theorem readnLoop_done (h : n ≤ s.t) (fuel : Nat) :
    readnLoop n reads bytes fuel s = some (s.finish n) := by
  unfold readnLoop Reading.finish
  rw [if_neg (Nat.not_lt_of_le h), if_neg (Nat.not_lt_of_le h)]

theorem readnLoop_zero (h : s.t < n) : readnLoop n reads bytes 0 s = none := by
  unfold readnLoop
  rw [if_pos h]

theorem readnLoop_eof (ht : s.t < n) (h : reads s.calls = some 0) (fuel : Nat) :
    readnLoop n reads bytes (fuel + 1) s = some (s.finish n) := by
  have hread : s.read n reads bytes = (0, { s with calls := s.calls + 1 }) := by
    simp only [Reading.read, h, Nat.zero_min, Nat.add_zero]
    congr 2
    funext x
    exact if_neg (by omega)
  unfold readnLoop Reading.finish
  rw [if_pos ht, if_pos ht]
  simp only [hread, Nat.le_refl, if_true]
  split
  · next h0 => rw [h0]
  · rfl

theorem readnLoop_finish (h : s.Done n reads) (fuel : Nat) :
    readnLoop n reads bytes (fuel + 1) s = some (s.finish n) := by
  by_cases ht : n ≤ s.t
  · exact readnLoop_done ht (fuel + 1)
  · exact readnLoop_eof (Nat.lt_of_not_le ht) (h.resolve_left ht) fuel

/-- Every other result makes the loop go on, a failure too. -/
theorem readnLoop_next (h : ¬ s.Done n reads) (fuel : Nat) :
    readnLoop n reads bytes (fuel + 1) s =
      readnLoop n reads bytes fuel (s.next n reads bytes) := by
  have ht : s.t < n := Nat.lt_of_not_le fun hn => h (.inl hn)
  have h0 : reads s.calls ≠ some 0 := fun h' => h (.inr h')
  have hm : ¬ (s.read n reads bytes).1 ≤ 0 := by
    cases hr : reads s.calls with
    | none => simp [Reading.read, hr]
    | some c =>
      have : c ≠ 0 := fun hc => h0 (by rw [hr, hc])
      simp only [Reading.read, hr]
      omega
  conv => lhs; unfold readnLoop
  rw [if_pos ht]
  dsimp only
  rw [if_neg hm]
  rfl

def after (n : Nat) (reads : Nat → Option Nat) (bytes : Nat → UInt8) (s : Reading) :
    Nat → Reading
  | 0 => s
  | i + 1 => (after n reads bytes s i).next n reads bytes

theorem after_next (i : Nat) : after n reads bytes (s.next n reads bytes) i =
    after n reads bytes s (i + 1) := by
  induction i with
  | zero => rfl
  | succ i ih => rw [after, ih]; rfl

theorem readnLoop_returns : (∃ fuel, readnLoop n reads bytes fuel s = some out) ↔
    ∃ N, (∀ i < N, ¬ (after n reads bytes s i).Done n reads) ∧
      (after n reads bytes s N).Done n reads ∧ out = (after n reads bytes s N).finish n := by
  constructor
  · rintro ⟨fuel, h⟩
    induction fuel generalizing s with
    | zero =>
      have ht : n ≤ s.t := by
        refine Nat.le_of_not_lt fun ht => ?_
        rw [readnLoop_zero ht] at h
        cases h
      rw [readnLoop_done ht] at h
      exact ⟨0, by simp, .inl ht, (Option.some.inj h).symm⟩
    | succ fuel ih =>
      by_cases hl : s.Done n reads
      · rw [readnLoop_finish hl] at h
        exact ⟨0, by simp, hl, (Option.some.inj h).symm⟩
      · rw [readnLoop_next hl] at h
        obtain ⟨N, hgo, hdone, hout⟩ := ih h
        simp only [after_next] at hgo hdone hout
        refine ⟨N + 1, fun i hi => ?_, hdone, hout⟩
        cases i with
        | zero => exact hl
        | succ i => exact hgo i (by omega)
  · rintro ⟨N, hgo, hdone, rfl⟩
    refine ⟨N + 1, ?_⟩
    induction N generalizing s with
    | zero => exact readnLoop_finish hdone 0
    | succ N ih =>
      have h0 : ¬ s.Done n reads := hgo 0 (by omega)
      rw [readnLoop_next h0, ← after_next]
      refine ih (fun i hi => ?_) ?_
      · rw [after_next]
        exact hgo (i + 1) (by omega)
      · rw [after_next]
        exact hdone

/-! ## The states in front of the turns -/

def failures (reads : Nat → Option Nat) : Nat → Nat
  | 0 => 0
  | i + 1 => failures reads i + if reads i = none then 1 else 0

theorem failures_mono {j : Nat} (h : i ≤ j) : failures reads i ≤ failures reads j := by
  induction h with
  | refl => exact Nat.le_refl _
  | step _ ih =>
    rw [failures]
    omega

theorem failures_pos {j : Nat} (h : reads i = none) (hij : i < j) : 0 < failures reads j := by
  have : failures reads (i + 1) ≤ failures reads j := failures_mono hij
  rw [failures, if_pos h] at this
  omega

theorem exists_of_failures (h : 0 < failures reads i) : ∃ k < i, reads k = none := by
  induction i with
  | zero => cases h
  | succ i ih =>
    by_cases hr : reads i = none
    · exact ⟨i, by omega, hr⟩
    · rw [failures, if_neg hr] at h
      obtain ⟨k, hk, hrk⟩ := ih h
      exact ⟨k, by omega, hrk⟩

theorem balance_none (h : reads i = none) : balance reads (i + 1) = balance reads i - 1 := by
  rw [balance, h]
  rfl

theorem balance_some {c : Nat} (h : reads i = some c) :
    balance reads (i + 1) = balance reads i + c := by
  rw [balance, h]

theorem next_none (h : reads s.calls = none) : s.next n reads bytes =
    { s with t := (s.t + (2 ^ 64 - 1)) % 2 ^ 64, calls := s.calls + 1 } := by
  simp only [Reading.next, Reading.read, h]

theorem next_some {c : Nat} (h : reads s.calls = some c) : s.next n reads bytes =
    { t := (s.t + min c (n - s.t)) % 2 ^ 64
      buf := fun x => if s.t ≤ x ∧ x < s.t + min c (n - s.t) then bytes (s.delivered + (x - s.t))
        else s.buf x
      calls := s.calls + 1
      delivered := s.delivered + min c (n - s.t) } := by
  simp only [Reading.next, Reading.read, h]

/-- The state `s` in front of turn `i`: `t` is the balance, up to `n`. -/
structure At (n : Nat) (reads : Nat → Option Nat) (buf : Nat → UInt8) (i : Nat) (s : Reading) :
    Prop where
  calls : s.calls = i
  nonneg : 0 ≤ balance reads i
  t : (s.t : Int) = min (balance reads i) n
  delivered : s.delivered = s.t + failures reads i
  outside : ∀ x, n ≤ x → s.buf x = buf x

theorem At.next (h : At n reads buf i s) (hn : n < 2 ^ 64) (hlt : balance reads i < n)
    (hpos : 0 ≤ balance reads (i + 1)) : At n reads buf (i + 1) (s.next n reads bytes) := by
  have ht := h.t
  cases hr : reads i with
  | none =>
    rw [balance_none hr] at hpos
    rw [next_none (h.calls.symm ▸ hr)]
    refine ⟨by rw [h.calls], by rw [balance_none hr]; omega, ?_, ?_, h.outside⟩
    · rw [balance_none hr]
      dsimp only
      omega
    · rw [failures, if_pos hr, h.delivered]
      dsimp only
      omega
  | some c =>
    rw [next_some (h.calls.symm ▸ hr)]
    refine ⟨by rw [h.calls], hpos, ?_, ?_, fun x hx => ?_⟩
    · rw [balance_some hr]
      dsimp only
      omega
    · rw [failures, hr, if_neg (by simp), h.delivered]
      dsimp only
      omega
    · exact (if_neg (by omega)).trans (h.outside x hx)

theorem At.next_neg (h : At n reads buf i s) (hlt : balance reads i < n)
    (hneg : balance reads (i + 1) < 0) : reads i = none ∧
      s.next n reads bytes = { s with t := 2 ^ 64 - 1, calls := i + 1 } := by
  have ht := h.t
  have hnn := h.nonneg
  cases hr : reads i with
  | none =>
    rw [balance_none hr] at hneg
    have h0 : s.t = 0 := by omega
    refine ⟨rfl, ?_⟩
    rw [next_none (h.calls.symm ▸ hr), h0, h.calls]
    rfl
  | some c =>
    rw [balance_some hr] at hneg
    omega

theorem after_at (bytes buf : Nat → UInt8) (hn : n < 2 ^ 64) (h : ∀ k < i, Going n reads k)
    (hpos : 0 ≤ balance reads i) : At n reads buf i (after n reads bytes ⟨0, buf, 0, 0⟩ i) := by
  induction i with
  | zero => exact ⟨rfl, by simp [balance], by simp [after, balance], rfl, fun _ _ => rfl⟩
  | succ i ih =>
    obtain ⟨h0, hlt, -⟩ := h i (by omega)
    exact (ih (fun k hk => h k (by omega)) h0).next hn hlt hpos

theorem done_iff (hn : n < 2 ^ 64) (h : ∀ k < i, Going n reads k) :
    ¬ (after n reads bytes ⟨0, buf, 0, 0⟩ i).Done n reads ↔ Going n reads i := by
  by_cases hpos : 0 ≤ balance reads i
  · have hat := after_at bytes buf hn h hpos
    have ht := hat.t
    unfold Reading.Done Going
    rw [hat.calls]
    simp only [not_or, ne_eq]
    constructor
    · rintro ⟨hlt, heof⟩
      exact ⟨hpos, by omega, heof⟩
    · rintro ⟨-, hlt, heof⟩
      exact ⟨by omega, heof⟩
  · refine iff_of_false (fun hl => hl (.inl ?_)) fun hgo => hpos hgo.1
    cases i with
    | zero => simp [balance] at hpos
    | succ i =>
      obtain ⟨h0, hlt, -⟩ := h i (by omega)
      have hat := after_at bytes buf hn (fun k hk => h k (by omega)) h0
      rw [after, (hat.next_neg hlt (by omega)).2]
      show n ≤ 2 ^ 64 - 1
      omega

theorem going_iff (hn : n < 2 ^ 64) :
    (∀ k < i, ¬ (after n reads bytes ⟨0, buf, 0, 0⟩ k).Done n reads) ↔
      ∀ k < i, Going n reads k := by
  induction i with
  | zero => simp
  | succ i ih =>
    simp only [Nat.forall_lt_succ_right, ih]
    exact and_congr_right fun h => done_iff hn h

/-- What `readn` returns if the results end at read `N`. -/
def result (n : Nat) (reads : Nat → Option Nat) (bytes buf : Nat → UInt8) (N : Nat) :
    Int × Reading :=
  (after n reads bytes ⟨0, buf, 0, 0⟩ N).finish n

theorem readn_returns (bytes buf : Nat → UInt8) (hn : n < 2 ^ 64) :
    (∃ fuel, readn n reads bytes buf fuel = some out) ↔
      ∃ N, EndsAt n reads N ∧ out = result n reads bytes buf N := by
  unfold readn
  rw [readnLoop_returns]
  constructor
  · rintro ⟨N, hgo, hdone, hout⟩
    rw [going_iff hn] at hgo
    exact ⟨N, ⟨hgo, fun h => (done_iff hn hgo).2 h hdone⟩, hout⟩
  · rintro ⟨N, ⟨hgo, hover⟩, hout⟩
    refine ⟨N, (going_iff hn).2 hgo, ?_, hout⟩
    by_contra hdone
    exact hover ((done_iff hn hgo).1 hdone)

theorem EndsAt.unique {N' : Nat} (h : EndsAt n reads N) (h' : EndsAt n reads N') : N = N' := by
  rcases Nat.lt_trichotomy N N' with hlt | heq | hlt
  · exact absurd (h'.going N hlt) h.ended
  · exact heq
  · exact absurd (h.going N' hlt) h'.ended

theorem reports_iff_ends (hn : n < 2 ^ 64) : Reports n reads ↔ ∃ N, EndsAt n reads N ∧
    ∀ bytes buf, Reported n reads bytes buf (result n reads bytes buf N) := by
  constructor
  · intro h
    obtain ⟨fuel, out, hret, -⟩ := h (fun _ => 0) (fun _ => 0)
    obtain ⟨N, hN, -⟩ := (readn_returns _ _ hn).1 ⟨fuel, hret⟩
    refine ⟨N, hN, fun bytes buf => ?_⟩
    obtain ⟨fuel, out, hret, hrep⟩ := h bytes buf
    obtain ⟨N', hN', hout⟩ := (readn_returns _ _ hn).1 ⟨fuel, hret⟩
    rw [hN.unique hN', ← hout]
    exact hrep
  · rintro ⟨N, hN, h⟩ bytes buf
    obtain ⟨fuel, hret⟩ := (readn_returns bytes buf hn).2 ⟨N, hN, rfl⟩
    exact ⟨fuel, result n reads bytes buf N, hret, h bytes buf⟩

/-! ## What stands in the buffer -/

theorem At.next_buf_none (h : At n reads buf i s) (hr : reads i = none) :
    (s.next n reads bytes).buf = s.buf := by
  rw [next_none (h.calls.symm ▸ hr)]

/-- Each failure so far moves the bytes of a read down by one. -/
theorem At.next_buf_some (h : At n reads buf i s) {c : Nat} (hr : reads i = some c) (x : Nat) :
    (s.next n reads bytes).buf x =
      if s.t ≤ x ∧ x < s.t + min c (n - s.t) then bytes (x + failures reads i) else s.buf x := by
  rw [next_some (h.calls.symm ▸ hr)]
  dsimp only
  split
  · next hx =>
    rw [h.delivered]
    congr 1
    omega
  · rfl

theorem buf_of_givenBack (hn : n < 2 ^ 64)
    (hback : ∀ i j, i < j → j < N → reads i = none → reads j ≠ none →
      balance reads N ≤ balance reads j)
    (hgo : ∀ k < N, Going n reads k) (hi : i ≤ N) (hpos : 0 ≤ balance reads i) {x : Nat}
    (hx : x < n) (hxi : x < balance reads i) (hxN : x < balance reads N) :
    (after n reads bytes ⟨0, buf, 0, 0⟩ i).buf x = bytes x := by
  induction i with
  | zero =>
    rw [balance] at hxi
    omega
  | succ i ih =>
    obtain ⟨h0, hlt, -⟩ := hgo i (by omega)
    have hat := after_at bytes buf hn (fun k hk => hgo k (by omega)) h0
    have ih := ih (by omega) h0
    rw [after]
    cases hr : reads i with
    | none =>
      rw [balance_none hr] at hxi
      rw [hat.next_buf_none hr]
      exact ih (by omega)
    | some c =>
      have ht := hat.t
      rw [balance_some hr] at hxi
      rw [hat.next_buf_some hr]
      split
      · next hstored =>
        have hnone : failures reads i = 0 := by
          by_contra hf
          obtain ⟨k, hk, hrk⟩ := exists_of_failures (Nat.pos_of_ne_zero hf)
          have := hback k i hk hi hrk (by simp [hr])
          omega
        rw [hnone]
        rfl
      · next hstored =>
        exact ih (by omega)

/-- A byte read behind a failure, or one read later, stands below its place. -/
theorem buf_behind_failure (bytes buf : Nat → UInt8) (hn : n < 2 ^ 64)
    (hgo : ∀ k < N, Going n reads k) {j k p : Nat} (hij : i < j) (hri : reads i = none)
    (hrj : reads j ≠ none) (hp : (p : Int) = balance reads j) (hjk : j < k) (hk : k ≤ N)
    (hpos : 0 ≤ balance reads k) :
    ∃ e, 0 < e ∧ (after n reads bytes ⟨0, buf, 0, 0⟩ k).buf p = bytes (p + e) := by
  induction k with
  | zero => omega
  | succ k ih =>
    obtain ⟨h0, hlt, heof⟩ := hgo k (by omega)
    have hat := after_at bytes buf hn (fun k' hk' => hgo k' (by omega)) h0
    have hf : 0 < failures reads k := failures_pos hri (by omega)
    rw [after]
    cases hr : reads k with
    | none =>
      have hjk' : j ≠ k := fun h => hrj (h ▸ hr)
      rw [hat.next_buf_none hr]
      exact ih (by omega) (by omega) h0
    | some c =>
      rw [hat.next_buf_some hr]
      split
      · exact ⟨failures reads k, hf, rfl⟩
      · next hstored =>
        by_cases hjk' : j = k
        · subst hjk'
          have ht := hat.t
          have hc : c ≠ 0 := fun hc => heof (by rw [hr, hc])
          omega
        · exact ih (by omega) (by omega) h0

/-! ## When `readn` reports what it read -/

theorem ssize_of_lt {t : Nat} (h : t < 2 ^ 63) : ssize t = t := by
  unfold ssize
  rw [Int.bmod_def]
  omega

theorem ssize_neg {t : Nat} (h : 2 ^ 63 ≤ t) (h' : t < 2 ^ 64) : ssize t < 0 := by
  unfold ssize
  rw [Int.bmod_def]
  omega

@[simp]
theorem finish_buf : (s.finish n).2.buf = s.buf := by
  unfold Reading.finish
  dsimp only
  split <;> rfl

@[simp]
theorem finish_delivered : (s.finish n).2.delivered = s.delivered := by
  unfold Reading.finish
  dsimp only
  split <;> rfl

theorem finish_calls (h : s.t < n) : (s.finish n).2.calls = s.calls + 1 := by
  unfold Reading.finish
  rw [if_pos h]

theorem finish_calls_of_le (h : n ≤ s.t) : (s.finish n).2.calls = s.calls := by
  unfold Reading.finish
  rw [if_neg (Nat.not_lt_of_le h)]

theorem EndsAt.first_failed (h : EndsAt n reads N) (h0 : reads 0 = none) (hn : 0 < n) :
    N = 1 ∧ balance reads N = -1 := by
  have h1 : balance reads 1 = -1 := balance_none h0
  have hgo : Going n reads 0 := by
    refine ⟨Int.le_refl _, ?_, by simp [h0]⟩
    rw [balance]
    omega
  have hN : N = 1 := by
    rcases Nat.lt_trichotomy N 1 with hlt | heq | hlt
    · obtain rfl : N = 0 := by omega
      exact absurd hgo h.ended
    · exact heq
    · have := (h.going 1 hlt).1
      omega
  exact ⟨hN, hN ▸ h1⟩

/-- Where the balance is not negative at the end, the bytes that stay decide. -/
theorem EndsAt.reported_iff (h : EndsAt n reads N) (hn : n < 2 ^ 64) (hat : At n reads buf N s) :
    Reported n reads bytes buf (s.finish n) ↔ min (balance reads N) n < 2 ^ 63 ∧
      ∀ x < n, (x : Int) < balance reads N → s.buf x = bytes x := by
  have ht := hat.t
  have hpos := hat.nonneg
  have hd := hat.delivered
  constructor
  · rintro ⟨-, ⟨t, hret, hc⟩ | ⟨-, hcalls, h0⟩⟩
    · have hlt : s.t < 2 ^ 63 := by
        by_contra hge
        have := ssize_neg (Nat.le_of_not_lt hge) (by omega)
        rw [Reading.finish] at hret
        omega
      have hts : t = s.t := by
        rw [Reading.finish, ssize_of_lt hlt] at hret
        omega
      refine ⟨by omega, fun x hx hxN => ?_⟩
      have := hc.bytes x (by omega)
      rwa [finish_buf] at this
    · by_cases hn0 : n = 0
      · rw [finish_calls_of_le (by omega), hat.calls] at hcalls
        have hb := (h.going 0 hcalls).2.1
        rw [balance] at hb
        omega
      · have := (h.first_failed h0 (by omega)).2
        omega
  · rintro ⟨hlt, hbytes⟩
    refine ⟨fun x hx => by rw [finish_buf]; exact hat.outside x hx, .inl ⟨s.t, ?_, ?_⟩⟩
    · rw [Reading.finish, ssize_of_lt (t := s.t) (by omega)]
    · refine ⟨by omega, by rw [finish_delivered]; omega, fun x hx => ?_, fun hlt => ?_⟩
      · rw [finish_buf]
        exact hbytes x (by omega) (by omega)
      · refine ⟨N, by rw [finish_calls hlt, hat.calls]; exact Nat.lt_succ_self N, .inr ?_⟩
        by_contra hne
        exact h.ended ⟨hpos, by omega, hne⟩

theorem EndsAt.reported_neg_iff (bytes buf : Nat → UInt8) (h : EndsAt n reads N) (hn : n < 2 ^ 64)
    (hneg : balance reads N < 0) :
    Reported n reads bytes buf (result n reads bytes buf N) ↔ reads 0 = none := by
  cases N with
  | zero => exact absurd hneg (by simp [balance])
  | succ i =>
    obtain ⟨h0, hlt, -⟩ := h.going i (by omega)
    have hat := after_at bytes buf hn (fun k hk => h.going k (by omega)) h0
    have hr : result n reads bytes buf (i + 1) =
        (-1, { after n reads bytes ⟨0, buf, 0, 0⟩ i with t := 2 ^ 64 - 1, calls := i + 1 }) := by
      unfold result
      rw [after, (hat.next_neg hlt hneg).2, Reading.finish]
      dsimp only
      rw [if_neg (by omega)]
      rfl
    rw [hr]
    constructor
    · rintro ⟨-, ⟨t, hret, -⟩ | ⟨-, -, h0⟩⟩
      · dsimp only at hret
        omega
      · exact h0
    · intro h0
      exact ⟨hat.outside, .inr ⟨rfl, Nat.succ_pos i, h0⟩⟩

theorem Backed.reports (h : Backed n reads N) (hn : n < 2 ^ 64) : Reports n reads := by
  refine (reports_iff_ends hn).2 ⟨N, h.toEndsAt, fun bytes buf => ?_⟩
  by_cases hneg : balance reads N < 0
  · exact (h.reported_neg_iff bytes buf hn hneg).2 (h.first hneg)
  · have hpos : 0 ≤ balance reads N := by omega
    refine (h.toEndsAt.reported_iff hn (after_at bytes buf hn h.going hpos)).2
      ⟨h.fits, fun x hx hxN => ?_⟩
    exact buf_of_givenBack hn h.givenBack h.going (Nat.le_refl N) hpos hx hxN hxN

theorem le_balance (h : ∀ i, reads i ≠ none) (hgo : ∀ k < i, reads k ≠ some 0) :
    (i : Int) ≤ balance reads i := by
  induction i with
  | zero => exact Int.le_refl 0
  | succ i ih =>
    have ih := ih fun k hk => hgo k (by omega)
    cases hr : reads i with
    | none => exact absurd hr (h i)
    | some c =>
      have : c ≠ 0 := fun hc => hgo i (by omega) (by rw [hr, hc])
      rw [balance_some hr]
      omega

theorem reports_of_no_failure {n : Nat} (hn : n < 2 ^ 63) (h : ∀ i, reads i ≠ none) :
    Reports n reads := by
  have hstop : ∃ N, ¬ Going n reads N := by
    by_contra hall
    simp only [not_exists, not_not] at hall
    have := le_balance (i := n) h fun k _ => (hall k).2.2
    have := (hall n).2.1
    omega
  refine Backed.reports (N := Nat.find hstop) ⟨⟨fun i hi => ?_, Nat.find_spec hstop⟩,
    fun hneg => ?_, ?_, fun i _ _ _ hri => absurd hri (h i)⟩ (by omega)
  · exact not_not.1 (Nat.find_min hstop hi)
  · have := le_balance (i := Nat.find hstop) h fun k hk => (not_not.1 (Nat.find_min hstop hk)).2.2
    omega
  · omega

/-- `readn` reports what it read where the bytes read behind a failure are given back. -/
theorem reports_iff (n : Fin (2 ^ 64)) (reads : Nat → Option Nat) :
    Reports n reads ↔ ∃ N, Backed n reads N := by
  have hn := n.isLt
  refine ⟨fun h => ?_, fun ⟨N, hb⟩ => hb.reports hn⟩
  obtain ⟨N, hN, h⟩ := (reports_iff_ends hn).1 h
  refine ⟨N, ?_⟩
  by_cases hneg : balance reads N < 0
  · have h0 := (hN.reported_neg_iff (fun _ => 0) (fun _ => 0) hn hneg).1 (h _ _)
    have hN1 : N ≤ 1 := by
      by_contra hlt
      have := (hN.going 1 (by omega)).1
      have h1 : balance reads 1 = -1 := balance_none h0
      omega
    exact ⟨hN, fun _ => h0, by omega, fun i j hij hj => by omega⟩
  · have hpos : 0 ≤ balance reads N := by omega
    have hiff (bytes buf : Nat → UInt8) :=
      (hN.reported_iff hn (after_at bytes buf hn hN.going hpos)).1 (h bytes buf)
    refine ⟨hN, fun h' => absurd h' hneg, (hiff (fun _ => 0) fun _ => 0).1,
      fun i j hij hj hri hrj => ?_⟩
    by_contra hlt
    obtain ⟨hj0, hjn, -⟩ := hN.going j hj
    obtain ⟨p, hp⟩ := Int.eq_ofNat_of_zero_le hj0
    -- a file with one nonzero byte, at the place the read behind the failure is stored to
    obtain ⟨e, he, hbuf⟩ := buf_behind_failure (fun x => if x = p then 1 else 0) (fun _ => 0)
      hn hN.going hij hri hrj hp.symm hj (Nat.le_refl N) hpos
    have hbyte := (hiff (fun x => if x = p then 1 else 0) fun _ => 0).2 p (by omega) (by omega)
    rw [hbuf, if_neg (by omega), if_pos rfl] at hbyte
    cases hbyte

/-- Reads that give a byte, fail, give one more byte and are at the end of the file. -/
def failsBetween : Nat → Option Nat
  | 0 => some 1
  | 1 => none
  | 2 => some 1
  | _ => some 0

theorem failsBetween_not_reported : ¬ Reports 2 failsBetween := by
  intro h
  rw [reports_iff_ends (by decide)] at h
  obtain ⟨N, hN, h⟩ := h
  have hends : EndsAt 2 failsBetween 3 := by
    refine ⟨fun i hi => ?_, fun h => h.2.2 rfl⟩
    match i, hi with
    | 0, _ => exact ⟨by decide, by decide, by decide⟩
    | 1, _ => exact ⟨by decide, by decide, by decide⟩
    | 2, _ => exact ⟨by decide, by decide, by decide⟩
  obtain rfl := hN.unique hends
  have hat := after_at (fun x => if x = 0 then 97 else 98) (fun _ => 0) (by decide)
    hends.going (by decide)
  have hbyte : (98 : UInt8) = 97 :=
    ((hends.reported_iff (by decide) hat).1 (h _ _)).2 0 (by decide) (by decide)
  cases hbyte

end OsLabs.Ospfs.Readn
