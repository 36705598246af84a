import Mathlib.Data.List.Basic
import Mathlib.Data.List.Induction
import Mathlib.Tactic.Common

/-!
# Numbering by key through a table

Things come one after the other, each with a key or with none, and are numbered. A
thing with a key that the table holds gets the number found there; any other thing
gets the next number, and its key goes into the table, as `store` keeps it. Where
`store` loses something of a key, things with different keys may share a number and
things with one key may not: `num_eq_iff` says which share one.
-/

namespace OsLabs

/-- The next number, and the table, the entry made last first. -/
structure Numbering (K : Type*) where
  next : Nat
  table : List (K × Nat)

namespace Numbering

variable {K : Type*} [DecidableEq K]

def find (k : K) : List (K × Nat) → Option Nat
  | [] => none
  | e :: rest => if e.1 = k then some e.2 else find k rest

/-- The number of a thing with this key. -/
def number (store : K → K) (s : Numbering K) : Option K → Nat × Numbering K
  | none => (s.next, { s with next := s.next + 1 })
  | some k =>
    match find k s.table with
    | some n => (n, s)
    | none => (s.next, ⟨s.next + 1, (store k, s.next) :: s.table⟩)

/-- The state when thing `t` comes. -/
def state (store : K → K) (key : Nat → Option K) (start : Nat) : Nat → Numbering K
  | 0 => ⟨start, []⟩
  | t + 1 => ((state store key start t).number store (key t)).2

/-- The number of thing `t`. -/
def num (store : K → K) (key : Nat → Option K) (start t : Nat) : Nat :=
  ((state store key start t).number store (key t)).1

/-- The numbers of a list of things. -/
def nums (store : K → K) (s : Numbering K) : List (Option K) → List Nat
  | [] => []
  | k :: keys => (s.number store k).1 :: nums store (s.number store k).2 keys

def after (store : K → K) (s : Numbering K) : List (Option K) → Numbering K
  | [] => s
  | k :: keys => after store (s.number store k).2 keys

variable {store : K → K} {key : Nat → Option K} {start i j n t : Nat} {k r : K}

theorem after_append (s : Numbering K) (ks keys : List (Option K)) :
    s.after store (ks ++ keys) = (s.after store ks).after store keys := by
  induction ks generalizing s with
  | nil => rfl
  | cons k ks ih => exact ih _

theorem nums_append (s : Numbering K) (ks keys : List (Option K)) :
    s.nums store (ks ++ keys) = s.nums store ks ++ (s.after store ks).nums store keys := by
  induction ks generalizing s with
  | nil => rfl
  | cons k ks ih => exact congrArg (_ :: ·) (ih _)

theorem length_nums (s : Numbering K) (keys : List (Option K)) :
    (s.nums store keys).length = keys.length := by
  induction keys generalizing s with
  | nil => rfl
  | cons k keys ih => exact congrArg (· + 1) (ih _)

/-- The numbers of a list are those of its things in turn. -/
theorem nums_getElem? (start : Nat) {keys : List (Option K)} (ht : t < keys.length) :
    (nums store ⟨start, []⟩ keys)[t]? = some (num store (fun t => keys[t]?.join) start t) := by
  have hstate : ∀ ks rest, keys = ks ++ rest →
      after store ⟨start, []⟩ ks = state store (fun t => keys[t]?.join) start ks.length := by
    intro ks
    induction ks using List.reverseRecOn with
    | nil => exact fun _ _ => rfl
    | append_singleton ks k ih =>
      intro rest hkeys
      have hk : keys[ks.length]?.join = k := by
        rw [hkeys, List.append_assoc, List.getElem?_append_right (Nat.le_refl _), Nat.sub_self]
        rfl
      rw [after_append, ih (k :: rest) (by rw [hkeys, List.append_assoc]; rfl),
        List.length_append]
      show _ = ((state store _ start ks.length).number store keys[ks.length]?.join).2
      rw [hk]
      rfl
  obtain ⟨k, rest, hdrop⟩ : ∃ k rest, keys.drop t = k :: rest :=
    List.exists_cons_of_ne_nil fun hnil => Nat.not_le.2 ht (List.drop_eq_nil_iff.1 hnil)
  have hsplit : keys = keys.take t ++ k :: rest := by rw [← hdrop, List.take_append_drop]
  have hlen : (keys.take t).length = t := List.length_take_of_le (Nat.le_of_lt ht)
  have hk : keys[t]?.join = k := by
    rw [hsplit, List.getElem?_append_right (Nat.le_of_eq hlen), hlen, Nat.sub_self]
    rfl
  have hstart := hstate (keys.take t) (k :: rest) hsplit
  rw [hlen] at hstart
  show _ = some ((state store _ start t).number store keys[t]?.join).1
  rw [hk, ← hstart]
  have hlen' : (nums store ⟨start, []⟩ (keys.take t)).length = t := (length_nums _ _).trans hlen
  conv_lhs => rw [hsplit, nums_append, List.getElem?_append_right (Nat.le_of_eq hlen'), hlen',
    Nat.sub_self]
  rfl

/-- The table holds this key. -/
def Found (store : K → K) (key : Nat → Option K) (start t : Nat) (n : Nat) : Prop :=
  ∃ k, key t = some k ∧ find k (state store key start t).table = some n

/-- Thing `t` gets the next number. -/
structure Fresh (store : K → K) (key : Nat → Option K) (start t : Nat) : Prop where
  num : num store key start t = (state store key start t).next
  next : (state store key start (t + 1)).next = (state store key start t).next + 1
  table : ∀ r, find r (state store key start (t + 1)).table =
    if (key t).map store = some r then some (state store key start t).next
    else find r (state store key start t).table

/-- What one thing does. -/
theorem step_cases (store : K → K) (key : Nat → Option K) (start t : Nat) :
    (Found store key start t (num store key start t) ∧
      state store key start (t + 1) = state store key start t) ∨
    ((∀ n, ¬ Found store key start t n) ∧ Fresh store key start t) := by
  cases hk : key t with
  | none =>
    refine .inr ⟨fun n h => ?_, ?_, ?_, fun r => ?_⟩
    · obtain ⟨k, hk', -⟩ := h
      rw [hk] at hk'
      cases hk'
    · unfold num
      rw [hk]
      rfl
    · rw [state, hk]
      rfl
    · rw [state, hk, Option.map_none, if_neg nofun]
      rfl
  | some k =>
    cases hf : find k (state store key start t).table with
    | some n =>
      have hnumber : (state store key start t).number store (some k) =
          (n, state store key start t) := by
        unfold number
        dsimp only
        rw [hf]
      refine .inl ⟨⟨k, hk, ?_⟩, ?_⟩
      · rw [hf, num, hk, hnumber]
      · rw [state, hk, hnumber]
    | none =>
      have hnumber : (state store key start t).number store (some k) =
          ((state store key start t).next, ⟨(state store key start t).next + 1,
            (store k, (state store key start t).next) :: (state store key start t).table⟩) := by
        unfold number
        dsimp only
        rw [hf]
      refine .inr ⟨fun n h => ?_, ?_, ?_, fun r => ?_⟩
      · obtain ⟨k', hk', hf'⟩ := h
        rw [hk] at hk'
        cases hk'
        rw [hf] at hf'
        cases hf'
      · rw [num, hk, hnumber]
      · rw [state, hk, hnumber]
      · rw [state, hk, hnumber, Option.map_some]
        by_cases hr : store k = r
        · rw [if_pos (congrArg some hr)]
          exact if_pos hr
        · rw [if_neg fun h => hr (Option.some.inj h)]
          exact if_neg hr

/-! ## Numbers in use -/

theorem next_le_succ (t : Nat) :
    (state store key start t).next ≤ (state store key start (t + 1)).next := by
  rcases step_cases store key start t with ⟨-, hs⟩ | ⟨-, hf⟩
  · exact Nat.le_of_eq (by rw [hs])
  · rw [hf.next]
    exact Nat.le_succ _

theorem next_mono (h : i ≤ j) :
    (state store key start i).next ≤ (state store key start j).next := by
  induction h with
  | refl => exact Nat.le_refl _
  | step _ ih => exact Nat.le_trans ih (next_le_succ _)

theorem find_lt (h : find r (state store key start t).table = some n) :
    n < (state store key start t).next := by
  induction t with
  | zero => cases h
  | succ t ih =>
    rcases step_cases store key start t with ⟨-, hs⟩ | ⟨-, hf⟩
    · rw [hs] at h ⊢
      exact ih h
    · rw [hf.table] at h
      rw [hf.next]
      split at h
      · cases h
        exact Nat.lt_succ_self _
      · exact Nat.lt_succ_of_lt (ih h)

theorem num_lt (t : Nat) : num store key start t < (state store key start (t + 1)).next := by
  rcases step_cases store key start t with ⟨⟨k, -, hfind⟩, hs⟩ | ⟨-, hf⟩
  · rw [hs]
    exact find_lt hfind
  · rw [hf.num, hf.next]
    exact Nat.lt_succ_self _

/-- A fresh number is larger than all numbers before. -/
theorem num_lt_of_fresh (hj : Fresh store key start j) (h : i < j) :
    num store key start i < num store key start j := by
  rw [hj.num]
  exact Nat.lt_of_lt_of_le (num_lt i) (next_mono h)

/-! ## The table -/

/-- Nothing but `r` itself is stored as `r` between `i` and `j`. -/
def Clear (store : K → K) (key : Nat → Option K) (i j : Nat) (r : K) : Prop :=
  ∀ t, i < t → t < j → ∀ k, key t = some k → store k = r → k = r

/-- An entry stays the one that is found. -/
theorem find_kept (h : find r (state store key start (i + 1)).table = some n) (hij : i < j)
    (hclear : Clear store key i j r) : find r (state store key start j).table = some n := by
  induction j with
  | zero => exact absurd hij (Nat.not_lt_zero i)
  | succ j ih =>
    rcases Nat.lt_or_eq_of_le (Nat.lt_succ_iff.1 hij) with hlt | rfl
    · have hbefore := ih hlt fun t ht ht' => hclear t ht (Nat.lt_succ_of_lt ht')
      rcases step_cases store key start j with ⟨-, hs⟩ | ⟨hnot, hf⟩
      · rw [hs]
        exact hbefore
      · rw [hf.table, if_neg]
        · exact hbefore
        · intro hstored
          obtain ⟨k, hk, hkr⟩ := Option.map_eq_some_iff.1 hstored
          obtain rfl := hclear j hlt (Nat.lt_succ_self j) k hk hkr
          exact hnot n ⟨k, hk, hbefore⟩
    · exact h

/-- Where an entry comes from. -/
theorem find_origin (h : find r (state store key start j).table = some n) :
    ∃ i k, i < j ∧ key i = some k ∧ store k = r ∧ Fresh store key start i ∧
      num store key start i = n ∧ ∀ t, i < t → t < j → ∀ k', key t = some k' → store k' = r →
        ∃ n', Found store key start t n' := by
  induction j with
  | zero => cases h
  | succ j ih =>
    rcases step_cases store key start j with ⟨hfound, hs⟩ | ⟨-, hf⟩
    · rw [hs] at h
      obtain ⟨i, k, hlt, hk, hr, hfi, hn, hlater⟩ := ih h
      refine ⟨i, k, Nat.lt_succ_of_lt hlt, hk, hr, hfi, hn, fun t ht ht' k' hk' hr' => ?_⟩
      rcases Nat.lt_or_eq_of_le (Nat.lt_succ_iff.1 ht') with hlt' | rfl
      · exact hlater t ht hlt' k' hk' hr'
      · exact ⟨_, hfound⟩
    · rw [hf.table] at h
      split at h
      · rename_i hstored
        obtain ⟨k, hk, hkr⟩ := Option.map_eq_some_iff.1 hstored
        refine ⟨j, k, Nat.lt_succ_self j, hk, hkr, hf, hf.num.trans (Option.some.inj h), ?_⟩
        intro t ht ht'
        exact absurd ht' (Nat.not_lt.2 ht)
      · rename_i hstored
        obtain ⟨i, k, hlt, hk, hr, hfi, hn, hlater⟩ := ih h
        refine ⟨i, k, Nat.lt_succ_of_lt hlt, hk, hr, hfi, hn, fun t ht ht' k' hk' hr' => ?_⟩
        rcases Nat.lt_or_eq_of_le (Nat.lt_succ_iff.1 ht') with hlt' | rfl
        · exact hlater t ht hlt' k' hk' hr'
        · exact absurd (Option.map_eq_some_iff.2 ⟨k', hk', hr'⟩) hstored

/-! ## Shared numbers -/

section Idempotent

variable (hs : ∀ k, store (store k) = store k)

include hs

/-- Only keys that `store` keeps are found. -/
theorem stored_of_found (hk : key t = some k) (h : Found store key start t n) : store k = k := by
  obtain ⟨k', hk', hfind⟩ := h
  rw [hk] at hk'
  cases hk'
  obtain ⟨i, k', -, -, rfl, -⟩ := find_origin hfind
  exact hs k'

/-- After thing `i` its key, as stored, has its number. -/
theorem find_after (start : Nat) (hk : key i = some k) :
    find (store k) (state store key start (i + 1)).table = some (num store key start i) := by
  rcases step_cases store key start i with ⟨hfound, hstate⟩ | ⟨-, hf⟩
  · rw [stored_of_found hs hk hfound, hstate]
    obtain ⟨k', hk', hfind⟩ := hfound
    rw [hk] at hk'
    cases hk'
    exact hfind
  · rw [hf.table, hf.num]
    exact if_pos (by rw [hk, Option.map_some])

/-- **Two things share a number** iff the later one's key is what `store` keeps of the earlier
one's, and no other key is stored as that in between. -/
theorem num_eq_iff (hij : i < j) : num store key start i = num store key start j ↔
    ∃ k, key i = some k ∧ key j = some (store k) ∧ Clear store key i j (store k) := by
  constructor
  · intro h
    have hj : Found store key start j (num store key start j) := by
      rcases step_cases store key start j with ⟨hfound, -⟩ | ⟨-, hf⟩
      · exact hfound
      · exact absurd h (Nat.ne_of_lt (num_lt_of_fresh hf hij))
    obtain ⟨r, hr, hfind⟩ := hj
    rw [← h] at hfind
    obtain ⟨t, k, htj, hk, rfl, hft, hnum, hlater⟩ := find_origin hfind
    have hclear (hle : t ≤ i) : Clear store key i j (store k) := by
      intro u hu hu' k' hk' hr'
      obtain ⟨n', hfound⟩ := hlater u (Nat.lt_of_le_of_lt hle hu) hu' k' hk' hr'
      rw [← hr', stored_of_found hs hk' hfound]
    rcases Nat.lt_trichotomy i t with hlt | rfl | hgt
    · exact absurd hnum (Nat.ne_of_gt (num_lt_of_fresh hft hlt))
    · exact ⟨k, hk, hr, hclear (Nat.le_refl i)⟩
    · -- thing `i` has found the entry that thing `t` has made
      rcases step_cases store key start i with ⟨⟨k', hk', hfind'⟩, -⟩ | ⟨-, hf⟩
      · obtain ⟨t', k'', -, hk'', hr'', hft', hnum', -⟩ := find_origin hfind'
        obtain rfl : t = t' := by
          rcases Nat.lt_trichotomy t t' with hlt | heq | hgt'
          · exact absurd (hnum.trans hnum'.symm) (Nat.ne_of_lt (num_lt_of_fresh hft' hlt))
          · exact heq
          · exact absurd (hnum.trans hnum'.symm) (Nat.ne_of_gt (num_lt_of_fresh hft hgt'))
        rw [hk] at hk''
        cases hk''
        subst hr''
        exact ⟨store k, hk', by rw [hs]; exact hr, by rw [hs]; exact hclear (Nat.le_of_lt hgt)⟩
      · exact absurd hnum (Nat.ne_of_lt (num_lt_of_fresh hf hgt))
  · rintro ⟨k, hki, hkj, hclear⟩
    have hfind := find_kept (find_after hs start hki) hij hclear
    rcases step_cases store key start j with ⟨⟨k', hk', hfind'⟩, -⟩ | ⟨hnot, -⟩
    · rw [hkj] at hk'
      cases hk'
      exact Option.some.inj (hfind.symm.trans hfind')
    · exact absurd ⟨store k, hkj, hfind⟩ (hnot _)

end Idempotent

end Numbering

end OsLabs
