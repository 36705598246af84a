import OsLabs.Lib.Runs
import Mathlib.Data.Set.Card

/-!
# Tables of named entries

A table holds a name with a value at some of its positions. `find` is the finite map that a
table in which no name stands twice (`Single`) represents: filling an empty position binds one
name, clearing a position unbinds one. `RunIf.simulates` carries a simulation of single steps
to runs.
-/

namespace OsLabs

universe u v w

def NameTable (π : Type u) (ν : Type v) (ι : Type w) := π → Option (ν × ι)

namespace NameTable

variable {π : Type u} {ν : Type v} {ι : Type w} {t t' : NameTable π ν ι} {p : π} {n : ν} {i : ι}

/-- No name stands at two positions. -/
def Single (t : NameTable π ν ι) : Prop :=
  ∀ p q n i j, t p = some (n, i) → t q = some (n, j) → p = q

open Classical in
/-- The value of a name. -/
noncomputable def find (t : NameTable π ν ι) (n : ν) : Option ι :=
  if h : ∃ i p, t p = some (n, i) then some h.choose else none

theorem Single.value (h : t.Single) {q : π} {j : ι} (hp : t p = some (n, i))
    (hq : t q = some (n, j)) : i = j := by
  obtain rfl := h p q n i j hp hq
  rw [hp] at hq
  exact congrArg Prod.snd (Option.some.inj hq)

theorem find_eq_none : t.find n = none ↔ ∀ p i, t p ≠ some (n, i) := by
  unfold find
  split
  · rename_i h
    obtain ⟨i, p, hp⟩ := h
    exact ⟨nofun, fun hno => absurd hp (hno p i)⟩
  · rename_i h
    exact ⟨fun _ p i hp => h ⟨i, p, hp⟩, fun _ => rfl⟩

theorem Single.find_eq_some (h : t.Single) : t.find n = some i ↔ ∃ p, t p = some (n, i) := by
  unfold find
  constructor
  · intro hf
    split at hf
    · rename_i hex
      cases hf
      exact hex.choose_spec
    · cases hf
  · rintro ⟨p, hp⟩
    have hex : ∃ i p, t p = some (n, i) := ⟨i, p, hp⟩
    obtain ⟨q, hq⟩ := hex.choose_spec
    rw [dif_pos hex, h.value hq hp]

/-- A table is determined by which names have which values. -/
theorem Single.find_eq (h : t.Single) {f : ν → Option ι}
    (hf : ∀ n i, f n = some i ↔ ∃ p, t p = some (n, i)) : t.find = f := by
  funext n
  refine Option.ext fun i => ?_
  rw [h.find_eq_some, hf]

/-! ## Changing one position -/

/-- The tables differ at `p` at most. -/
def SameBut (p : π) (t t' : NameTable π ν ι) : Prop := ∀ q, q ≠ p → t' q = t q

/-- A name that is not at `p` keeps its values. -/
theorem SameBut.exists_iff (hs : SameBut p t t') (hp : ∀ j, t p ≠ some (n, j))
    (hp' : ∀ j, t' p ≠ some (n, j)) : (∃ q, t' q = some (n, i)) ↔ ∃ q, t q = some (n, i) := by
  refine exists_congr fun q => ?_
  by_cases hqp : q = p
  · rw [hqp]
    exact iff_of_false (hp' i) (hp i)
  · rw [hs q hqp]

/-- A new name at an empty position. -/
theorem Single.fill [DecidableEq ν] (h : t.Single) (hp : t p = none) (hn : t.find n = none)
    (hp' : t' p = some (n, i)) (hs : SameBut p t t') :
    t'.Single ∧ t'.find = Function.update t.find n (some i) := by
  have hno := find_eq_none.1 hn
  have hold {q : π} {n' : ν} {j : ι} (hq : t' q = some (n', j)) :
      (q = p ∧ n' = n ∧ j = i) ∨ (q ≠ p ∧ n' ≠ n ∧ t q = some (n', j)) := by
    by_cases hqp : q = p
    · rw [hqp, hp'] at hq
      cases hq
      exact .inl ⟨hqp, rfl, rfl⟩
    · rw [hs q hqp] at hq
      refine .inr ⟨hqp, fun he => hno q j (he ▸ hq), hq⟩
  have hsingle : t'.Single := by
    intro q r n' i' j' hq hr
    rcases hold hq with ⟨rfl, rfl, -⟩ | ⟨-, hne, hq'⟩
    · rcases hold hr with ⟨rfl, -⟩ | ⟨-, hne, -⟩
      · rfl
      · exact absurd rfl hne
    · rcases hold hr with ⟨-, rfl, -⟩ | ⟨-, -, hr'⟩
      · exact absurd rfl hne
      · exact h q r n' i' j' hq' hr'
  refine ⟨hsingle, hsingle.find_eq fun n' j => ?_⟩
  by_cases hnn : n' = n
  · subst hnn
    rw [Function.update_self]
    constructor
    · intro he
      cases he
      exact ⟨p, hp'⟩
    · rintro ⟨q, hq⟩
      rcases hold hq with ⟨-, -, rfl⟩ | ⟨-, hne, -⟩
      · rfl
      · exact absurd rfl hne
  · rw [Function.update_of_ne hnn, h.find_eq_some, hs.exists_iff (n := n')]
    · rw [hp]
      exact fun _ => nofun
    · rw [hp']
      exact fun j he => hnn (congrArg Prod.fst (Option.some.inj he)).symm

/-- A position is cleared. -/
theorem Single.clear [DecidableEq ν] (h : t.Single) (hp : t p = some (n, i)) (hp' : t' p = none)
    (hs : SameBut p t t') : t'.Single ∧ t'.find = Function.update t.find n none := by
  have hold {q : π} {n' : ν} {j : ι} (hq : t' q = some (n', j)) : q ≠ p ∧ t q = some (n', j) := by
    have hqp : q ≠ p := by
      rintro rfl
      rw [hp'] at hq
      cases hq
    exact ⟨hqp, (hs q hqp).symm.trans hq⟩
  have hsingle : t'.Single := fun q r n' i' j' hq hr => h q r n' i' j' (hold hq).2 (hold hr).2
  refine ⟨hsingle, hsingle.find_eq fun n' j => ?_⟩
  by_cases hnn : n' = n
  · subst hnn
    rw [Function.update_self]
    refine ⟨nofun, fun ⟨q, hq⟩ => absurd ?_ (hold hq).1⟩
    exact h q p n' j i (hold hq).2 hp
  · rw [Function.update_of_ne hnn, h.find_eq_some, hs.exists_iff (n := n')]
    · rw [hp]
      exact fun j he => hnn (congrArg Prod.fst (Option.some.inj he)).symm
    · rw [hp']
      exact fun _ => nofun

/-! ## Counting -/

/-- The names of a value. -/
def names (f : ν → Option ι) (i : ι) : Set ν := {n | f n = some i}

/-- There are as many names of a value as positions that hold it. -/
theorem Single.ncard_names (h : t.Single) (i : ι) :
    (names t.find i).ncard = {p | (t p).map Prod.snd = some i}.ncard := by
  have hmem {p : π} (hp : (t p).map Prod.snd = some i) : ∃ n, t p = some (n, i) := by
    obtain ⟨⟨n, j⟩, hv, rfl⟩ := Option.map_eq_some_iff.1 hp
    exact ⟨n, hv⟩
  refine (Set.ncard_congr (fun p hp => (hmem hp).choose) (fun p hp => ?_) (fun p q hp hq he => ?_)
    fun n hn => ?_).symm
  · exact h.find_eq_some.2 ⟨p, (hmem hp).choose_spec⟩
  · have h1 := (hmem hp).choose_spec
    have h2 := (hmem hq).choose_spec
    rw [he] at h1
    exact h p q _ i i h1 h2
  · obtain ⟨p, hp⟩ := h.find_eq_some.1 hn
    have hpi : (t p).map Prod.snd = some i := by rw [hp]; rfl
    refine ⟨p, hpi, ?_⟩
    exact (congrArg Prod.fst (Option.some.inj (hp.symm.trans (hmem hpi).choose_spec))).symm

end NameTable

/-! ## Simulation -/

namespace System

variable {σ : Type u} {τ : Type v} {α : Type w} {M : System σ α} {N : System τ α}
  {G : σ → α → Prop} {R : σ → τ → Prop}

/-- **Simulation**: where every guarded step from related states is answered by a step with the
same label to related states, every guarded run is. -/
theorem RunIf.simulates (h0 : ∀ s, M.Init s → ∃ t, N.Init t ∧ R s t)
    (h1 : ∀ s t a s', R s t → G s a → M.Step s a s' → ∃ t', N.Step t a t' ∧ R s' t')
    {h : List α} {s : σ} (hr : M.RunIf G h s) : ∃ t, N.Run h t ∧ R s t := by
  induction hr with
  | init hi =>
    obtain ⟨t, ht, hrel⟩ := h0 _ hi
    exact ⟨t, .init ht, hrel⟩
  | step _ hg hs ih =>
    obtain ⟨t, ht, hrel⟩ := ih
    obtain ⟨t', hstep, hrel'⟩ := h1 _ _ _ _ hrel hg hs
    exact ⟨t', .step ht trivial hstep, hrel'⟩

end System

end OsLabs
