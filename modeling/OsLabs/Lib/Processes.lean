import OsLabs.Lib.Diamond
import Mathlib.Order.Basic

/-!
# Programs that share a store

A program is in a local state that says which operation on the store it performs
next, or that it has exited. `World` holds the local state of every process and
the store. `Serially l` runs the processes of `l` one after another, each until it
exits. `permitted before` lets a process act only when those in `before` of it have
exited; when processes that are not so ordered are confined apart, all complete runs end as
the serial one does (`serially_perform`, `perform_serially`).
-/

namespace OsLabs

universe u v w

/-- What a program does next; `none`: it has exited. -/
abbrev Program (ν : Type u) (β : Type v) (ρ : Type w) := ρ → Option (StoreOp ν β ρ)

/-- All a program ever does keeps within `R` and `W`. -/
def Program.Confined {ν : Type u} {β : Type v} {ρ : Type w} (R W : ν → Prop)
    (p : Program ν β ρ) : Prop :=
  ∀ l op, p l = some op → OsLabs.Confined R W op

@[ext]
structure World (ι : Type u) (ν : Type u) (β : Type v) (ρ : Type w) where
  loc : ι → ρ
  store : ν → β

namespace World

variable {ι ν : Type u} {β : Type v} {ρ : Type w} [DecidableEq ι]
  {prog : ι → Program ν β ρ} {before : ι → List ι}

def Exited (prog : ι → Program ν β ρ) (i : ι) (s : World ι ν β ρ) : Prop := prog i (s.loc i) = none

instance (i : ι) (s : World ι ν β ρ) : Decidable (Exited prog i s) :=
  decidable_of_iff ((prog i (s.loc i)).isNone = true) Option.isNone_iff_eq_none

/-- The next operation of process `i`. -/
def act (prog : ι → Program ν β ρ) (i : ι) (s : World ι ν β ρ) : Option (World ι ν β ρ) :=
  (prog i (s.loc i)).map fun op => ⟨Function.update s.loc i (op s.store).1, (op s.store).2⟩

/-- A process acts only when what comes before it has exited. -/
def permitted (prog : ι → Program ν β ρ) (before : ι → List ι) (i : ι) (s : World ι ν β ρ) :
    Option (World ι ν β ρ) :=
  if ∀ m ∈ before i, Exited prog m s then act prog i s else none

/-- Run the processes one after another, each until it exits. -/
inductive Serially (prog : ι → Program ν β ρ) : List ι → World ι ν β ρ → World ι ν β ρ → Prop where
  | nil (s : World ι ν β ρ) : Serially prog [] s s
  | act {i : ι} {l : List ι} {s r t : World ι ν β ρ} : act prog i s = some r →
      Serially prog (i :: l) r t → Serially prog (i :: l) s t
  | exit {i : ι} {l : List ι} {s t : World ι ν β ρ} : Exited prog i s →
      Serially prog l s t → Serially prog (i :: l) s t

variable {s r t : World ι ν β ρ} {i j : ι} {l : List ι}

theorem act_none : act prog i s = none ↔ Exited prog i s := Option.map_eq_none_iff

theorem act_of_next (op : StoreOp ν β ρ) (h : prog i (s.loc i) = some op) :
    act prog i s = some ⟨Function.update s.loc i (op s.store).1, (op s.store).2⟩ := by
  rw [act, h, Option.map_some]

theorem act_loc (h : act prog i s = some r) (hj : j ≠ i) : r.loc j = s.loc j := by
  obtain ⟨op, -, rfl⟩ := Option.map_eq_some_iff.1 h
  exact Function.update_of_ne hj ..

theorem act_not_exited (h : act prog i s = some r) : ¬ Exited prog i s := fun he => by
  rw [act_none.2 he] at h
  cases h

/-- A process that has exited stays so, whatever the others do. -/
theorem Exited.act (h : Exited prog j s) (ha : act prog i s = some r) : Exited prog j r := by
  have hj : j ≠ i := by
    rintro rfl
    exact act_not_exited ha h
  unfold Exited
  rw [act_loc ha hj]
  exact h

theorem permitted_eq_some : permitted prog before i s = some r ↔
    (∀ m ∈ before i, Exited prog m s) ∧ act prog i s = some r := by
  unfold permitted
  split
  · next h => exact (and_iff_right h).symm
  · next h => simp [h]

theorem permitted_congr {t : World ι ν β ρ}
    (h : ∀ m ∈ before i, Exited prog m s → Exited prog m t)
    (hp : permitted prog before i s = some r) {q : World ι ν β ρ} (ht : act prog i t = some q) :
    permitted prog before i t = some q :=
  permitted_eq_some.2 ⟨fun m hm => h m hm ((permitted_eq_some.1 hp).1 m hm), ht⟩

/-- Two processes that keep apart act in either order. -/
theorem act_comm {R W R' W' : ν → Prop} (hi : (prog i).Confined R W)
    (hj : (prog j).Confined R' W') (hap : Apart R W R' W') (hne : i ≠ j)
    (h₁ : act prog i s = some r) (h₂ : act prog j s = some t) :
    ∃ q, act prog j r = some q ∧ act prog i t = some q := by
  obtain ⟨p, hp, rfl⟩ := Option.map_eq_some_iff.1 h₁
  obtain ⟨p', hp', rfl⟩ := Option.map_eq_some_iff.1 h₂
  have hc := hi _ _ hp
  have hc' := hj _ _ hp'
  refine ⟨_, act_of_next p' ((congrArg _ (Function.update_of_ne hne.symm ..)).trans hp'), ?_⟩
  rw [act_of_next p ((congrArg _ (Function.update_of_ne hne ..)).trans hp)]
  dsimp only
  rw [hap.result hc hc', hap.store hc hc', hap.symm.result hc' hc, Function.update_comm hne]

/-- Every two processes are ordered by `before` or confined apart. -/
def Separated (prog : ι → Program ν β ρ) (before : ι → List ι) : Prop :=
  ∀ i j, i ≠ j → i ∈ before j ∨ j ∈ before i ∨
    ∃ R W R' W', (prog i).Confined R W ∧ (prog j).Confined R' W' ∧ Apart R W R' W'

theorem Separated.diamond (h : Separated prog before) : Diamond (permitted prog before) := by
  intro i j s r t hne hi hj
  obtain ⟨hi₁, hi₂⟩ := permitted_eq_some.1 hi
  obtain ⟨hj₁, hj₂⟩ := permitted_eq_some.1 hj
  rcases h i j hne with hb | hb | ⟨R, W, R', W', hc, hc', hap⟩
  · exact absurd (hj₁ i hb) (act_not_exited hi₂)
  · exact absurd (hi₁ j hb) (act_not_exited hj₂)
  · obtain ⟨q, hq, hq'⟩ := act_comm hc hc' hap hne hi₂ hj₂
    exact ⟨q, permitted_congr (fun _ _ hm => hm.act hi₂) hj hq,
      permitted_congr (fun _ _ hm => hm.act hj₂) hi hq'⟩

/-! ## The serial run is one of the schedules -/

/-- What comes before a process of the list has exited, or stands before it there. -/
def Ready (prog : ι → Program ν β ρ) (before : ι → List ι) (s : World ι ν β ρ) : List ι → Prop
  | [] => True
  | i :: l => (∀ m ∈ before i, Exited prog m s) ∧
      ∀ a j b, l = a ++ j :: b → ∀ m ∈ before j, Exited prog m s ∨ m ∈ i :: a

theorem Ready.act {i' : ι} (h : Ready prog before s l) (ha : World.act prog i' s = some r) :
    Ready prog before r l := by
  cases l with
  | nil => trivial
  | cons i l =>
    exact ⟨fun m hm => (h.1 m hm).act ha, fun a j b he m hm => (h.2 a j b he m hm).imp_left
      fun hx => hx.act ha⟩

omit [DecidableEq ι] in
theorem Ready.tail (h : Ready prog before s (i :: l)) (hi : Exited prog i s) :
    Ready prog before s l := by
  cases l with
  | nil => trivial
  | cons k l =>
    refine ⟨fun m hm => ?_, fun a j b he m hm => ?_⟩
    · rcases h.2 [] k l rfl m hm with hx | hx
      · exact hx
      · rwa [List.mem_singleton.1 hx]
    · rcases h.2 (k :: a) j b (by rw [he, List.cons_append]) m hm with hx | hx
      · exact .inl hx
      · rcases List.mem_cons.1 hx with rfl | hx
        · exact .inl hi
        · exact .inr hx

omit [DecidableEq ι] in
theorem ready_of_sorted [Preorder ι] (hl : l.Pairwise (· < ·))
    (hb : ∀ j ∈ l, ∀ m ∈ before j, m < j ∧ m ∈ l) : Ready prog before s l := by
  cases l with
  | nil => trivial
  | cons i l =>
    refine ⟨fun m hm => ?_, fun a j b he m hm => .inr ?_⟩
    · obtain ⟨hlt, hmem⟩ := hb i List.mem_cons_self m hm
      rcases List.mem_cons.1 hmem with rfl | hmem
      · exact absurd hlt (lt_irrefl _)
      · exact absurd (hlt.trans ((List.pairwise_cons.1 hl).1 m hmem)) (lt_irrefl _)
    · subst he
      obtain ⟨hlt, hmem⟩ := hb j (by simp) m hm
      rw [← List.cons_append] at hl hmem
      obtain ⟨-, hl, -⟩ := List.pairwise_append.1 hl
      rcases List.mem_append.1 hmem with hmem | hmem
      · exact hmem
      · rcases List.mem_cons.1 hmem with rfl | hmem
        · exact absurd hlt (lt_irrefl _)
        · exact absurd (hlt.trans ((List.pairwise_cons.1 hl).1 m hmem)) (lt_irrefl _)

theorem serially_perform (h : Serially prog l s t) (hr : Ready prog before s l) :
    (∃ a, perform (permitted prog before) a s = some t) ∧ (∀ i ∈ l, Exited prog i t) ∧
      ∀ i, Exited prog i s → Exited prog i t := by
  induction h with
  | nil s => exact ⟨⟨[], rfl⟩, by simp, fun _ => id⟩
  | @act i l s q t ha _ ih =>
    obtain ⟨⟨a, hp⟩, hx, hk⟩ := ih (hr.act ha)
    exact ⟨⟨i :: a, perform_cons.2 ⟨q, permitted_eq_some.2 ⟨hr.1, ha⟩, hp⟩⟩, hx,
      fun j hj => hk j (hj.act ha)⟩
  | exit hi _ ih =>
    obtain ⟨ha, hx, hk⟩ := ih (hr.tail hi)
    exact ⟨ha, List.forall_mem_cons.2 ⟨hk _ hi, hx⟩, hk⟩

theorem stuck_of_exited (before : ι → List ι) (h : ∀ i, Exited prog i t) :
    Stuck (permitted prog before) t := fun i => by
  rcases hp : permitted prog before i t with _ | r
  · rfl
  · exact absurd (h i) (act_not_exited (permitted_eq_some.1 hp).2)

/-- **From any complete schedule to the serial run.** -/
theorem perform_serially (hd : Diamond (permitted prog before)) {a : List ι}
    (ha : perform (permitted prog before) a s = some t) (ht : ∀ i, Exited prog i t)
    (hr : Ready prog before s l) (hl : ∀ i, i ∉ l → Exited prog i s) : Serially prog l s t := by
  have hstuck := stuck_of_exited before ht
  induction l generalizing s a with
  | nil =>
    cases a with
    | nil =>
      obtain rfl := Option.some.inj ha
      exact .nil _
    | cons i a =>
      obtain ⟨r, hi, -⟩ := perform_cons.1 ha
      exact absurd (hl i (by simp)) (act_not_exited (permitted_eq_some.1 hi).2)
  | cons i l ih =>
    -- act with process `i` as long as it has not exited
    induction hn : a.length generalizing s a with
    | zero =>
      obtain rfl := List.length_eq_zero_iff.1 hn
      obtain rfl := Option.some.inj ha
      exact .exit (ht i) (ih ha (hr.tail (ht i)) fun j _ => ht j)
    | succ n ihn =>
      rcases hi : act prog i s with _ | r
      · have hx := act_none.1 hi
        refine .exit hx (ih ha (hr.tail hx) fun j hj => ?_)
        by_cases hji : j = i
        · rwa [hji]
        · exact hl j (by simp [hji, hj])
      · obtain ⟨c, hc, hperm⟩ := hd.first ha hstuck (permitted_eq_some.2 ⟨hr.1, hi⟩)
        refine .act hi (ihn hc (hr.act hi) (fun j hj => (hl j hj).act hi) ?_)
        have := hperm.length_eq
        rw [List.length_cons] at this
        omega

end World

end OsLabs
