import Mathlib.Data.List.Basic
import Mathlib.Data.List.Infix
import Mathlib.Tactic.Common

/-!
# Paths and their texts

A path is a list of names, and its text has a separator in front of each; the empty path
is a separator alone. `render_prefix_iff`: when the text of one path begins the text of
another, either the paths do so name by name, or the last name is cut off within a longer
one (`Overhangs`).
-/

namespace OsLabs.Components

universe u

variable {α : Type u} {sep : α}

/-- The names with a separator in front of each. -/
def flat (sep : α) (names : List (List α)) : List α := names.flatMap (sep :: ·)

/-- The text of an absolute path. -/
def render (sep : α) : List (List α) → List α
  | [] => [sep]
  | names => flat sep names

/-- Names are not empty and have no separator. -/
def Valid (sep : α) (names : List (List α)) : Prop := ∀ c ∈ names, c ≠ [] ∧ sep ∉ c

/-- The path ends within a name of the other one. -/
def Overhangs (dir path : List (List α)) : Prop :=
  ∃ front name x rest, dir = front ++ [name] ∧ x ≠ [] ∧ path = front ++ (name ++ x) :: rest

@[simp] theorem flat_nil : flat sep [] = [] := rfl

@[simp] theorem flat_cons (c : List α) (names : List (List α)) :
    flat sep (c :: names) = sep :: (c ++ flat sep names) := rfl

theorem render_of_ne_nil {names : List (List α)} (h : names ≠ []) :
    render sep names = flat sep names := by
  cases names with
  | nil => exact absurd rfl h
  | cons c names => rfl

/-- What follows a name is nothing, or begins with the separator. -/
theorem flat_cases (sep : α) (names : List (List α)) :
    names = [] ∨ ∃ v, flat sep names = sep :: v := by
  cases names with
  | nil => exact .inl rfl
  | cons c names => exact .inr ⟨_, rfl⟩

theorem Valid.tail {c : List α} {names : List (List α)} (h : Valid sep (c :: names)) :
    Valid sep names := fun d hd => h d (List.mem_cons_of_mem _ hd)

/-- Two names, with what follows each in a text. -/
theorem name_prefix_iff {d f : List α} {ds fs : List (List α)} (hd : sep ∉ d) (hf : sep ∉ f) :
    d ++ flat sep ds <+: f ++ flat sep fs ↔
      (d = f ∧ flat sep ds <+: flat sep fs) ∨ (ds = [] ∧ ∃ x, x ≠ [] ∧ f = d ++ x) := by
  constructor
  · rintro ⟨w, hw⟩
    rw [List.append_assoc] at hw
    obtain ⟨x, hx, hrest⟩ | ⟨x, hx, hrest⟩ := List.append_eq_append_iff.mp hw
    · rcases x with _ | ⟨c, x⟩
      · rw [List.append_nil] at hx
        exact .inl ⟨hx.symm, w, hrest⟩
      · obtain rfl | ⟨v, hv⟩ := flat_cases sep ds
        · exact .inr ⟨rfl, c :: x, by simp, hx⟩
        · -- the separator would stand in the longer name
          rw [hv, List.cons_append, List.cons_append] at hrest
          obtain ⟨rfl, -⟩ := List.cons.inj hrest
          exact absurd (by simp [hx]) hf
    · rcases x with _ | ⟨c, x⟩
      · rw [List.append_nil] at hx
        exact .inl ⟨hx, w, hrest.symm⟩
      · obtain rfl | ⟨v, hv⟩ := flat_cases sep fs
        · cases hrest
        · rw [hv, List.cons_append] at hrest
          obtain ⟨rfl, -⟩ := List.cons.inj hrest
          exact absurd (by simp [hx]) hd
  · rintro (⟨rfl, h⟩ | ⟨rfl, x, -, rfl⟩)
    · exact (List.prefix_append_right_inj d).mpr h
    · rw [flat_nil, List.append_nil, List.append_assoc]
      exact List.prefix_append d _

theorem overhangs_cons {c : List α} {dir path : List (List α)} (hdir : dir ≠ []) :
    Overhangs (c :: dir) path ↔ ∃ rest, path = c :: rest ∧ Overhangs dir rest := by
  constructor
  · rintro ⟨front, name, x, rest, hd, hx, rfl⟩
    rcases front with _ | ⟨d, front⟩
    · obtain ⟨-, rfl⟩ := List.cons.inj hd
      exact absurd rfl hdir
    · obtain ⟨rfl, rfl⟩ := List.cons.inj hd
      exact ⟨_, rfl, front, name, x, rest, rfl, hx, rfl⟩
  · rintro ⟨_, rfl, front, name, x, rest, rfl, hx, rfl⟩
    exact ⟨c :: front, name, x, rest, rfl, hx, rfl⟩

theorem overhangs_singleton {d : List α} {path : List (List α)} :
    Overhangs [d] path ↔ ∃ x rest, x ≠ [] ∧ path = (d ++ x) :: rest := by
  constructor
  · rintro ⟨front, name, x, rest, hd, hx, rfl⟩
    rcases front with _ | ⟨e, front⟩
    · cases hd
      exact ⟨x, rest, hx, rfl⟩
    · obtain ⟨-, h⟩ := List.cons.inj hd
      exact absurd h.symm (by simp)
  · rintro ⟨x, rest, hx, rfl⟩
    exact ⟨[], d, x, rest, rfl, hx, rfl⟩

theorem flat_prefix_iff : ∀ {dir path : List (List α)}, Valid sep dir → Valid sep path →
    (flat sep dir <+: flat sep path ↔ dir <+: path ∨ Overhangs dir path)
  | [], path, _, _ => by simp
  | d :: ds, [], _, _ => by
    simp [Overhangs]
  | d :: ds, f :: fs, hd, hf => by
    have ih := flat_prefix_iff hd.tail hf.tail
    rw [flat_cons, flat_cons, List.cons_prefix_cons, and_iff_right rfl,
      name_prefix_iff (hd d List.mem_cons_self).2 (hf f List.mem_cons_self).2, ih,
      List.cons_prefix_cons]
    by_cases hds : ds = []
    · subst hds
      have hover : Overhangs [] fs ↔ False := by simp [Overhangs]
      rw [overhangs_singleton, hover, or_false]
      refine or_congr Iff.rfl ?_
      constructor
      · rintro ⟨-, x, hx, rfl⟩
        exact ⟨x, fs, hx, rfl⟩
      · rintro ⟨x, rest, hx, h⟩
        cases h
        exact ⟨rfl, x, hx, rfl⟩
    · rw [overhangs_cons hds, and_or_left, or_assoc]
      refine or_congr Iff.rfl ?_
      constructor
      · rintro (⟨rfl, h⟩ | ⟨h, -⟩)
        · exact ⟨fs, rfl, h⟩
        · exact absurd h hds
      · rintro ⟨rest, h, hover⟩
        cases h
        exact .inl ⟨rfl, hover⟩

/-- **The text of a path begins the text of another one** where the path does, and where it
ends within a name of the other one. -/
theorem render_prefix_iff {dir path : List (List α)} (hd : Valid sep dir) (hp : Valid sep path) :
    render sep dir <+: render sep path ↔ dir <+: path ∨ Overhangs dir path := by
  by_cases h : dir = []
  · subst h
    refine iff_of_true ?_ (.inl List.nil_prefix)
    cases path with
    | nil => exact List.prefix_refl _
    | cons c path => exact ⟨c ++ flat sep path, rfl⟩
  · by_cases h' : path = []
    · subst h'
      -- a name is longer than the separator alone
      have hnot : ¬ render sep dir <+: render sep [] := by
        rw [render_of_ne_nil h]
        obtain ⟨c, dir, rfl⟩ := List.exists_cons_of_ne_nil h
        rw [flat_cons, render, List.cons_prefix_cons]
        intro hpre
        have hc := List.append_eq_nil_iff.mp (List.prefix_nil.mp hpre.2)
        exact (hd c List.mem_cons_self).1 hc.1
      refine iff_of_false hnot ?_
      rintro (hpre | hover)
      · exact h (List.prefix_nil.mp hpre)
      · simp [Overhangs] at hover
    · rw [render_of_ne_nil h, render_of_ne_nil h', flat_prefix_iff hd hp]

/-- A path that overhangs another does not lead to it. -/
theorem Overhangs.not_prefix {dir path : List (List α)} (h : Overhangs dir path) :
    ¬ dir <+: path := by
  obtain ⟨front, name, x, rest, rfl, hx, rfl⟩ := h
  rw [List.prefix_append_right_inj, List.cons_prefix_cons]
  rintro ⟨h, -⟩
  exact hx (by simpa using h)

end OsLabs.Components
