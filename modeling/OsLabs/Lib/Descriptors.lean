import Mathlib.Logic.Function.Basic

/-!
# Descriptor tables

The descriptors of one process: a table from numbers to open files, in which new
descriptors get the lowest free number below `limit`. `dup2` and `close` change
the one descriptor that they name. `Roomy` counts the free numbers, to tell when
no call runs out of descriptors.
-/

namespace OsLabs

universe u

/-- The open files of a process, by descriptor. -/
abbrev Table (α : Type u) := Nat → Option α

namespace Table

variable {α : Type u} (t : Table α) (limit : Nat)

/-- The lowest free descriptor. -/
def lowest : Option Nat := (List.range limit).find? fun n => (t n).isNone

/-- A new descriptor for an open file. -/
def install (f : α) : Option (Nat × Table α) :=
  (t.lowest limit).map fun n => (n, Function.update t n (some f))

def dup (fd : Nat) : Option (Nat × Table α) := (t fd).bind (t.install limit)

def dup2 (fd fd' : Nat) : Option (Table α) := (t fd).map fun f => Function.update t fd' (some f)

def close (fd : Nat) : Table α := Function.update t fd none

/-- A read end and a write end. -/
def pipe (r w : α) : Option (Nat × Nat × Table α) :=
  (t.install limit r).bind fun (n, t) => (t.install limit w).map fun (m, t) => (n, m, t)

variable {t limit} {t' : Table α} {f : α} {fd fd' n m : Nat}

theorem install_eq_some (h : t.install limit f = some (n, t')) :
    t n = none ∧ t' = Function.update t n (some f) := by
  obtain ⟨k, hk, he⟩ := Option.map_eq_some_iff.mp h
  cases he
  have hfree : (t n).isNone = true := List.find?_some (p := fun n => (t n).isNone) hk
  exact ⟨Option.isNone_iff_eq_none.mp hfree, rfl⟩

theorem dup_eq_some (h : t.dup limit fd = some (n, t')) :
    t n = none ∧ t' = Function.update t n (t fd) := by
  obtain ⟨f, hf, hi⟩ := Option.bind_eq_some_iff.mp h
  rw [hf]
  exact install_eq_some hi

theorem dup2_eq_some (h : t.dup2 fd fd' = some t') :
    t fd ≠ none ∧ t' = Function.update t fd' (t fd) := by
  obtain ⟨f, hf, rfl⟩ := Option.map_eq_some_iff.mp h
  rw [hf]
  exact ⟨nofun, rfl⟩

theorem pipe_eq_some {r w : α} (h : t.pipe limit r w = some (n, m, t')) :
    t n = none ∧ t m = none ∧ n ≠ m ∧
      t' = Function.update (Function.update t n (some r)) m (some w) := by
  obtain ⟨⟨k, t1⟩, h1, h2⟩ := Option.bind_eq_some_iff.mp h
  obtain ⟨⟨j, t2⟩, h2, he⟩ := Option.map_eq_some_iff.mp h2
  cases he
  obtain ⟨hk, rfl⟩ := install_eq_some h1
  obtain ⟨hj, rfl⟩ := install_eq_some h2
  have hne : n ≠ m := by
    rintro rfl
    rw [Function.update_self] at hj
    cases hj
  rw [Function.update_of_ne hne.symm] at hj
  exact ⟨hk, hj, hne, rfl⟩

/-! ### Room for more descriptors -/

/-- At least `k` descriptors are free. -/
def Roomy (t : Table α) (limit k : Nat) : Prop :=
  ∃ l : List Nat, l.Nodup ∧ k ≤ l.length ∧ ∀ n ∈ l, n < limit ∧ t n = none

/-- What is free here is free there. -/
theorem Roomy.mono {k k' : Nat} (h : t.Roomy limit k) (hk : k' ≤ k)
    (ht : ∀ n, t n = none → t' n = none) : t'.Roomy limit k' := by
  obtain ⟨l, hl, hlen, hfree⟩ := h
  exact ⟨l, hl, Nat.le_trans hk hlen, fun n hn => ⟨(hfree n hn).1, ht n (hfree n hn).2⟩⟩

theorem Roomy.install {k : Nat} (h : t.Roomy limit (k + 1)) (f : α) :
    ∃ n t', t.install limit f = some (n, t') ∧ t'.Roomy limit k := by
  obtain ⟨l, hl, hlen, hfree⟩ := h
  obtain ⟨m, hm⟩ := List.exists_mem_of_length_pos (Nat.lt_of_lt_of_le (Nat.succ_pos k) hlen)
  have hsome : (t.lowest limit).isSome := by
    rw [lowest, List.find?_isSome]
    exact ⟨m, List.mem_range.mpr (hfree m hm).1, Option.isNone_iff_eq_none.mpr (hfree m hm).2⟩
  obtain ⟨n, hn⟩ := Option.isSome_iff_exists.mp hsome
  refine ⟨n, _, by rw [Table.install, hn]; rfl, l.erase n, hl.erase n, ?_, fun j hj => ?_⟩
  · rw [List.length_erase]
    split <;> omega
  · obtain ⟨hne, hj⟩ := (hl.mem_erase_iff).mp hj
    rw [Function.update_of_ne hne]
    exact hfree j hj

theorem Roomy.dup {k : Nat} (h : t.Roomy limit (k + 1)) (hfd : t fd ≠ none) :
    ∃ n t', t.dup limit fd = some (n, t') ∧ t'.Roomy limit k := by
  obtain ⟨f, hf⟩ := Option.ne_none_iff_exists'.mp hfd
  rw [Table.dup, hf, Option.bind_some]
  exact h.install f

theorem Roomy.pipe {k : Nat} (h : t.Roomy limit (k + 2)) (r w : α) :
    ∃ n m t', t.pipe limit r w = some (n, m, t') ∧ t'.Roomy limit k := by
  obtain ⟨n, t1, h1, hr⟩ := h.install r
  obtain ⟨m, t2, h2, hr⟩ := hr.install w
  refine ⟨n, m, t2, ?_, hr⟩
  simp only [Table.pipe, h1, Option.bind_some, h2, Option.map_some]

theorem dup2_of_ne_none (h : t fd ≠ none) (fd' : Nat) :
    t.dup2 fd fd' = some (Function.update t fd' (t fd)) := by
  obtain ⟨f, hf⟩ := Option.ne_none_iff_exists'.mp h
  rw [Table.dup2, hf, Option.map_some]

end Table

end OsLabs
