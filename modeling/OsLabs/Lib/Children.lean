import Mathlib.Data.List.Basic
import Mathlib.Data.List.Forall2
import Mathlib.Tactic.Common

/-!
# Child processes

The children of one process: `fork` adds a child under a process id that no
child still holds, `exit` ends a running child, and `waitpid` waits for a child
and reaps it. A reaped child has given its process id back, so a later child may
have the same one; `waitpid_terminated` holds all the same.
-/

namespace OsLabs

inductive ChildState where
  | running
  | exited
  | reaped
  deriving DecidableEq, Repr

/-- A child process and the job it was forked for. -/
structure Child (ι : Type) where
  job : ι
  pid : Int
  state : ChildState
  deriving DecidableEq, Repr

abbrev Children (ι : Type) := List (Child ι)

namespace Children

variable {ι : Type} {l l' : Children ι}

/-- `fork` returning `pid` in the parent. -/
def fork (l : Children ι) (job : ι) (pid : Int) : Option (Children ι) :=
  if 0 < pid ∧ ∀ c ∈ l, c.state ≠ .reaped → c.pid ≠ pid then some (l ++ [⟨job, pid, .running⟩])
  else none

/-- Child `k` terminates. -/
def exit : Children ι → Nat → Option (Children ι)
  | [], _ => none
  | c :: l, 0 => if c.state = .running then some ({ c with state := .exited } :: l) else none
  | c :: l, k + 1 => (exit l k).map (c :: ·)

/-- The children that `waitpid(pid, ..)` can return. -/
def Waits (pid : Int) (c : Child ι) : Prop := c.state ≠ .reaped ∧ (pid = -1 ∨ c.pid = pid)

instance (pid : Int) (c : Child ι) : Decidable (Waits pid c) :=
  inferInstanceAs (Decidable (_ ∧ _))

/-- Reap the first child that has exited. -/
def reap (pid : Int) : Children ι → Children ι
  | [] => []
  | c :: l =>
    if Waits pid c ∧ c.state = .exited then { c with state := .reaped } :: l
    else c :: reap pid l

/-- `waitpid(pid, &status, 0)`: `none` while it blocks; without a child to wait
for it returns at once. -/
def waitpid (l : Children ι) (pid : Int) : Option (Children ι) :=
  if ∀ c ∈ l, ¬ Waits pid c then some l
  else if ∃ c ∈ l, Waits pid c ∧ c.state = .exited then some (reap pid l)
  else none

/-- The job's child has terminated. -/
def Finished (l : Children ι) (job : ι) : Prop := ∃ c ∈ l, c.job = job ∧ c.state ≠ .running

/-- No two children hold the same process id. -/
def Distinct (l : Children ι) : Prop :=
  l.Pairwise fun c d => c.state ≠ .reaped → d.state ≠ .reaped → c.pid ≠ d.pid

def running (l : Children ι) : Nat := l.countP fun c => c.state = .running

/-! ## What the calls leave -/

/-- A child and the same child later. -/
structure Aged (c d : Child ι) : Prop where
  job : d.job = c.job
  pid : d.pid = c.pid
  held : d.state ≠ .reaped → c.state ≠ .reaped
  terminated : c.state ≠ .running → d.state ≠ .running

theorem Aged.refl (c : Child ι) : Aged c c := ⟨rfl, rfl, id, id⟩

theorem aged_refl (l : Children ι) : List.Forall₂ Aged l l :=
  List.forall₂_same.2 fun c _ => .refl c

theorem exit_aged {k : Nat} (h : exit l k = some l') :
    List.Forall₂ Aged l l' ∧ l.running = l'.running + 1 := by
  fun_induction exit l k generalizing l' with
  | case1 => cases h
  | case2 c l hc =>
    obtain rfl := Option.some.inj h
    refine ⟨.cons ⟨rfl, rfl, fun _ => by simp [hc], fun h => absurd hc h⟩ (aged_refl l), ?_⟩
    simp [running, hc]
  | case3 => cases h
  | case4 c l k ih =>
    obtain ⟨l'', hl, rfl⟩ := Option.map_eq_some_iff.1 h
    obtain ⟨haged, hrun⟩ := ih hl
    refine ⟨.cons (.refl c) haged, ?_⟩
    unfold running at *
    rw [List.countP_cons, List.countP_cons]
    omega

theorem reap_aged (pid : Int) (l : Children ι) :
    List.Forall₂ Aged l (reap pid l) ∧ (reap pid l).running = l.running := by
  induction l with
  | nil => exact ⟨.nil, rfl⟩
  | cons c l ih =>
    unfold reap
    split
    case isTrue hc =>
      refine ⟨.cons ⟨rfl, rfl, fun h => absurd rfl h, fun _ => by simp⟩ (aged_refl l), ?_⟩
      simp [running, hc.2]
    case isFalse =>
      refine ⟨.cons (.refl c) ih.1, ?_⟩
      have := ih.2
      unfold running at *
      rw [List.countP_cons, List.countP_cons, this]

theorem waitpid_aged {pid : Int} (h : waitpid l pid = some l') :
    List.Forall₂ Aged l l' ∧ l'.running = l.running := by
  unfold waitpid at h
  split at h
  · obtain rfl := Option.some.inj h
    exact ⟨aged_refl l, rfl⟩
  · split at h
    · obtain rfl := Option.some.inj h
      exact reap_aged pid l
    · cases h

section Aged

variable (h : List.Forall₂ Aged l l')
include h

theorem aged_jobs : l'.map Child.job = l.map Child.job := by
  induction h with
  | nil => rfl
  | cons hc _ ih => rw [List.map_cons, List.map_cons, ih, hc.job]

theorem aged_mem {d : Child ι} (hd : d ∈ l') : ∃ c ∈ l, Aged c d := by
  induction h with
  | nil => cases hd
  | cons hc _ ih =>
    rcases List.mem_cons.1 hd with rfl | hd
    · exact ⟨_, List.mem_cons_self, hc⟩
    · obtain ⟨c, hmem, hag⟩ := ih hd
      exact ⟨c, List.mem_cons_of_mem _ hmem, hag⟩

theorem Finished.aged {job : ι} (hf : Finished l job) : Finished l' job := by
  obtain ⟨c, hc, rfl, ht⟩ := hf
  induction h with
  | nil => cases hc
  | cons hag _ ih =>
    rcases List.mem_cons.1 hc with rfl | hc
    · exact ⟨_, List.mem_cons_self, hag.job, hag.terminated ht⟩
    · obtain ⟨d, hd, hj, ht⟩ := ih hc
      exact ⟨d, List.mem_cons_of_mem _ hd, hj, ht⟩

theorem Distinct.aged (hd : Distinct l) : Distinct l' := by
  unfold Distinct at *
  induction h with
  | nil => exact hd
  | cons hc hl ih =>
    obtain ⟨hhead, htail⟩ := List.pairwise_cons.1 hd
    refine List.pairwise_cons.2 ⟨fun d hmem h1 h2 => ?_, ih htail⟩
    obtain ⟨c', hc', hag⟩ := aged_mem hl hmem
    rw [hc.pid, hag.pid]
    exact hhead c' hc' (hc.held h1) (hag.held h2)

end Aged

/-! ## Forking -/

theorem fork_eq {job : ι} {pid : Int} (h : fork l job pid = some l') :
    0 < pid ∧ (∀ c ∈ l, c.state ≠ .reaped → c.pid ≠ pid) ∧ l' = l ++ [⟨job, pid, .running⟩] := by
  unfold fork at h
  split at h
  · next hp => exact ⟨hp.1, hp.2, (Option.some.inj h).symm⟩
  · cases h

theorem Distinct.fork {job : ι} {pid : Int} (hd : Distinct l) (h : fork l job pid = some l') :
    Distinct l' := by
  obtain ⟨-, hfree, rfl⟩ := fork_eq h
  refine List.pairwise_append.2 ⟨hd, List.pairwise_singleton .., fun c hc d hd => ?_⟩
  obtain rfl := List.mem_singleton.1 hd
  exact fun h _ => hfree c hc h

theorem Finished.fork {i job : ι} {pid : Int} (hf : Finished l i) (h : fork l job pid = some l') :
    Finished l' i := by
  obtain ⟨-, -, rfl⟩ := fork_eq h
  obtain ⟨c, hc, hrest⟩ := hf
  exact ⟨c, List.mem_append_left _ hc, hrest⟩

theorem running_fork {job : ι} {pid : Int} (h : fork l job pid = some l') :
    l'.running = l.running + 1 := by
  obtain ⟨-, -, rfl⟩ := fork_eq h
  simp [running]

theorem exists_pid_gt (l : Children ι) : ∃ pid : Int, 0 < pid ∧ ∀ c ∈ l, c.pid < pid := by
  induction l with
  | nil => exact ⟨1, by decide, by simp⟩
  | cons c l ih =>
    obtain ⟨pid, h0, hl⟩ := ih
    refine ⟨max pid (c.pid + 1), by omega, fun d hd => ?_⟩
    rcases List.mem_cons.1 hd with rfl | hd
    · omega
    · have := hl d hd
      omega

/-- There always is a process id to return. -/
theorem exists_fork (l : Children ι) (job : ι) : ∃ pid l', fork l job pid = some l' := by
  obtain ⟨pid, h0, hl⟩ := exists_pid_gt l
  exact ⟨pid, _, if_pos ⟨h0, fun c hc _ => by have := hl c hc; omega⟩⟩

/-! ## Who has terminated -/

theorem finished_of_fork {i job : ι} {pid : Int} (h : fork l job pid = some l')
    (hf : Finished l' i) : Finished l i := by
  obtain ⟨-, -, rfl⟩ := fork_eq h
  obtain ⟨c, hc, hrest⟩ := hf
  rcases List.mem_append.1 hc with hc | hc
  · exact ⟨c, hc, hrest⟩
  · obtain rfl := List.mem_singleton.1 hc
    exact absurd rfl hrest.2

theorem finished_of_reap {i : ι} {pid : Int} (hf : Finished (reap pid l) i) : Finished l i := by
  induction l with
  | nil => exact hf
  | cons c l ih =>
    unfold reap at hf
    split at hf
    case isTrue hc =>
      obtain ⟨d, hd, hj, ht⟩ := hf
      rcases List.mem_cons.1 hd with rfl | hd
      · exact ⟨c, List.mem_cons_self, hj, by simp [hc.2]⟩
      · exact ⟨d, List.mem_cons_of_mem _ hd, hj, ht⟩
    case isFalse =>
      obtain ⟨d, hd, hj, ht⟩ := hf
      rcases List.mem_cons.1 hd with rfl | hd
      · exact ⟨d, List.mem_cons_self, hj, ht⟩
      · obtain ⟨e, he, hrest⟩ := ih ⟨d, hd, hj, ht⟩
        exact ⟨e, List.mem_cons_of_mem _ he, hrest⟩

theorem finished_of_waitpid {i : ι} {pid : Int} (h : waitpid l pid = some l')
    (hf : Finished l' i) : Finished l i := by
  unfold waitpid at h
  split at h
  · obtain rfl := Option.some.inj h
    exact hf
  · split at h
    · obtain rfl := Option.some.inj h
      exact finished_of_reap hf
    · cases h

/-- Only the child that exits is a new one among those that have terminated. -/
theorem finished_of_exit {i : ι} {k : Nat} (h : exit l k = some l') (hf : Finished l' i) :
    Finished l i ∨ ∃ c, l[k]? = some c ∧ c.job = i := by
  fun_induction exit l k generalizing l' with
  | case1 => cases h
  | case2 c l hc =>
    obtain rfl := Option.some.inj h
    obtain ⟨d, hd, hj, ht⟩ := hf
    rcases List.mem_cons.1 hd with rfl | hd
    · exact .inr ⟨c, rfl, hj⟩
    · exact .inl ⟨d, List.mem_cons_of_mem _ hd, hj, ht⟩
  | case3 => cases h
  | case4 c l k ih =>
    obtain ⟨l'', hl, rfl⟩ := Option.map_eq_some_iff.1 h
    obtain ⟨d, hd, hj, ht⟩ := hf
    rcases List.mem_cons.1 hd with rfl | hd
    · exact .inl ⟨d, List.mem_cons_self, hj, ht⟩
    · rcases ih hl ⟨d, hd, hj, ht⟩ with ⟨e, he, hrest⟩ | h
      · exact .inl ⟨e, List.mem_cons_of_mem _ he, hrest⟩
      · exact .inr h

theorem exit_of_running {c : Child ι} {k : Nat} (hk : l[k]? = some c) (hc : c.state = .running) :
    ∃ l', exit l k = some l' := by
  induction l generalizing k with
  | nil => simp at hk
  | cons d l ih =>
    cases k with
    | zero =>
      obtain rfl : d = c := by simpa using hk
      exact ⟨_, if_pos hc⟩
    | succ k =>
      obtain ⟨l', hl⟩ := ih (by simpa using hk)
      exact ⟨d :: l', by rw [exit, hl]; rfl⟩

theorem running_of_exit {k : Nat} (h : exit l k = some l') : ∃ c ∈ l, c.state = .running := by
  fun_induction exit l k generalizing l' with
  | case1 => cases h
  | case2 c l hc => exact ⟨c, List.mem_cons_self, hc⟩
  | case3 => cases h
  | case4 c l k ih =>
    obtain ⟨l'', hl, -⟩ := Option.map_eq_some_iff.1 h
    obtain ⟨d, hd, hr⟩ := ih hl
    exact ⟨d, List.mem_cons_of_mem _ hd, hr⟩

/-! ## Waiting -/

theorem Distinct.ne {c d : Child ι} (hd : Distinct l) (hc : c ∈ l) (hd' : d ∈ l) (hne : c ≠ d)
    (h1 : c.state ≠ .reaped) (h2 : d.state ≠ .reaped) : c.pid ≠ d.pid := by
  unfold Distinct at hd
  induction l with
  | nil => cases hc
  | cons e l ih =>
    obtain ⟨hhead, htail⟩ := List.pairwise_cons.1 hd
    rcases List.mem_cons.1 hc with hce | hc
    · rcases List.mem_cons.1 hd' with hde | hd'
      · exact absurd (hce.trans hde.symm) hne
      · rw [hce] at h1 ⊢
        exact hhead d hd' h1 h2
    · rcases List.mem_cons.1 hd' with hde | hd'
      · rw [hde] at h2 ⊢
        exact (hhead c hc h2 h1).symm
      · exact ih htail hc hd'

/-- When `waitpid` returns, the child it was called for has terminated. -/
theorem waitpid_terminated {pid : Int} (hd : Distinct l) (hp : 0 < pid)
    (h : waitpid l pid = some l') {c : Child ι} (hc : c ∈ l) (hpid : c.pid = pid) :
    c.state ≠ .running := by
  intro hrun
  have hheld : c.state ≠ .reaped := by simp [hrun]
  unfold waitpid at h
  split at h
  · next hno => exact hno c hc ⟨hheld, .inr hpid⟩
  split at h
  · next hex =>
    obtain ⟨d, hmem, ⟨hheld', hpid'⟩, hexit⟩ := hex
    have hne : c ≠ d := by
      rintro rfl
      simp [hrun] at hexit
    have hpd : d.pid = pid := hpid'.resolve_left (by omega)
    exact hd.ne hc hmem hne hheld hheld' (hpid.trans hpd.symm)
  · cases h

/-- `waitpid` blocks only while some child is running, and that child can exit. -/
theorem exists_exit {pid : Int} (h : waitpid l pid = none) : ∃ k l', exit l k = some l' := by
  have hrun : ∃ c ∈ l, c.state = .running := by
    unfold waitpid at h
    split at h
    · cases h
    · next hno =>
      push Not at hno
      obtain ⟨c, hc, hw⟩ := hno
      refine ⟨c, hc, ?_⟩
      rcases hs : c.state with _ | _ | _
      · rfl
      · rw [if_pos ⟨c, hc, hw, hs⟩] at h
        cases h
      · exact absurd hs hw.1
  obtain ⟨c, hc, hrun⟩ := hrun
  clear h
  induction l with
  | nil => cases hc
  | cons d l ih =>
    rcases List.mem_cons.1 hc with rfl | hc
    · exact ⟨0, _, if_pos hrun⟩
    · obtain ⟨k, l', hk⟩ := ih hc
      exact ⟨k + 1, d :: l', by rw [exit, hk]; rfl⟩

end Children

end OsLabs
