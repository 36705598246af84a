import OsLabs.Shell.Graph
import OsLabs.Lib.Children
import OsLabs.Lib.Runs

/-!
# Time travel: running the graph

`execute_graph` of `main.c` as a transition system: the parent performs its loops
one iteration at a time, and the children terminate at any time. `fork` succeeds
and may return the id of a child already reaped. `Inv` holds in every reachable
state, and every step makes `steps` smaller.
-/

namespace OsLabs.Shell

open Children (Finished Distinct)

/-- Where the parent is. -/
inductive Pc where
  /-- The loop of `execute_no_dependencies`, with the rest of its queue. -/
  | noDependencies (queue : List Nat)
  /-- The head of the loop of `execute_dependencies`. -/
  | dependencies (queue : List Nat)
  /-- The `goto` loop for node `i`, with what `j` still has to pass. -/
  | poll (i : Nat) (j queue : List Nat)
  /-- The loop of `waitpid` calls for node `i`. -/
  | wait (i : Nat) (j queue : List Nat)
  | finished
  deriving DecidableEq, Repr

structure Exec where
  /-- The field `pid` of the nodes. -/
  pid : Nat → Int
  pc : Pc
  children : Children Nat

namespace Exec

def setPid (pid : Nat → Int) (i : Nat) (p : Int) : Nat → Int := fun k => if k = i then p else pid k

/-- The next iteration of the parent; `p` is what `fork` returns if it is called. -/
def parent (graph : DependencyGraph) (s : Exec) (p : Int) : Option Exec :=
  match s.pc with
  | .noDependencies [] => some { s with pc := .dependencies graph.dependencies }
  | .noDependencies (cur :: queue) =>
    (s.children.fork cur p).map fun ch =>
      { pid := setPid s.pid cur p, pc := .noDependencies queue, children := ch }
  | .dependencies [] => some { s with pc := .finished }
  | .dependencies (i :: queue) => some { s with pc := .poll i (graph.before i) queue }
  | .poll i [] queue => some { s with pc := .wait i (graph.before i) queue }
  | .poll i (j :: js) queue =>
    -- goto loop: j is not set back
    if s.pid j = -1 then some { s with pc := .poll i js queue }
    else some { s with pc := .poll i js queue }
  | .wait i (j :: js) queue =>
    (s.children.waitpid (s.pid j)).map fun ch => { s with pc := .wait i js queue, children := ch }
  | .wait i [] queue =>
    (s.children.fork i p).map fun ch =>
      { pid := setPid s.pid i p, pc := .dependencies queue, children := ch }
  | .finished => none

inductive Action where
  /-- The parent goes on. -/
  | parent (p : Int)
  /-- Child `k` terminates. -/
  | exit (k : Nat)

def step (graph : DependencyGraph) (s : Exec) : Action → Option Exec
  | .parent p => s.parent graph p
  | .exit k => (s.children.exit k).map fun ch => { s with children := ch }

end Exec

/-- `execute_graph` on a graph whose nodes have not been started. -/
def executeGraph (graph : DependencyGraph) : System Exec Exec.Action where
  Init s := s = ⟨fun _ => -1, .noDependencies graph.noDependencies, []⟩
  Step s a s' := s.step graph a = some s'

/-! ## What the graph promises -/

/-- The two queues hold every node once, and what a node depends on stands
before it. -/
structure Ordered (n : Nat) (graph : DependencyGraph) : Prop where
  perm : (graph.noDependencies ++ graph.dependencies).Perm (List.range n)
  independent : ∀ i ∈ graph.noDependencies, graph.before i = []
  earlier : ∀ a i b, graph.dependencies = a ++ i :: b →
    ∀ m ∈ graph.before i, m ∈ graph.noDependencies ++ a

theorem addNode_queues (graph : DependencyGraph) (c : Command) (files : FileLists) :
    let before := checkDependency graph.gnArr files
    (graph.addNode c files).noDependencies =
      graph.noDependencies ++ (if before = [] then [graph.gnArr.length] else []) ∧
    (graph.addNode c files).dependencies =
      graph.dependencies ++ (if before = [] then [] else [graph.gnArr.length]) := by
  unfold DependencyGraph.addNode
  dsimp only
  split <;> simp

theorem before_addNode (graph : DependencyGraph) (c : Command) (files : FileLists) (i : Nat) :
    (graph.addNode c files).before i =
      if i = graph.gnArr.length then checkDependency graph.gnArr files
      else graph.before i := by
  unfold DependencyGraph.before
  rw [addNode_gnArr]
  split
  case isTrue h => simp [h]
  case isFalse h =>
    rcases Nat.lt_or_ge i graph.gnArr.length with hi | hi
    · rw [List.getElem?_append_left hi]
    · rw [List.getElem?_eq_none (by simp; omega), List.getElem?_eq_none hi]

theorem checkDependency_lt {gnArr : List GraphNode} {files : FileLists} {m : Nat}
    (h : m ∈ checkDependency gnArr files) : m < gnArr.length :=
  List.mem_range.1 (List.mem_filter.1 h).1

theorem graphOf_ordered (commands : List Command) :
    Ordered commands.length (graphOf commands) := by
  induction commands using List.reverseRecOn with
  | nil => exact ⟨.refl _, by simp [graphOf], by simp [graphOf]⟩
  | append_singleton commands c ih =>
    obtain ⟨hlen, -⟩ := graphOf_gnArr commands
    rw [graphOf_concat]
    generalize graphOf commands = graph at *
    obtain ⟨hno, hdep⟩ := addNode_queues graph c c.files
    have hbefore := before_addNode graph c c.files
    have hlt := @checkDependency_lt graph.gnArr c.files
    generalize checkDependency graph.gnArr c.files = before at *
    have hmem (k : Nat) : k ∈ graph.noDependencies ++ graph.dependencies ↔ k < commands.length := by
      rw [ih.perm.mem_iff, List.mem_range]
    have hold (k : Nat) (hk : k ∈ graph.noDependencies ++ graph.dependencies) :
        (graph.addNode c c.files).before k = graph.before k := by
      rw [hbefore, if_neg (by have := (hmem k).1 hk; omega)]
    rw [hlen] at *
    refine ⟨?_, fun i hi => ?_, fun a i b he m hm => ?_⟩
    · rw [hno, hdep, List.length_append, List.length_singleton, List.range_succ]
      split
      · rw [List.append_nil, List.append_assoc]
        refine (List.Perm.append_left _ List.perm_append_comm).trans ?_
        rw [← List.append_assoc]
        exact ih.perm.append_right _
      · rw [List.append_nil, ← List.append_assoc]
        exact ih.perm.append_right _
    · rw [hno, List.mem_append] at hi
      rcases hi with hi | hi
      · rw [hold i (List.mem_append_left _ hi), ih.independent i hi]
      · split at hi
        · next hnil => rw [hbefore, if_pos (List.mem_singleton.1 hi), hnil]
        · cases hi
    · rw [hdep] at he
      rw [hno]
      split at he
      · next hnil =>
        rw [List.append_nil] at he
        have hi : i ∈ graph.noDependencies ++ graph.dependencies := by simp [he]
        rw [hold i hi] at hm
        have := ih.earlier a i b he m hm
        simp only [List.mem_append] at this ⊢
        tauto
      · next hnil =>
        rw [if_neg hnil, List.append_nil]
        rcases List.eq_nil_or_concat b with rfl | ⟨b', x, rfl⟩
        · obtain ⟨rfl, hi⟩ := List.append_inj' he rfl
          obtain rfl : commands.length = i := by simpa using hi
          rw [hbefore, if_pos rfl] at hm
          exact (hmem m).2 (hlt hm)
        · rw [List.concat_eq_append, ← List.cons_append, ← List.append_assoc] at he
          obtain ⟨he, -⟩ := List.append_inj' he rfl
          have hi : i ∈ graph.noDependencies ++ graph.dependencies := by simp [he]
          rw [hold i hi] at hm
          exact ih.earlier a i b' he m hm

/-! ## The invariant -/

/-- How far the parent has come when it has forked the given nodes, in order. -/
inductive Progress (graph : DependencyGraph) : List Nat → Pc → Prop where
  | noDependencies {a queue : List Nat} : graph.noDependencies = a ++ queue →
      Progress graph a (.noDependencies queue)
  | dependencies {a queue : List Nat} : graph.dependencies = a ++ queue →
      Progress graph (graph.noDependencies ++ a) (.dependencies queue)
  | poll {a j queue : List Nat} {i : Nat} : graph.dependencies = a ++ i :: queue →
      j ⊆ graph.before i → Progress graph (graph.noDependencies ++ a) (.poll i j queue)
  | wait {a j queue : List Nat} {i : Nat} : graph.dependencies = a ++ i :: queue →
      j ⊆ graph.before i → Progress graph (graph.noDependencies ++ a) (.wait i j queue)
  | finished : Progress graph (graph.noDependencies ++ graph.dependencies) .finished

structure Inv (graph : DependencyGraph) (s : Exec) : Prop where
  distinct : Distinct s.children
  pids : ∀ c ∈ s.children, s.pid c.job = c.pid ∧ 0 < c.pid
  progress : Progress graph (s.children.map Child.job) s.pc
  /-- What a forked node depends on has terminated. -/
  ready : ∀ c ∈ s.children, ∀ m ∈ graph.before c.job, Finished s.children m
  /-- The nodes that the waiting loop has passed have terminated. -/
  waited : ∀ i j queue, s.pc = .wait i j queue →
    ∀ m ∈ graph.before i, m ∈ j ∨ Finished s.children m

variable {graph : DependencyGraph} {n : Nat} {s s' : Exec}

theorem Ordered.nodup (hg : Ordered n graph) :
    (graph.noDependencies ++ graph.dependencies).Nodup :=
  hg.perm.nodup_iff.2 List.nodup_range

theorem mem_jobs {l : Children Nat} {m : Nat} (h : m ∈ l.map Child.job) : ∃ c ∈ l, c.job = m := by
  simpa using h

/-- What node `i` depends on has been forked. -/
theorem Inv.before_started (h : Inv graph s) (hg : Ordered n graph) {i : Nat} {j queue : List Nat}
    (hpc : s.pc = .poll i j queue ∨ s.pc = .wait i j queue) {m : Nat} (hm : m ∈ j) :
    ∃ c ∈ s.children, c.job = m ∧ s.pid m = c.pid ∧ 0 < c.pid := by
  have hjobs : m ∈ s.children.map Child.job := by
    have hp := h.progress
    rcases hpc with hpc | hpc
    all_goals
      rw [hpc] at hp
      generalize s.children.map Child.job = jobs at hp ⊢
    · cases hp with
      | poll he hj => exact hg.earlier _ _ _ he m (hj hm)
    · cases hp with
      | wait he hj => exact hg.earlier _ _ _ he m (hj hm)
  obtain ⟨c, hc, rfl⟩ := mem_jobs hjobs
  exact ⟨c, hc, rfl, h.pids c hc⟩

/-- The parent moves on without a change to the children. -/
theorem Inv.goto (h : Inv graph s) {pc : Pc}
    (hp : Progress graph (s.children.map Child.job) pc)
    (hw : ∀ i j queue, pc = .wait i j queue → ∀ m ∈ graph.before i,
      m ∈ j ∨ Finished s.children m) : Inv graph { s with pc := pc } :=
  ⟨h.distinct, h.pids, hp, h.ready, hw⟩

/-- Children terminate or are reaped. -/
theorem Inv.aged (h : Inv graph s) {l : Children Nat}
    (ha : List.Forall₂ Children.Aged s.children l) : Inv graph { s with children := l } := by
  refine ⟨h.distinct.aged ha, fun c hc => ?_, ?_, fun c hc m hm => ?_, fun i j queue hpc m hm => ?_⟩
  · obtain ⟨d, hd, hag⟩ := Children.aged_mem ha hc
    show s.pid c.job = c.pid ∧ _
    rw [hag.job, hag.pid]
    exact h.pids d hd
  · show Progress graph (l.map Child.job) s.pc
    rw [Children.aged_jobs ha]
    exact h.progress
  · obtain ⟨d, hd, hag⟩ := Children.aged_mem ha hc
    rw [hag.job] at hm
    exact (h.ready d hd m hm).aged ha
  · exact (h.waited i j queue hpc m hm).imp_right fun hf => hf.aged ha

/-- A node whose dependencies have terminated is forked. -/
theorem Inv.fork (h : Inv graph s) {i : Nat} {p : Int} {l : Children Nat} {pc : Pc}
    (hf : s.children.fork i p = some l) (hnew : i ∉ s.children.map Child.job)
    (hb : ∀ m ∈ graph.before i, Finished s.children m)
    (hp : Progress graph (s.children.map Child.job ++ [i]) pc)
    (hw : ∀ k j queue, pc ≠ .wait k j queue) :
    Inv graph { pid := Exec.setPid s.pid i p, pc := pc, children := l } := by
  obtain ⟨hpos, -, hl⟩ := Children.fork_eq hf
  refine ⟨h.distinct.fork hf, fun c hc => ?_, ?_, fun c hc m hm => ?_, fun k j queue hpc =>
    absurd hpc (hw k j queue)⟩
  · have hc' : c ∈ s.children ++ [⟨i, p, .running⟩] := hl ▸ hc
    rcases List.mem_append.1 hc' with hc₁ | hc₁
    · have hne : c.job ≠ i := by
        rintro rfl
        exact hnew (List.mem_map_of_mem hc₁)
      show (if c.job = i then p else s.pid c.job) = c.pid ∧ _
      rw [if_neg hne]
      exact h.pids c hc₁
    · obtain rfl := List.mem_singleton.1 hc₁
      exact ⟨if_pos rfl, hpos⟩
  · show Progress graph (l.map Child.job) pc
    rw [hl, List.map_append]
    exact hp
  · have hc' : c ∈ s.children ++ [⟨i, p, .running⟩] := hl ▸ hc
    rcases List.mem_append.1 hc' with hc | hc
    · exact (h.ready c hc m hm).fork hf
    · obtain rfl := List.mem_singleton.1 hc
      exact (hb m hm).fork hf

theorem Inv.init : Inv graph ⟨fun _ => -1, .noDependencies graph.noDependencies, []⟩ :=
  ⟨.nil, by simp, .noDependencies rfl, by simp, by simp⟩

theorem Inv.parent (h : Inv graph s) (hg : Ordered n graph) {p : Int}
    (hs : s.parent graph p = some s') : Inv graph s' := by
  have hprog := h.progress
  have hnodup := hg.nodup
  unfold Exec.parent at hs
  split at hs
  case h_1 hpc =>
    obtain rfl := Option.some.inj hs
    rw [hpc] at hprog
    refine h.goto ?_ (by simp)
    generalize s.children.map Child.job = jobs at hprog ⊢
    cases hprog with
    | noDependencies he =>
      rw [List.append_nil] at he
      subst he
      have hdep := @Progress.dependencies graph [] _ rfl
      simpa using hdep
  case h_2 cur queue hpc =>
    obtain ⟨l, hf, rfl⟩ := Option.map_eq_some_iff.1 hs
    rw [hpc] at hprog
    generalize hj : s.children.map Child.job = jobs at hprog
    cases hprog with
    | noDependencies he =>
      rw [he, List.append_assoc] at hnodup
      have hnew : cur ∉ jobs := fun hc =>
        (List.nodup_append.1 hnodup).2.2 cur hc cur (by simp) rfl
      refine h.fork hf (hj ▸ hnew) ?_ ?_ (by simp)
      · rw [hg.independent cur (by simp [he])]
        simp
      · rw [hj]
        exact .noDependencies (by simp [he])
  case h_3 hpc =>
    obtain rfl := Option.some.inj hs
    rw [hpc] at hprog
    refine h.goto ?_ (by simp)
    generalize s.children.map Child.job = jobs at hprog ⊢
    cases hprog with
    | dependencies he =>
      rw [List.append_nil] at he
      subst he
      exact .finished
  case h_4 i queue hpc =>
    obtain rfl := Option.some.inj hs
    rw [hpc] at hprog
    refine h.goto ?_ (by simp)
    generalize s.children.map Child.job = jobs at hprog ⊢
    cases hprog with
    | dependencies he => exact .poll he (List.Subset.refl _)
  case h_5 i queue hpc =>
    obtain rfl := Option.some.inj hs
    rw [hpc] at hprog
    refine h.goto ?_ fun k j queue he m hm => ?_
    · generalize s.children.map Child.job = jobs at hprog ⊢
      cases hprog with
      | poll he _ => exact .wait he (List.Subset.refl _)
    · cases he
      exact .inl hm
  case h_6 i j js queue hpc =>
    rw [ite_self] at hs
    obtain rfl := Option.some.inj hs
    rw [hpc] at hprog
    refine h.goto ?_ (by simp)
    generalize s.children.map Child.job = jobs at hprog ⊢
    cases hprog with
    | poll he hj => exact .poll he (List.subset_of_cons_subset hj)
  case h_7 i j js queue hpc =>
    obtain ⟨l, hw, rfl⟩ := Option.map_eq_some_iff.1 hs
    obtain ⟨haged, -⟩ := Children.waitpid_aged hw
    obtain ⟨c, hc, hjob, hpid, hpos⟩ := h.before_started hg (.inr hpc) (List.mem_cons_self ..)
    have hterm := Children.waitpid_terminated h.distinct (by omega) hw hc hpid.symm
    have hdone : Finished l j := Finished.aged haged ⟨c, hc, hjob, hterm⟩
    have hage := h.aged haged
    refine hage.goto ?_ fun i' j' queue' he m hm => ?_
    · have hprog' : Progress graph (l.map Child.job) s.pc := hage.progress
      rw [hpc] at hprog'
      show Progress graph (l.map Child.job) _
      generalize l.map Child.job = jobs at hprog' ⊢
      cases hprog' with
      | wait he hj => exact .wait he (List.subset_of_cons_subset hj)
    · cases he
      rcases hage.waited i (j :: js) queue hpc m hm with hm | hf
      · rcases List.mem_cons.1 hm with rfl | hm
        · exact .inr hdone
        · exact .inl hm
      · exact .inr hf
  case h_8 i queue hpc =>
    obtain ⟨l, hf, rfl⟩ := Option.map_eq_some_iff.1 hs
    rw [hpc] at hprog
    generalize hj : s.children.map Child.job = jobs at hprog
    cases hprog with
    | @wait a _ _ _ he _ =>
      rw [he, ← List.append_assoc] at hnodup
      have hnew : i ∉ graph.noDependencies ++ a := fun hc =>
        (List.nodup_append.1 hnodup).2.2 i hc i (by simp) rfl
      refine h.fork hf (hj ▸ hnew) (fun m hm => ?_) ?_ (by simp)
      · exact (h.waited i [] queue hpc m hm).resolve_left (by simp)
      · rw [hj, List.append_assoc]
        exact .dependencies (by simp [he])
  case h_9 => cases hs

theorem Inv.step (h : Inv graph s) (hg : Ordered n graph) {a : Exec.Action}
    (hs : s.step graph a = some s') : Inv graph s' := by
  rcases a with p | k
  · exact h.parent hg hs
  · obtain ⟨l, he, rfl⟩ := Option.map_eq_some_iff.1 hs
    exact h.aged (Children.exit_aged he).1

theorem run_inv (hg : Ordered n graph) {h : List Exec.Action} {s : Exec}
    (hr : (executeGraph graph).Run h s) : Inv graph s :=
  hr.inv (I := fun _ s => Inv graph s) (fun _ hi => by obtain rfl := hi; exact .init)
    fun _ _ _ _ hi _ hs => hi.step hg hs

/-! ## Every run ends -/

/-- Steps to come for a queue of `execute_dependencies`. -/
def queueSteps (graph : DependencyGraph) (queue : List Nat) : Nat :=
  (queue.map fun i => 2 * (graph.before i).length + 4).sum + 1

/-- Steps to come, of the parent and of the children it has yet to fork. -/
def Pc.steps (graph : DependencyGraph) : Pc → Nat
  | .noDependencies queue => 2 * queue.length + 1 + queueSteps graph graph.dependencies
  | .dependencies queue => queueSteps graph queue
  | .poll i j queue => j.length + (graph.before i).length + 3 + queueSteps graph queue
  | .wait _ j queue => j.length + 2 + queueSteps graph queue
  | .finished => 0

def Exec.steps (graph : DependencyGraph) (s : Exec) : Nat := s.pc.steps graph + s.children.running

theorem queueSteps_cons (i : Nat) (queue : List Nat) :
    queueSteps graph (i :: queue) =
      2 * (graph.before i).length + 4 + queueSteps graph queue := by
  simp only [queueSteps, List.map_cons, List.sum_cons]
  omega

theorem steps_parent {p : Int} (hs : s.parent graph p = some s') :
    s'.steps graph < s.steps graph := by
  unfold Exec.parent at hs
  unfold Exec.steps
  split at hs
  case h_1 hpc =>
    obtain rfl := Option.some.inj hs
    rw [hpc]
    simp only [Pc.steps, List.length_nil]
    omega
  case h_2 cur queue hpc =>
    obtain ⟨l, hf, rfl⟩ := Option.map_eq_some_iff.1 hs
    have hrun := Children.running_fork hf
    rw [hpc]
    simp only [Pc.steps, List.length_cons]
    omega
  case h_3 hpc =>
    obtain rfl := Option.some.inj hs
    rw [hpc]
    simp only [Pc.steps, queueSteps]
    omega
  case h_4 i queue hpc =>
    obtain rfl := Option.some.inj hs
    rw [hpc]
    simp only [Pc.steps, queueSteps_cons]
    omega
  case h_5 i queue hpc =>
    obtain rfl := Option.some.inj hs
    rw [hpc]
    simp only [Pc.steps, List.length_nil]
    omega
  case h_6 i j js queue hpc =>
    rw [ite_self] at hs
    obtain rfl := Option.some.inj hs
    rw [hpc]
    simp only [Pc.steps, List.length_cons]
    omega
  case h_7 i j js queue hpc =>
    obtain ⟨l, hw, rfl⟩ := Option.map_eq_some_iff.1 hs
    have hrun := (Children.waitpid_aged hw).2
    rw [hpc]
    simp only [Pc.steps, List.length_cons]
    omega
  case h_8 i queue hpc =>
    obtain ⟨l, hf, rfl⟩ := Option.map_eq_some_iff.1 hs
    have hrun := Children.running_fork hf
    rw [hpc]
    simp only [Pc.steps, List.length_nil]
    omega
  case h_9 => cases hs

theorem steps_step {a : Exec.Action} (hs : s.step graph a = some s') :
    s'.steps graph < s.steps graph := by
  rcases a with p | k
  · exact steps_parent hs
  · obtain ⟨l, he, rfl⟩ := Option.map_eq_some_iff.1 hs
    have hrun := (Children.exit_aged he).2
    unfold Exec.steps
    dsimp only
    omega

/-- Until the end the parent can go on, or it waits for a child that is running. -/
theorem exists_step (h : s.pc ≠ .finished) : ∃ a s', s.step graph a = some s' := by
  rcases hpc : s.pc with (_ | ⟨cur, queue⟩) | (_ | ⟨i, queue⟩) | ⟨i, _ | ⟨j, js⟩, queue⟩ |
    ⟨i, _ | ⟨j, js⟩, queue⟩ | _
  · exact ⟨.parent 0, _, by simp only [Exec.step, Exec.parent, hpc]; rfl⟩
  · obtain ⟨p, l, hf⟩ := Children.exists_fork s.children cur
    exact ⟨.parent p, _, by simp only [Exec.step, Exec.parent, hpc, hf]; rfl⟩
  · exact ⟨.parent 0, _, by simp only [Exec.step, Exec.parent, hpc]; rfl⟩
  · exact ⟨.parent 0, _, by simp only [Exec.step, Exec.parent, hpc]; rfl⟩
  · exact ⟨.parent 0, _, by simp only [Exec.step, Exec.parent, hpc]; rfl⟩
  · exact ⟨.parent 0, _, by simp only [Exec.step, Exec.parent, hpc, ite_self]; rfl⟩
  · obtain ⟨p, l, hf⟩ := Children.exists_fork s.children i
    exact ⟨.parent p, _, by simp only [Exec.step, Exec.parent, hpc, hf]; rfl⟩
  · rcases hw : s.children.waitpid (s.pid j) with _ | l
    · obtain ⟨k, l, he⟩ := Children.exists_exit hw
      exact ⟨.exit k, _, by simp only [Exec.step, he]; rfl⟩
    · exact ⟨.parent 0, _, by simp only [Exec.step, Exec.parent, hpc, hw]; rfl⟩
  · exact absurd hpc h

theorem Progress.jobs {jobs : List Nat} {pc : Pc} (h : Progress graph jobs pc) :
    jobs <+: graph.noDependencies ++ graph.dependencies := by
  cases h with
  | @noDependencies _ queue he =>
    exact ⟨queue ++ graph.dependencies, by rw [he, List.append_assoc]⟩
  | dependencies he => exact ⟨_, by rw [he, List.append_assoc]⟩
  | poll he _ => exact ⟨_, by rw [he, List.append_assoc]⟩
  | wait he _ => exact ⟨_, by rw [he, List.append_assoc]⟩
  | finished => exact List.prefix_refl _

/-- Each command is forked at most once, and only when everything in its before list has
terminated; the polling loop never meets a node that has not been started; a run can go on
until the parent is at its end, where every command has been forked, and no run goes on
forever. -/
structure Respected (graph : DependencyGraph) (n : Nat) : Prop where
  once : ∀ h s, (executeGraph graph).Run h s → (s.children.map Child.job).Nodup
  after : ∀ h s, (executeGraph graph).Run h s → ∀ c ∈ s.children, ∀ m ∈ graph.before c.job,
    Finished s.children m
  started : ∀ h s, (executeGraph graph).Run h s → ∀ i j js queue, s.pc = .poll i (j :: js) queue →
    s.pid j ≠ -1
  all : ∀ h s, (executeGraph graph).Run h s → s.pc = .finished →
    (s.children.map Child.job).Perm (List.range n)
  goes_on : ∀ h s, (executeGraph graph).Run h s → s.pc ≠ .finished →
    ∃ a s', (executeGraph graph).Step s a s'
  ends : ∃ N, ∀ h s, (executeGraph graph).Run h s → h.length ≤ N

theorem Ordered.respected (hg : Ordered n graph) : Respected graph n where
  once _ _ hr := hg.nodup.sublist (run_inv hg hr).progress.jobs.sublist
  after _ _ hr := (run_inv hg hr).ready
  started _ _ hr i j js queue hpc := by
    obtain ⟨c, -, -, hpid, hpos⟩ :=
      (run_inv hg hr).before_started hg (.inl hpc) (List.mem_cons_self ..)
    omega
  all _ s hr hpc := by
    have hprog := (run_inv hg hr).progress
    rw [hpc] at hprog
    generalize s.children.map Child.job = jobs at hprog ⊢
    cases hprog with
    | finished => exact hg.perm
  goes_on _ _ _ := exists_step
  ends := by
    refine ⟨Exec.steps graph ⟨fun _ => -1, .noDependencies graph.noDependencies, []⟩,
      fun h s hr => ?_⟩
    obtain ⟨s0, rfl, hle⟩ := hr.length_add_le (m := Exec.steps graph) fun _ _ _ _ => steps_step
    omega

/-- The word `a` with `n` arguments `a`. -/
def manyWords (n : Nat) : Command := .simple 1 (-1) {} (List.replicate (n + 1) ['a'])

theorem length_inputs_manyWords (n : Nat) : (manyWords n).inputs.length = n := by
  simp [manyWords, Command.inputs]

end OsLabs.Shell
