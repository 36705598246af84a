import OsLabs.Shell.ExecuteGraph
import OsLabs.Lib.Processes

/-!
# Time travel: the children at work

The run of `execute_graph` together with what the children do between `fork` and
`_exit`. A child performs `execute_command` on its command, given here as a program
on the store of files: it may read and write the names that stand in its command.
Where the graph has every conflict, the files end up as execution without `-t`, one
command after another, leaves them (`timeTravel_serial`).
-/

namespace OsLabs.Shell

open Children (Finished)
open World (Exited permitted Serially Ready Separated)

/-- The names that stand as inputs or arguments anywhere in the command. -/
def Reads (c : Command) (name : Text) : Prop := ∃ p, Inside c p ∧ ReadsFile p name

def Writes (c : Command) (name : Text) : Prop := ∃ p, Inside c p ∧ WritesFile p name

/-- What the commands do when they are executed. `V` is what a file holds, absence
included. -/
structure Programs (V ρ : Type) where
  program : Command → Program Text V ρ
  start : Command → ρ
  confined : ∀ c, (program c).Confined (Reads c) (Writes c)

section

variable {V ρ : Type} [Inhabited ρ]

/-- The program of node `i`. -/
def Programs.prog (P : Programs V ρ) (commands : List Command) (i : Nat) : Program Text V ρ :=
  (commands[i]?).elim (fun _ => none) P.program

def Programs.initial (P : Programs V ρ) (commands : List Command) (files : Text → V) :
    World Nat Text V ρ where
  loc i := (commands[i]?).elim default P.start
  store := files

/-- The parent with its children, and what the children have done. -/
structure Machine (V ρ : Type) where
  exec : Exec
  world : World Nat Text V ρ

inductive Move where
  /-- The parent goes on, or child `k` calls `_exit`. -/
  | shell (a : Exec.Action)
  /-- The program of child `k` goes on. -/
  | act (k : Nat)

namespace Machine

def goto (m : Machine V ρ) (exec : Exec) : Machine V ρ := { m with exec := exec }

/-- A child performs its command to the end before it calls `_exit`. -/
def step (prog : Nat → Program Text V ρ) (graph : DependencyGraph) (m : Machine V ρ) :
    Move → Option (Machine V ρ)
  | .shell (.parent p) => (m.exec.parent graph p).map m.goto
  | .shell (.exit k) => (m.exec.children[k]?).bind fun c =>
    if Exited prog c.job m.world then (m.exec.step graph (.exit k)).map m.goto else none
  | .act k => (m.exec.children[k]?).bind fun c =>
    if c.state = .running then
      (World.act prog c.job m.world).map fun world => { m with world := world }
    else none

/-- The parent is at its end and so are the children. -/
def Completed (m : Machine V ρ) : Prop :=
  m.exec.pc = .finished ∧ ∀ c ∈ m.exec.children, c.state ≠ .running

end Machine

/-- `execute_graph` on the graph of the commands, with the given files. -/
def timeTravel (P : Programs V ρ) (commands : List Command) (graph : DependencyGraph)
    (files : Text → V) : System (Machine V ρ) Move where
  Init m := (executeGraph graph).Init m.exec ∧ m.world = P.initial commands files
  Step m a m' := m.step (P.prog commands) graph a = some m'

/-- The graph has every conflict between two commands: none is hidden in the
parentheses of a subshell. -/
def AllSeen (commands : List Command) : Prop :=
  ∀ (i j : Nat) (c d : Command), i < j → commands[i]? = some c → commands[j]? = some d →
    Conflict Inside c d → Conflict Outside c d

/-! ## What the children may do -/

variable {P : Programs V ρ} {commands : List Command} {files : Text → V}

omit [Inhabited ρ] in
theorem prog_of_some {i : Nat} {c : Command} (h : commands[i]? = some c) :
    P.prog commands i = P.program c := by
  rw [Programs.prog, h]
  rfl

omit [Inhabited ρ] in
theorem prog_confined (P : Programs V ρ) (commands : List Command) (i : Nat) :
    (P.prog commands i).Confined (fun n => ∃ c, commands[i]? = some c ∧ Reads c n)
      (fun n => ∃ c, commands[i]? = some c ∧ Writes c n) := by
  intro l op h
  rcases hi : commands[i]? with _ | c
  · rw [Programs.prog, hi] at h
    cases h
  · rw [prog_of_some hi] at h
    simpa using P.confined c l op h

theorem conflict_of_shared {c d : Command} {name : Text}
    (h : Writes c name ∧ (Reads d name ∨ Writes d name) ∨
      Writes d name ∧ (Reads c name ∨ Writes c name)) : Conflict Inside c d := by
  rcases h with ⟨⟨p, hp, hw⟩, ⟨q, hq, hr⟩ | ⟨q, hq, hr⟩⟩ | ⟨⟨q, hq, hw⟩, ⟨p, hp, hr⟩ | ⟨p, hp, hr⟩⟩
  · exact ⟨p, q, name, hp, hq, .inl ⟨hw, .inl hr⟩⟩
  · exact ⟨p, q, name, hp, hq, .inl ⟨hw, .inr hr⟩⟩
  · exact ⟨p, q, name, hp, hq, .inr ⟨hw, .inl hr⟩⟩
  · exact ⟨p, q, name, hp, hq, .inr ⟨hw, .inr hr⟩⟩

omit [Inhabited ρ] in
/-- Of two commands the later one waits for the earlier one, or they share no file
that one of them writes. -/
theorem separated_of_lt (hs : AllSeen commands) {i j : Nat} (hij : i < j) :
    i ∈ (graphOf commands).before j ∨ ∃ R W R' W', (P.prog commands i).Confined R W ∧
      (P.prog commands j).Confined R' W' ∧ Apart R W R' W' := by
  by_cases hb : i ∈ (graphOf commands).before j
  · exact .inl hb
  · refine .inr ⟨_, _, _, _, prog_confined P commands i, prog_confined P commands j, fun n => ?_⟩
    have hno : ∀ c d, commands[i]? = some c → commands[j]? = some d → ¬ Conflict Inside c d :=
      fun c d hc hd h => hb (mem_before_iff.2 ⟨hij, c, d, hc, hd, hs i j c d hij hc hd h⟩)
    constructor
    · rintro ⟨c, hc, hw⟩ (⟨d, hd, hr⟩ | ⟨d, hd, hr⟩)
      · exact hno c d hc hd (conflict_of_shared (.inl ⟨hw, .inl hr⟩))
      · exact hno c d hc hd (conflict_of_shared (.inl ⟨hw, .inr hr⟩))
    · rintro ⟨d, hd, hw⟩ (⟨c, hc, hr⟩ | ⟨c, hc, hr⟩)
      · exact hno c d hc hd (conflict_of_shared (.inr ⟨hw, .inl hr⟩))
      · exact hno c d hc hd (conflict_of_shared (.inr ⟨hw, .inr hr⟩))

omit [Inhabited ρ] in
theorem separated (P : Programs V ρ) (hs : AllSeen commands) :
    Separated (P.prog commands) (graphOf commands).before := by
  intro i j hne
  rcases Nat.lt_or_gt_of_ne hne with h | h
  · exact (separated_of_lt hs h).imp_right .inr
  · rcases separated_of_lt (P := P) hs h with hb | ⟨R, W, R', W', hc, hc', hap⟩
    · exact .inr (.inl hb)
    · exact .inr (.inr ⟨R', W', R, W, hc', hc, hap.symm⟩)

omit [Inhabited ρ] in
theorem exited_of_ge {i : Nat} (hi : commands.length ≤ i) (w : World Nat Text V ρ) :
    Exited (P.prog commands) i w := by
  unfold Exited Programs.prog
  rw [List.getElem?_eq_none hi]
  rfl

omit [Inhabited ρ] in
/-- In the order of the script every command stands behind those it waits for. -/
theorem ready_range (w : World Nat Text V ρ) :
    Ready (P.prog commands) (graphOf commands).before w (List.range commands.length) := by
  refine World.ready_of_sorted List.pairwise_lt_range fun j hj m hm => ?_
  obtain ⟨hlt, -⟩ := mem_before_iff.1 hm
  rw [List.mem_range] at *
  omega

/-! ## The invariant -/

/-- A run is a schedule of the programs in which each command waits for those it
depends on; `h` counts what the run has done. -/
structure MachineInv (P : Programs V ρ) (commands : List Command) (files : Text → V) (h : Nat)
    (m : Machine V ρ) : Prop where
  inv : Inv (graphOf commands) m.exec
  exited : ∀ i, Finished m.exec.children i → Exited (P.prog commands) i m.world
  schedule : ∃ a, perform (permitted (P.prog commands) (graphOf commands).before) a
    (P.initial commands files) = some m.world ∧
    h + m.exec.steps (graphOf commands) ≤ Exec.steps (graphOf commands)
      ⟨fun _ => -1, .noDependencies (graphOf commands).noDependencies, []⟩ + a.length

omit [Inhabited ρ] in
theorem parent_finished {graph : DependencyGraph} {s s' : Exec} {p : Int} {i : Nat}
    (hs : s.parent graph p = some s') (hf : Finished s'.children i) : Finished s.children i := by
  unfold Exec.parent at hs
  split at hs
  case h_2 | h_8 =>
    obtain ⟨l, hl, rfl⟩ := Option.map_eq_some_iff.1 hs
    exact Children.finished_of_fork hl hf
  case h_7 =>
    obtain ⟨l, hl, rfl⟩ := Option.map_eq_some_iff.1 hs
    exact Children.finished_of_waitpid hl hf
  case h_6 =>
    rw [ite_self] at hs
    obtain rfl := Option.some.inj hs
    exact hf
  case h_9 => cases hs
  all_goals
    obtain rfl := Option.some.inj hs
    exact hf

variable {h : Nat} {m m' : Machine V ρ}

theorem MachineInv.shell (hm : MachineInv P commands files h m) {a : Exec.Action} {s : Exec}
    (hs : m.exec.step (graphOf commands) a = some s)
    (hx : ∀ i, Finished s.children i → Exited (P.prog commands) i m.world) :
    MachineInv P commands files (h + 1) (m.goto s) := by
  obtain ⟨b, hb, hle⟩ := hm.schedule
  have hlt := steps_step hs
  refine ⟨hm.inv.step (graphOf_ordered commands) hs, hx, b, hb, ?_⟩
  show h + 1 + s.steps (graphOf commands) ≤ _
  omega

theorem MachineInv.act (hm : MachineInv P commands files h m) {c : Child Nat}
    (hc : c ∈ m.exec.children) {w : World Nat Text V ρ}
    (hw : World.act (P.prog commands) c.job m.world = some w) :
    MachineInv P commands files (h + 1) { m with world := w } := by
  obtain ⟨b, hb, hle⟩ := hm.schedule
  have hready : ∀ k ∈ (graphOf commands).before c.job, Exited (P.prog commands) k m.world :=
    fun k hk => hm.exited k (hm.inv.ready c hc k hk)
  refine ⟨hm.inv, fun i hi => (hm.exited i hi).act hw, b ++ [c.job], ?_, ?_⟩
  · rw [perform_append]
    exact ⟨_, hb, perform_cons.2 ⟨w, World.permitted_eq_some.2 ⟨hready, hw⟩, rfl⟩⟩
  · rw [List.length_append, List.length_singleton]
    show h + 1 + m.exec.steps (graphOf commands) ≤ _
    omega

theorem MachineInv.step (hm : MachineInv P commands files h m) {a : Move}
    (hs : (timeTravel P commands (graphOf commands) files).Step m a m') : MachineInv P commands files (h + 1) m' := by
  rcases a with (p | k) | k
  · obtain ⟨s, hp, rfl⟩ := Option.map_eq_some_iff.1 hs
    exact hm.shell (a := .parent p) hp fun i hi => hm.exited i (parent_finished hp hi)
  · obtain ⟨c, hc, hs⟩ := Option.bind_eq_some_iff.1 hs
    split at hs
    · next hx =>
      obtain ⟨s, he, rfl⟩ := Option.map_eq_some_iff.1 hs
      refine hm.shell (a := .exit k) he fun i hi => ?_
      obtain ⟨l, hl, rfl⟩ := Option.map_eq_some_iff.1 he
      rcases Children.finished_of_exit hl hi with hi | ⟨d, hd, rfl⟩
      · exact hm.exited i hi
      · obtain rfl := Option.some.inj (hc.symm.trans hd)
        exact hx
    · cases hs
  · obtain ⟨c, hc, hs⟩ := Option.bind_eq_some_iff.1 hs
    split at hs
    · obtain ⟨w, hw, rfl⟩ := Option.map_eq_some_iff.1 hs
      exact hm.act (List.mem_of_getElem? hc) hw
    · cases hs

theorem run_machineInv {l : List Move} (hr : (timeTravel P commands (graphOf commands) files).Run l m) :
    MachineInv P commands files l.length m := by
  refine hr.inv (I := fun l m => MachineInv P commands files l.length m) ?_
    fun _ _ _ _ hi _ hs => hi.step hs
  rintro m ⟨he, hw⟩
  have he : m.exec = ⟨fun _ => -1, .noDependencies (graphOf commands).noDependencies, []⟩ := he
  refine ⟨he ▸ Inv.init, ?_, [], by rw [hw]; rfl, by simp [he]⟩
  rintro i ⟨c, hc, -⟩
  rw [he] at hc
  cases hc

/-! ## Complete runs -/

theorem MachineInv.all_exited (hm : MachineInv P commands files h m) (hc : m.Completed) (i : Nat) :
    Exited (P.prog commands) i m.world := by
  have hg := graphOf_ordered commands
  rcases Nat.lt_or_ge i commands.length with hi | hi
  · have hprog := hm.inv.progress
    have hjob : i ∈ m.exec.children.map Child.job := by
      rw [hc.1] at hprog
      generalize m.exec.children.map Child.job = jobs at hprog ⊢
      cases hprog with
      | finished => exact hg.perm.mem_iff.2 (List.mem_range.2 hi)
    obtain ⟨c, hmem, rfl⟩ := mem_jobs hjob
    exact hm.exited _ ⟨c, hmem, rfl, hc.2 c hmem⟩
  · exact exited_of_ge hi _

theorem exists_move (P : Programs V ρ) (commands : List Command) (files : Text → V)
    (hm : ¬ m.Completed) : ∃ a m', (timeTravel P commands (graphOf commands) files).Step m a m' := by
  by_cases hrun : ∃ c ∈ m.exec.children, c.state = .running
  · obtain ⟨c, hc, hrun⟩ := hrun
    obtain ⟨k, hk⟩ := List.mem_iff_getElem?.1 hc
    rcases hw : World.act (P.prog commands) c.job m.world with _ | w
    · obtain ⟨l, hl⟩ := Children.exit_of_running hk hrun
      refine ⟨.shell (.exit k), m.goto { m.exec with children := l }, ?_⟩
      show (m.exec.children[k]?).bind _ = _
      rw [hk, Option.bind_some, if_pos (World.act_none.1 hw), Exec.step, hl]
      rfl
    · refine ⟨.act k, { m with world := w }, ?_⟩
      show (m.exec.children[k]?).bind _ = _
      rw [hk, Option.bind_some, if_pos hrun, hw]
      rfl
  · have hpc : m.exec.pc ≠ .finished := fun hpc => hm ⟨hpc, fun c hc hr => hrun ⟨c, hc, hr⟩⟩
    obtain ⟨a, s, hs⟩ := @exists_step (graphOf commands) _ hpc
    rcases a with p | k
    · exact ⟨.shell (.parent p), m.goto s, Option.map_eq_some_iff.2 ⟨s, hs, rfl⟩⟩
    · obtain ⟨l, hl, -⟩ := Option.map_eq_some_iff.1 hs
      exact absurd (Children.running_of_exit hl) hrun

/-- **Time travel is serializable.** Where the graph is built and has every conflict, a run that is
complete has done to the files what the commands do one after another; and when they
come to an end one after another, no run goes on forever, and every run that cannot
go on is complete and has the same files. -/
theorem timeTravel_serial (P : Programs V ρ) (commands : List Command) (files : Text → V)
    {graph : DependencyGraph} (hgraph : createGraph commands = some graph)
    (hs : AllSeen commands) :
    (∀ l m, (timeTravel P commands graph files).Run l m → m.Completed →
      Serially (P.prog commands) (List.range commands.length) (P.initial commands files) m.world) ∧
    ∀ u, Serially (P.prog commands) (List.range commands.length) (P.initial commands files) u →
      (∃ N, ∀ l m, (timeTravel P commands graph files).Run l m → l.length ≤ N) ∧
      ∀ l m, (timeTravel P commands graph files).Run l m →
        (∀ a m', ¬ (timeTravel P commands graph files).Step m a m') → m.Completed ∧ m.world = u := by
  obtain ⟨-, rfl⟩ := createGraph_eq_some.1 hgraph
  have hd := (separated P hs).diamond
  refine ⟨fun l m hr hc => ?_, fun u hu => ?_⟩
  · have hm := run_machineInv hr
    obtain ⟨a, ha, -⟩ := hm.schedule
    refine World.perform_serially hd ha (hm.all_exited hc) (ready_range _) fun i hi => ?_
    exact exited_of_ge (by simpa using hi) _
  obtain ⟨⟨a, ha⟩, hx, -⟩ := World.serially_perform hu (ready_range _)
  have hstuck := World.stuck_of_exited (graphOf commands).before fun i => by
    rcases Nat.lt_or_ge i commands.length with hi | hi
    · exact hx i (List.mem_range.2 hi)
    · exact exited_of_ge hi _
  refine ⟨⟨Exec.steps (graphOf commands)
    ⟨fun _ => -1, .noDependencies (graphOf commands).noDependencies, []⟩ + a.length,
    fun l m hr => ?_⟩, fun l m hr hno => ?_⟩
  · obtain ⟨b, hb, hle⟩ := (run_machineInv hr).schedule
    have := hd.length_le ha hstuck hb
    omega
  · have hc : m.Completed := by
      by_contra hc
      obtain ⟨a, m', hstep⟩ := exists_move P commands files hc
      exact hno a m' hstep
    have hm := run_machineInv hr
    obtain ⟨b, hb, -⟩ := hm.schedule
    exact ⟨hc, hd.unique ha hstuck hb (World.stuck_of_exited _ (hm.all_exited hc))⟩

end

/-- `echo` puts 7 into `f`, and `cat` keeps what it reads there. -/
def echoCat : Programs Nat Nat where
  program c l :=
    if l = 0 ∧ c = writeF then some fun st => (1, Function.update st ['f'] 7)
    else if l = 0 ∧ c = readF then some fun st => (1 + st ['f'], st)
    else none
  start _ := 0
  confined c l op h := by
    dsimp only at h
    split at h
    · next hc =>
      obtain rfl := Option.some.inj h
      have hw : Writes c ['f'] := ⟨c, .refl _, by rw [hc.2]; rfl⟩
      refine ⟨fun st n hn => Function.update_of_ne (fun he => hn ?_) .., fun _ _ _ => rfl,
        fun st st' hst n hn => ?_⟩
      · rwa [he]
      by_cases he : n = ['f']
      · simp [he]
      · simpa [Function.update_of_ne he] using hst n (.inr hn)
    · split at h
      · next hc =>
        obtain rfl := Option.some.inj h
        have hr : Reads c ['f'] := ⟨c, .refl _, by rw [hc.2]; exact .inr ⟨by decide, by decide⟩⟩
        exact ⟨fun _ _ _ => rfl, fun st st' hst => congrArg (1 + ·) (hst ['f'] (.inl hr)),
          fun st st' hst n hn => hst n (.inr hn)⟩
      · cases h

/-- The graph of `echo a > f` and `cat f`. -/
def echoCatGraph : DependencyGraph where
  gnArr := [⟨writeF, [], writeF.files⟩, ⟨readF, [0], readF.files⟩]
  noDependencies := [0]
  dependencies := [1]

/-- `echo a > f` and `cat f` under `-t`: `cat` sees what `echo` wrote in every run. -/
theorem timeTravel_serial_echoCat : createGraph [writeF, readF] = some echoCatGraph ∧
    (∃ N, ∀ l m, (timeTravel echoCat [writeF, readF] echoCatGraph fun _ => 0).Run l m →
      l.length ≤ N) ∧
    ∀ l m, (timeTravel echoCat [writeF, readF] echoCatGraph fun _ => 0).Run l m →
      (∀ a m', ¬ (timeTravel echoCat [writeF, readF] echoCatGraph fun _ => 0).Step m a m') →
      m.Completed ∧ m.world.store ['f'] = 7 ∧ m.world.loc 1 = 8 := by
  have hgraph : createGraph [writeF, readF] = some echoCatGraph := by decide
  have hseen : AllSeen [writeF, readF] := by
    intro i j c d hij hi hj _
    obtain ⟨hj', hd⟩ := List.getElem?_eq_some_iff.1 hj
    have hj' : j < 2 := hj'
    obtain ⟨rfl, rfl⟩ : i = 0 ∧ j = 1 := by omega
    obtain rfl := Option.some.inj hi
    obtain rfl := Option.some.inj hj
    exact ⟨writeF, readF, ['f'], .refl _, .refl _, .inl ⟨rfl, .inl (.inr ⟨by decide, by decide⟩)⟩⟩
  obtain ⟨hbound, hend⟩ := (timeTravel_serial echoCat [writeF, readF] (fun _ => 0) hgraph hseen).2 _
    (.act rfl (.exit rfl (.act rfl (.exit rfl (.nil _)))))
  refine ⟨hgraph, hbound, fun l m hr hno => ?_⟩
  obtain ⟨hc, hw⟩ := hend l m hr hno
  exact ⟨hc, by rw [hw]; rfl, by rw [hw]; rfl⟩

end OsLabs.Shell
