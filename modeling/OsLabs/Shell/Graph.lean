import OsLabs.Shell.Command
import Mathlib.Data.List.Range

/-!
# Time travel: the dependency graph

`createGraph` of `main.c`. A pointer to a graph node is the node's index in
`gnArr`; a queue is the list of the nodes behind its head. Nothing tests that a
name still fits into the 1024 entries of `item`, or a node into those of `gnArr`:
a store behind them has no result. `graphOf` is the graph where all fit
(`createGraph_eq`).
-/

namespace OsLabs.Shell

/-- `m_readList` and `m_writeList`. -/
structure FileLists where
  readList : List Text := []
  writeList : List Text := []
  deriving DecidableEq, Repr

/-- The entries of `item` in `struct arr`, and those of `gnArr`. -/
def arrRoom : Nat := 1024

namespace FileLists

def addRead (g : FileLists) (name : Text) : Option FileLists :=
  if g.readList.length < arrRoom then some { g with readList := g.readList ++ [name] } else none

def addWrite (g : FileLists) (name : Text) : Option FileLists :=
  if g.writeList.length < arrRoom then some { g with writeList := g.writeList ++ [name] } else none

/-- The first two tests of `processCommand`. -/
def addRedirect (g : FileLists) (io : Redirect) : Option FileLists :=
  (match io.input with
    | none => some g
    | some name => g.addRead name).bind fun g =>
  match io.output with
  | none => some g
  | some name => g.addWrite name

/-- The loop over the argument words. -/
def addWords : FileLists → List Text → Option FileLists
  | g, [] => some g
  | g, word :: words =>
    if word.head? ≠ some '-' then (g.addRead word).bind fun g => addWords g words
    else addWords g words

end FileLists

def processCommand : Command → FileLists → Option FileLists
  | .simple _ _ io word, g => (g.addRedirect io).bind fun g => g.addWords (word.drop 1)
  | .subshell _ _ io _, g => g.addRedirect io
  | .compound _ _ _ _ c0 c1, g => (processCommand c0 g).bind (processCommand c1)

/-- `struct graph_node`, without the process id. -/
structure GraphNode where
  command : Command
  before : List Nat
  files : FileLists
  deriving DecidableEq, Repr

/-- `isDependent`, where `n1` is the leading node. -/
def isDependent (n1 n2 : FileLists) : Bool :=
  n2.readList.any (fun r => n1.writeList.any (fun w => r == w)) ||
    n2.writeList.any fun w =>
      n1.readList.any (fun r => w == r) || n1.writeList.any fun w1 => w == w1

/-- `checkDependency`: the queue of nodes the last node depends on. -/
def checkDependency (gnArr : List GraphNode) (files : FileLists) : List Nat :=
  (List.range gnArr.length).filter fun i =>
    (gnArr[i]?).any fun n => isDependent n.files files

/-- `struct dependency_graph` with the array of all nodes. -/
structure DependencyGraph where
  gnArr : List GraphNode := []
  noDependencies : List Nat := []
  dependencies : List Nat := []
  deriving DecidableEq, Repr

namespace DependencyGraph

/-- The last node gets its dependencies and joins one of the queues. -/
def addNode (graph : DependencyGraph) (command : Command) (files : FileLists) : DependencyGraph :=
  let before := checkDependency graph.gnArr files
  let gnCount := graph.gnArr.length
  let gnArr := graph.gnArr ++ [⟨command, before, files⟩]
  if before = [] then
    { graph with gnArr := gnArr, noDependencies := graph.noDependencies ++ [gnCount] }
  else { graph with gnArr := gnArr, dependencies := graph.dependencies ++ [gnCount] }

/-- One iteration of `create_graph`. -/
def addCommand (graph : DependencyGraph) (command : Command) : Option DependencyGraph :=
  if graph.gnArr.length < arrRoom then
    (processCommand command {}).map fun files => graph.addNode command files
  else none

end DependencyGraph

def createGraph (commands : List Command) : Option DependencyGraph :=
  commands.foldlM DependencyGraph.addCommand {}

/-- The before list of a node. -/
def DependencyGraph.before (graph : DependencyGraph) (i : Nat) : List Nat :=
  ((graph.gnArr[i]?).map GraphNode.before).getD []

/-! ## Reads and writes of a command -/

/-- `d` stands anywhere in the tree of `c`. -/
inductive Inside : Command → Command → Prop where
  | refl (c : Command) : Inside c c
  | subshell {line status : Int} {io : Redirect} {c d : Command} :
      Inside c d → Inside (.subshell line status io c) d
  | left {type : CommandType} {line status : Int} {io : Redirect} {c0 c1 d : Command} :
      Inside c0 d → Inside (.compound type line status io c0 c1) d
  | right {type : CommandType} {line status : Int} {io : Redirect} {c0 c1 d : Command} :
      Inside c1 d → Inside (.compound type line status io c0 c1) d

/-- `d` stands in the tree of `c` outside the parentheses of every subshell. -/
inductive Outside : Command → Command → Prop where
  | refl (c : Command) : Outside c c
  | left {type : CommandType} {line status : Int} {io : Redirect} {c0 c1 d : Command} :
      Outside c0 d → Outside (.compound type line status io c0 c1) d
  | right {type : CommandType} {line status : Int} {io : Redirect} {c0 c1 d : Command} :
      Outside c1 d → Outside (.compound type line status io c0 c1) d

theorem Outside.inside {c d : Command} (h : Outside c d) : Inside c d := by
  induction h with
  | refl c => exact .refl c
  | left _ ih => exact .left ih
  | right _ ih => exact .right ih

/-- A simple command or subshell redirects its output to the name. -/
def WritesFile : Command → Text → Prop
  | .simple _ _ io _, name => io.output = some name
  | .subshell _ _ io _, name => io.output = some name
  | .compound .., _ => False

/-- It redirects its input from the name, or has it as a non-option argument. -/
def ReadsFile : Command → Text → Prop
  | .simple _ _ io word, name =>
    io.input = some name ∨ (name ∈ word.drop 1 ∧ name.head? ≠ some '-')
  | .subshell _ _ io _, name => io.input = some name
  | .compound .., _ => False

/-- Two commands share a name that one of them writes, in the parts that the
relation `R` of a tree to its parts admits. -/
def Conflict (R : Command → Command → Prop) (c d : Command) : Prop :=
  ∃ p q name, R c p ∧ R d q ∧
    ((WritesFile p name ∧ (ReadsFile q name ∨ WritesFile q name)) ∨
      (WritesFile q name ∧ (ReadsFile p name ∨ WritesFile p name)))

/-! ## The lists of a command -/

namespace Command

/-- The names that `processCommand` puts on the read list, in order. -/
def inputs : Command → List Text
  | .simple _ _ io word => io.input.toList ++ (word.drop 1).filter fun w => w.head? ≠ some '-'
  | .subshell _ _ io _ => io.input.toList
  | .compound _ _ _ _ c0 c1 => inputs c0 ++ inputs c1

/-- The names that it puts on the write list. -/
def outputs : Command → List Text
  | .simple _ _ io _ => io.output.toList
  | .subshell _ _ io _ => io.output.toList
  | .compound _ _ _ _ c0 c1 => outputs c0 ++ outputs c1

def files (c : Command) : FileLists := ⟨c.inputs, c.outputs⟩

end Command

namespace FileLists

/-- The names go behind those that are there. -/
def add (g : FileLists) (inputs outputs : List Text) : FileLists :=
  ⟨g.readList ++ inputs, g.writeList ++ outputs⟩

def HasRoom (g : FileLists) : Prop := g.readList.length ≤ arrRoom ∧ g.writeList.length ≤ arrRoom

instance (g : FileLists) : Decidable g.HasRoom := instDecidableAnd

/-- The lists with more names behind them, if they have room. -/
def addIf (g : FileLists) (inputs outputs : List Text) : Option FileLists :=
  if (g.add inputs outputs).HasRoom then some (g.add inputs outputs) else none

theorem addIf_bind (g : FileLists) (i o i' o' : List Text) :
    ((g.addIf i o).bind fun g => g.addIf i' o') = g.addIf (i ++ i') (o ++ o') := by
  unfold addIf
  by_cases h : (g.add i o).HasRoom
  · rw [if_pos h, Option.bind_some]
    simp only [add, List.append_assoc]
    rfl
  · have h' : ¬ (g.add (i ++ i') (o ++ o')).HasRoom := by
      simp only [HasRoom, add, List.length_append] at h ⊢
      omega
    rw [if_neg h, if_neg h']
    rfl

variable {g : FileLists}

theorem addIf_nil (hg : g.HasRoom) : g.addIf [] [] = some g := by
  have h : g.add [] [] = g := by simp [add]
  rw [addIf, h, if_pos hg]

theorem addRead_eq (hg : g.HasRoom) (name : Text) : g.addRead name = g.addIf [name] [] := by
  unfold addRead addIf HasRoom add
  simp only [List.length_append, List.length_singleton, List.append_nil, Nat.succ_le_iff, hg.2,
    and_true]

theorem addWrite_eq (hg : g.HasRoom) (name : Text) : g.addWrite name = g.addIf [] [name] := by
  unfold addWrite addIf HasRoom add
  simp only [List.length_append, List.length_singleton, List.append_nil, Nat.succ_le_iff, hg.1,
    true_and]

theorem hasRoom_of_addIf {i o : List Text} {g' : FileLists} (h : g.addIf i o = some g') :
    g'.HasRoom := by
  unfold addIf at h
  split at h
  · next hr => exact Option.some.inj h ▸ hr
  · cases h

/-- Steps that add names one after another. -/
theorem bind_addIf {i o p q : List Text} {f : FileLists → Option FileLists}
    (hf : ∀ g : FileLists, g.HasRoom → f g = g.addIf p q) :
    (g.addIf i o).bind f = g.addIf (i ++ p) (o ++ q) := by
  rw [← addIf_bind]
  cases h : g.addIf i o with
  | none => rfl
  | some g' => exact hf g' (hasRoom_of_addIf h)

theorem addRedirect_eq (hg : g.HasRoom) (io : Redirect) :
    g.addRedirect io = g.addIf io.input.toList io.output.toList := by
  have hin : (match io.input with
      | none => some g
      | some name => g.addRead name) = g.addIf io.input.toList [] := by
    cases io.input with
    | none => exact (addIf_nil hg).symm
    | some name => exact addRead_eq hg name
  unfold addRedirect
  rw [hin, bind_addIf (p := []) (q := io.output.toList) fun g hg => ?_,
    List.append_nil, List.nil_append]
  cases io.output with
  | none => exact (addIf_nil hg).symm
  | some name => exact addWrite_eq hg name

theorem addWords_eq (words : List Text) : ∀ {g : FileLists}, g.HasRoom →
    g.addWords words = g.addIf (words.filter fun w => w.head? ≠ some '-') [] := by
  induction words with
  | nil => exact fun hg => (addIf_nil hg).symm
  | cons word words ih =>
    intro g hg
    rw [addWords]
    by_cases hw : word.head? = some '-'
    · rw [if_neg (by simp [hw]), ih hg, List.filter_cons_of_neg (by simp [hw])]
    · rw [if_pos hw, List.filter_cons_of_pos (by simp [hw]), addRead_eq hg,
        bind_addIf fun g hg => ih hg]
      rfl

end FileLists

/-- **The lists of a command**: the names stand in order, as long as they have room. -/
theorem processCommand_eq (c : Command) : ∀ {g : FileLists}, g.HasRoom →
    processCommand c g = g.addIf c.inputs c.outputs := by
  induction c with
  | simple line status io word =>
    intro g hg
    rw [processCommand, FileLists.addRedirect_eq hg,
      FileLists.bind_addIf fun g hg => FileLists.addWords_eq (word.drop 1) hg, List.append_nil]
    rfl
  | subshell line status io c _ => exact fun hg => FileLists.addRedirect_eq hg io
  | compound type line status io c0 c1 ih0 ih1 =>
    intro g hg
    rw [processCommand, ih0 hg, FileLists.bind_addIf fun g hg => ih1 hg]
    rfl

theorem outside_simple {line status : Int} {io : Redirect} {word : List Text} {p : Command} :
    Outside (.simple line status io word) p ↔ p = .simple line status io word := by
  constructor
  · intro h
    cases h
    rfl
  · rintro rfl
    exact .refl _

theorem outside_subshell {line status : Int} {io : Redirect} {c p : Command} :
    Outside (.subshell line status io c) p ↔ p = .subshell line status io c := by
  constructor
  · intro h
    cases h
    rfl
  · rintro rfl
    exact .refl _

theorem exists_outside_compound {type : CommandType} {line status : Int} {io : Redirect}
    {c0 c1 : Command} {P : Command → Prop} (hP : ¬ P (.compound type line status io c0 c1)) :
    (∃ p, Outside (.compound type line status io c0 c1) p ∧ P p) ↔
      (∃ p, Outside c0 p ∧ P p) ∨ ∃ p, Outside c1 p ∧ P p := by
  constructor
  · rintro ⟨p, h, hp⟩
    cases h with
    | refl => exact absurd hp hP
    | left h => exact .inl ⟨p, h, hp⟩
    | right h => exact .inr ⟨p, h, hp⟩
  · rintro (⟨p, h, hp⟩ | ⟨p, h, hp⟩)
    · exact ⟨p, .left h, hp⟩
    · exact ⟨p, .right h, hp⟩

/-- The lists hold what the parts outside subshells read and write. -/
theorem mem_inputs (c : Command) (name : Text) :
    name ∈ c.inputs ↔ ∃ p, Outside c p ∧ ReadsFile p name := by
  induction c with
  | simple line status io word =>
    simp only [outside_simple, exists_eq_left, ReadsFile, Command.inputs, List.mem_append,
      Option.mem_toList, List.mem_filter, decide_eq_true_eq]
  | subshell line status io c _ =>
    simp only [outside_subshell, exists_eq_left, ReadsFile, Command.inputs, Option.mem_toList]
  | compound type line status io c0 c1 ih0 ih1 =>
    rw [exists_outside_compound (P := fun p => ReadsFile p name) id, Command.inputs,
      List.mem_append, ih0, ih1]

theorem mem_outputs (c : Command) (name : Text) :
    name ∈ c.outputs ↔ ∃ p, Outside c p ∧ WritesFile p name := by
  induction c with
  | simple line status io word =>
    simp only [outside_simple, exists_eq_left, WritesFile, Command.outputs, Option.mem_toList]
  | subshell line status io c _ =>
    simp only [outside_subshell, exists_eq_left, WritesFile, Command.outputs, Option.mem_toList]
  | compound type line status io c0 c1 ih0 ih1 =>
    rw [exists_outside_compound (P := fun p => WritesFile p name) id, Command.outputs,
      List.mem_append, ih0, ih1]

theorem isDependent_iff (c d : Command) :
    isDependent c.files d.files = true ↔ Conflict Outside c d := by
  unfold isDependent Conflict Command.files
  simp only [Bool.or_eq_true, List.any_eq_true, beq_iff_eq, mem_inputs, mem_outputs]
  constructor
  · rintro (⟨r, ⟨q, hq, hr⟩, w, ⟨p, hp, hw⟩, rfl⟩ | ⟨w, ⟨q, hq, hw⟩, h⟩)
    · exact ⟨p, q, r, hp, hq, .inl ⟨hw, .inl hr⟩⟩
    · rcases h with ⟨r, ⟨p, hp, hr⟩, rfl⟩ | ⟨r, ⟨p, hp, hr⟩, rfl⟩
      · exact ⟨p, q, w, hp, hq, .inr ⟨hw, .inl hr⟩⟩
      · exact ⟨p, q, w, hp, hq, .inr ⟨hw, .inr hr⟩⟩
  · rintro ⟨p, q, name, hp, hq, ⟨hw, hr | hw'⟩ | ⟨hw, hr | hw'⟩⟩
    · exact .inl ⟨name, ⟨q, hq, hr⟩, name, ⟨p, hp, hw⟩, rfl⟩
    · exact .inr ⟨name, ⟨q, hq, hw'⟩, .inr ⟨name, ⟨p, hp, hw⟩, rfl⟩⟩
    · exact .inr ⟨name, ⟨q, hq, hw⟩, .inl ⟨name, ⟨p, hp, hr⟩, rfl⟩⟩
    · exact .inr ⟨name, ⟨q, hq, hw⟩, .inr ⟨name, ⟨p, hp, hw'⟩, rfl⟩⟩

/-! ## The graph of a command stream -/

/-- Node `i` of the graph, for the command `c` there. -/
def nodeAt (commands : List Command) (i : Nat) (c : Command) : GraphNode where
  command := c
  before := (List.range i).filter fun k =>
    (commands[k]?).any fun b => isDependent b.files c.files
  files := c.files

/-- The graph where every name and every node has room. -/
def graphOf (commands : List Command) : DependencyGraph :=
  commands.foldl (fun graph c => graph.addNode c c.files) {}

theorem graphOf_concat (commands : List Command) (c : Command) :
    graphOf (commands ++ [c]) = (graphOf commands).addNode c c.files :=
  List.foldl_append ..

theorem addNode_gnArr (graph : DependencyGraph) (c : Command) (files : FileLists) :
    (graph.addNode c files).gnArr = graph.gnArr ++
      [⟨c, checkDependency graph.gnArr files, files⟩] := by
  unfold DependencyGraph.addNode
  dsimp only
  split <;> rfl

theorem nodeAt_append (commands : List Command) (c d : Command) {i : Nat}
    (h : i ≤ commands.length) : nodeAt (commands ++ [c]) i d = nodeAt commands i d := by
  unfold nodeAt
  congr 1
  apply List.filter_congr
  intro k hk
  rw [List.getElem?_append_left (by have := List.mem_range.1 hk; omega)]

/-- Every node depends on the earlier commands that `isDependent` finds. -/
theorem graphOf_gnArr (commands : List Command) :
    (graphOf commands).gnArr.length = commands.length ∧
      ∀ i, (graphOf commands).gnArr[i]? = (commands[i]?).map (nodeAt commands i) := by
  induction commands using List.reverseRecOn with
  | nil => simp [graphOf]
  | append_singleton commands c ih =>
    obtain ⟨hlen, hget⟩ := ih
    rw [graphOf_concat, addNode_gnArr]
    refine ⟨by simp [hlen], fun i => ?_⟩
    rcases Nat.lt_trichotomy i commands.length with h | h | h
    · rw [List.getElem?_append_left (by omega), List.getElem?_append_left h, hget]
      rcases commands[i]? with _ | d
      · rfl
      · exact congrArg some (nodeAt_append commands c d (by omega)).symm
    · have hnode : checkDependency (graphOf commands).gnArr c.files =
          (nodeAt commands i c).before := by
        unfold checkDependency nodeAt
        rw [hlen, h]
        apply List.filter_congr
        intro k _
        rw [hget]
        cases commands[k]? <;> rfl
      rw [List.getElem?_append_right (by omega), List.getElem?_append_right (by omega), hnode,
        nodeAt_append commands c c (by omega) |>.symm]
      simp [hlen, h, nodeAt]
    · rw [List.getElem?_eq_none (by simp; omega), List.getElem?_eq_none (by simp; omega)]
      rfl

theorem mem_before_iff {commands : List Command} {i j : Nat} :
    i ∈ (graphOf commands).before j ↔ i < j ∧
      ∃ c d, commands[i]? = some c ∧ commands[j]? = some d ∧ Conflict Outside c d := by
  unfold DependencyGraph.before
  rw [(graphOf_gnArr commands).2 j]
  rcases hj : commands[j]? with _ | d
  · simp
  simp only [Option.map_some, Option.getD_some, nodeAt, List.mem_filter, List.mem_range]
  rcases hi : commands[i]? with _ | c
  · simp
  · simp [isDependent_iff]

/-- At most 1024 commands, each with at most 1024 names to read and to write. -/
def HasRoom (commands : List Command) : Prop :=
  commands.length ≤ arrRoom ∧ ∀ c ∈ commands, c.files.HasRoom

instance (commands : List Command) : Decidable (HasRoom commands) := instDecidableAnd

theorem addCommand_eq {graph : DependencyGraph} (h : graph.gnArr.length < arrRoom) (c : Command) :
    graph.addCommand c = if c.files.HasRoom then some (graph.addNode c c.files) else none := by
  have hempty : FileLists.HasRoom {} := ⟨Nat.zero_le _, Nat.zero_le _⟩
  have hfiles : FileLists.add {} c.inputs c.outputs = c.files := rfl
  rw [DependencyGraph.addCommand, if_pos h, processCommand_eq c hempty, FileLists.addIf, hfiles]
  split <;> rfl

theorem foldlM_addCommand (commands : List Command) : ∀ {graph : DependencyGraph},
    graph.gnArr.length ≤ arrRoom → commands.foldlM DependencyGraph.addCommand graph =
      if graph.gnArr.length + commands.length ≤ arrRoom ∧ ∀ c ∈ commands, c.files.HasRoom then
        some (commands.foldl (fun graph c => graph.addNode c c.files) graph)
      else none := by
  induction commands with
  | nil =>
    intro graph h
    rw [if_pos ⟨h, by simp⟩]
    rfl
  | cons c commands ih =>
    intro graph h
    have hlen : (graph.addNode c c.files).gnArr.length = graph.gnArr.length + 1 := by
      rw [addNode_gnArr, List.length_append, List.length_singleton]
    simp only [List.foldlM_cons, List.foldl_cons, List.length_cons, List.forall_mem_cons]
    rcases Nat.lt_or_ge graph.gnArr.length arrRoom with hlt | hge
    · rw [addCommand_eq hlt]
      by_cases hc : c.files.HasRoom
      · rw [if_pos hc, Option.bind_eq_bind, Option.bind_some, ih (by omega), hlen]
        simp only [hc, true_and, Nat.add_assoc, Nat.add_comm 1]
      · rw [if_neg hc, if_neg fun h => hc h.2.1]
        rfl
    · rw [DependencyGraph.addCommand, if_neg (by omega), if_neg fun h => by omega]
      rfl

/-- `create_graph` has a result when all names and nodes have room. -/
theorem createGraph_eq (commands : List Command) :
    createGraph commands = if HasRoom commands then some (graphOf commands) else none := by
  have hempty : ({} : DependencyGraph).gnArr.length ≤ arrRoom := Nat.zero_le _
  have h := foldlM_addCommand commands hempty
  rw [show ({} : DependencyGraph).gnArr.length = 0 from rfl, Nat.zero_add] at h
  exact h

theorem createGraph_eq_some {commands : List Command} {graph : DependencyGraph} :
    createGraph commands = some graph ↔ HasRoom commands ∧ graph = graphOf commands := by
  rw [createGraph_eq]
  split
  · next h => exact ⟨fun he => ⟨h, (Option.some.inj he).symm⟩, fun he => congrArg some he.2.symm⟩
  · next h => exact ⟨nofun, fun he => absurd he.1 h⟩

/-- **Time travel finds a conflict** exactly when all names and nodes have room and it finds
a part of the conflict outside the parentheses of every subshell. -/
theorem conflict_found {commands : List Command} {i j : Nat} {c d : Command} (hij : i < j)
    (hc : commands[i]? = some c) (hd : commands[j]? = some d) :
    (Conflict Inside c d → ∃ graph, createGraph commands = some graph ∧ i ∈ graph.before j) ↔
      (Conflict Inside c d → HasRoom commands ∧ Conflict Outside c d) := by
  refine imp_congr_right fun _ => ?_
  simp only [createGraph_eq_some]
  constructor
  · rintro ⟨_, ⟨hroom, rfl⟩, hbefore⟩
    obtain ⟨-, c', d', hc', hd', h⟩ := mem_before_iff.1 hbefore
    rw [hc] at hc'
    rw [hd] at hd'
    cases hc'
    cases hd'
    exact ⟨hroom, h⟩
  · rintro ⟨hroom, h⟩
    exact ⟨_, ⟨hroom, rfl⟩, mem_before_iff.2 ⟨hij, c, d, hc, hd, h⟩⟩

/-- `echo a > f`. -/
def writeF : Command :=
  .simple 1 (-1) { output := some ['f'] } [['e', 'c', 'h', 'o'], ['a']]

/-- `cat f`. -/
def readF : Command := .simple 2 (-1) {} [['c', 'a', 't'], ['f']]

theorem conflict_found_plain : Conflict Inside writeF readF ∧
    ∃ graph, createGraph [writeF, readF] = some graph ∧ 0 ∈ graph.before 1 := by
  have hout : Conflict Outside writeF readF :=
    ⟨writeF, readF, ['f'], .refl _, .refl _, .inl ⟨rfl, .inl (.inr ⟨by decide, by decide⟩)⟩⟩
  have hin : Conflict Inside writeF readF :=
    ⟨writeF, readF, ['f'], .refl _, .refl _, .inl ⟨rfl, .inl (.inr ⟨by decide, by decide⟩)⟩⟩
  have hfirst : [writeF, readF][0]? = some writeF := rfl
  have hsecond : [writeF, readF][1]? = some readF := rfl
  exact ⟨hin, (conflict_found (by decide) hfirst hsecond).2 (fun _ => ⟨by decide, hout⟩) hin⟩

/-- `(echo a > f)` and then `cat f`: the file written inside the parentheses is not seen. -/
theorem conflict_hidden : ∃ c d graph, [Command.subshell 1 (-1) {} writeF, readF][0]? = some c ∧
    [Command.subshell 1 (-1) {} writeF, readF][1]? = some d ∧ Conflict Inside c d ∧
    createGraph [Command.subshell 1 (-1) {} writeF, readF] = some graph ∧
    0 ∉ graph.before 1 := by
  refine ⟨_, _, _, rfl, rfl, ⟨writeF, readF, ['f'], .subshell (.refl _), .refl _, .inl ?_⟩, rfl,
    by decide⟩
  exact ⟨rfl, .inl (.inr ⟨by decide, by decide⟩)⟩

end OsLabs.Shell
