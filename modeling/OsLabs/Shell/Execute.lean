import OsLabs.Shell.Command

/-!
# Running commands

`executeCommand` of `execute-command.c`. What happens outside the shell is given
by an `Env`: whether files can be opened, how the programs end, and which child of
a pipe is reaped first. A `Path` is a place in the command tree; `fork` and `pipe`
succeed. `ran` lists the calls of `execute_command`, those in forked children
included.
-/

namespace OsLabs.Shell

/-- A place in a tree: `false` is the left part or the body of a subshell. -/
abbrev Path := List Bool

/-- How a process ends. -/
inductive Ended where
  | exited (code : UInt8)
  | signaled (sig : UInt8)
  deriving DecidableEq, Repr

/-- The status word that `waitpid` stores. -/
def Ended.status : Ended → Nat
  | .exited code => code.toNat * 256
  | .signaled sig => sig.toNat

/-- `WEXITSTATUS`. -/
def wexitstatus (status : Nat) : Nat := status / 256 % 256

def Ended.exitCode (e : Ended) : Nat := wexitstatus e.status

structure Env where
  /-- The files of the redirections can be opened. -/
  opens : Path → Bool
  /-- How the process ends that runs the program of a simple command. -/
  ends : Path → Ended
  /-- The first `waitpid` of a pipe returns the right-hand child. -/
  rightFirst : Path → Bool

/-- `execute_command` returns with `c->status` set, or its process has ended. -/
inductive Outcome where
  | returned (status : Int)
  | gone (e : Ended)
  deriving DecidableEq, Repr

structure Execution where
  outcome : Outcome
  ran : List (Path × Command)

/-- `redirect`, which leaves the process where a file cannot be opened. -/
def Env.redirect (env : Env) (p : Path) (io : Redirect) : Bool :=
  (io.input.isNone && io.output.isNone) || env.opens p

/-- The end of a forked child that calls `execute_command` and then `_exit`. -/
def Outcome.childEnd : Outcome → Ended
  | .returned status => .exited (.ofInt status)
  | .gone e => e

def execWord : Text := ['e', 'x', 'e', 'c']

/-- `exe_simple_command` with `exe_exec_command`. -/
def exeSimpleCommand (env : Env) (p : Path) (io : Redirect) (word : List Text) : Outcome :=
  if env.redirect p io then
    match word with
    -- strcmp with a null pointer
    | [] => .gone (.signaled 11)
    | w :: _ => if w = execWord then .gone (env.ends p) else .returned (env.ends p).exitCode
  else .gone (.exited 1)

def exeSequenceCommand (left right : Execution) : Execution :=
  match left.outcome with
  | .gone e => ⟨.gone e, left.ran⟩
  | .returned _ => ⟨right.outcome, left.ran ++ right.ran⟩

def exeAndCommand (left right : Execution) : Execution :=
  match left.outcome with
  | .gone e => ⟨.gone e, left.ran⟩
  | .returned status =>
    if status = 0 then ⟨right.outcome, left.ran ++ right.ran⟩ else ⟨.returned status, left.ran⟩

def exeOrCommand (left right : Execution) : Execution :=
  match left.outcome with
  | .gone e => ⟨.gone e, left.ran⟩
  | .returned status =>
    if status ≠ 0 then ⟨right.outcome, left.ran ++ right.ran⟩ else ⟨.returned status, left.ran⟩

/-- `exe_pipe_command`: both parts run in children, and the status is that of the
child reaped last. -/
def exePipeCommand (rightFirst : Bool) (left right : Execution) : Execution :=
  let last := if rightFirst then left.outcome.childEnd else right.outcome.childEnd
  ⟨.returned last.exitCode, left.ran ++ right.ran⟩

def exeCompoundCommand (type : CommandType) (rightFirst : Bool) (left right : Execution) :
    Execution :=
  match type with
  | .sequenceCommand => exeSequenceCommand left right
  | .andCommand => exeAndCommand left right
  | .orCommand => exeOrCommand left right
  | .pipeCommand => exePipeCommand rightFirst left right

/-- `execute_command`. -/
def executeCommand (env : Env) (p : Path) (c : Command) : Execution :=
  match c with
  | .simple _ _ io word => ⟨exeSimpleCommand env p io word, [(p, c)]⟩
  | .subshell _ _ io d =>
    if env.redirect p io then
      let inner := executeCommand env (p ++ [false]) d
      ⟨inner.outcome, (p, c) :: inner.ran⟩
    else ⟨.gone (.exited 1), [(p, c)]⟩
  | .compound type _ _ _ c0 c1 =>
    let r := exeCompoundCommand type (env.rightFirst p) (executeCommand env (p ++ [false]) c0)
      (executeCommand env (p ++ [true]) c1)
    ⟨r.outcome, (p, c) :: r.ran⟩

/-! ## The meaning of a command -/

/-- The status of a command that was run: for a process that is gone its exit code;
death by a signal counts as failure. -/
inductive Outcome.Shows : Outcome → Int → Prop where
  | returned (status : Int) : Shows (.returned status) status
  | exited (code : UInt8) : Shows (.gone (.exited code)) code.toNat
  | signaled (sig : UInt8) {status : Int} : status ≠ 0 → Shows (.gone (.signaled sig)) status

/-- The word list names a program to be run in a child. -/
def IsProgram (word : List Text) : Prop := word ≠ [] ∧ word.head? ≠ some execWord

/-- The shell's rules for the status of each form of command. -/
inductive Means (env : Env) : Path → Command → Outcome → Prop where
  | program {p : Path} {line status : Int} {io : Redirect} {word : List Text} {s : Int} :
      env.redirect p io = true → IsProgram word → (Outcome.gone (env.ends p)).Shows s →
      Means env p (.simple line status io word) (.returned s)
  | exec {p : Path} {line status : Int} {io : Redirect} {words : List Text} :
      env.redirect p io = true →
      Means env p (.simple line status io (execWord :: words)) (.gone (env.ends p))
  | noWord {p : Path} {line status : Int} {io : Redirect} :
      env.redirect p io = true →
      Means env p (.simple line status io []) (.gone (.signaled 11))
  | noFile {p : Path} {line status : Int} {io : Redirect} {word : List Text} :
      env.redirect p io = false → Means env p (.simple line status io word) (.gone (.exited 1))
  | subshell {p : Path} {line status : Int} {io : Redirect} {c : Command} {o : Outcome} :
      env.redirect p io = true → Means env (p ++ [false]) c o →
      Means env p (.subshell line status io c) o
  | subshellNoFile {p : Path} {line status : Int} {io : Redirect} {c : Command} :
      env.redirect p io = false → Means env p (.subshell line status io c) (.gone (.exited 1))
  | leftGone {p : Path} {type : CommandType} {line status : Int} {io : Redirect}
      {c0 c1 : Command} {e : Ended} : type ≠ .pipeCommand →
      Means env (p ++ [false]) c0 (.gone e) →
      Means env p (.compound type line status io c0 c1) (.gone e)
  | sequence {p : Path} {line status : Int} {io : Redirect} {c0 c1 : Command} {s : Int}
      {o : Outcome} :
      Means env (p ++ [false]) c0 (.returned s) → Means env (p ++ [true]) c1 o →
      Means env p (.compound .sequenceCommand line status io c0 c1) o
  | andLeft {p : Path} {line status : Int} {io : Redirect} {c0 c1 : Command} {s : Int} :
      Means env (p ++ [false]) c0 (.returned s) → s ≠ 0 →
      Means env p (.compound .andCommand line status io c0 c1) (.returned s)
  | andRight {p : Path} {line status : Int} {io : Redirect} {c0 c1 : Command} {o : Outcome} :
      Means env (p ++ [false]) c0 (.returned 0) → Means env (p ++ [true]) c1 o →
      Means env p (.compound .andCommand line status io c0 c1) o
  | orLeft {p : Path} {line status : Int} {io : Redirect} {c0 c1 : Command} :
      Means env (p ++ [false]) c0 (.returned 0) →
      Means env p (.compound .orCommand line status io c0 c1) (.returned 0)
  | orRight {p : Path} {line status : Int} {io : Redirect} {c0 c1 : Command} {s : Int}
      {o : Outcome} :
      Means env (p ++ [false]) c0 (.returned s) → s ≠ 0 → Means env (p ++ [true]) c1 o →
      Means env p (.compound .orCommand line status io c0 c1) o
  | pipe {p : Path} {line status : Int} {io : Redirect} {c0 c1 : Command} {s : Int}
      {o : Outcome} :
      Means env (p ++ [true]) c1 o → o.Shows s →
      Means env p (.compound .pipeCommand line status io c0 c1) (.returned s)

/-- The same up to which failure it is. -/
inductive Similar : Outcome → Outcome → Prop where
  | returned {s s' : Int} : (s = 0 ↔ s' = 0) → Similar (.returned s) (.returned s')
  | gone (e : Ended) : Similar (.gone e) (.gone e)

theorem Similar.shows {o o' : Outcome} (h : Similar o o') {s s' : Int} (hs : o.Shows s)
    (hs' : o'.Shows s') : s = 0 ↔ s' = 0 := by
  cases h with
  | returned h =>
    cases hs
    cases hs'
    exact h
  | gone e =>
    cases hs with
    | exited =>
      cases hs'
      rfl
    | signaled g hne =>
      cases hs' with
      | signaled _ hne' => exact iff_of_false hne hne'

/-- The rules leave open only which failure a death by a signal is. -/
theorem Means.similar {env : Env} {p : Path} {c : Command} {o o' : Outcome}
    (h : Means env p c o) (h' : Means env p c o') : Similar o o' := by
  induction h generalizing o' with
  | program hr hw hs =>
    cases h' with
    | program _ _ hs' => exact .returned ((Similar.gone _).shows hs hs')
    | exec => exact absurd rfl hw.2
    | noWord => exact absurd rfl hw.1
    | noFile hr' => rw [hr] at hr'; cases hr'
  | exec hr =>
    cases h' with
    | program _ hw => exact absurd rfl hw.2
    | exec => exact .gone _
    | noFile hr' => rw [hr] at hr'; cases hr'
  | noWord hr =>
    cases h' with
    | program _ hw => exact absurd rfl hw.1
    | noWord => exact .gone _
    | noFile hr' => rw [hr] at hr'; cases hr'
  | noFile hr =>
    cases h' with
    | program hr' => rw [hr] at hr'; cases hr'
    | exec hr' => rw [hr] at hr'; cases hr'
    | noWord hr' => rw [hr] at hr'; cases hr'
    | noFile => exact .gone _
  | subshell hr _ ih =>
    cases h' with
    | subshell _ h => exact ih h
    | subshellNoFile hr' => rw [hr] at hr'; cases hr'
  | subshellNoFile hr =>
    cases h' with
    | subshell hr' => rw [hr] at hr'; cases hr'
    | subshellNoFile => exact .gone _
  | leftGone hne _ ih =>
    cases h' with
    | leftGone _ h => cases ih h; exact .gone _
    | sequence h => cases ih h
    | andLeft h => cases ih h
    | andRight h => cases ih h
    | orLeft h => cases ih h
    | orRight h => cases ih h
    | pipe => exact absurd rfl hne
  | sequence _ _ ih0 ih1 =>
    cases h' with
    | leftGone _ h => cases ih0 h
    | sequence _ h => exact ih1 h
  | andLeft _ hne ih =>
    cases h' with
    | leftGone _ h => cases ih h
    | andLeft h _ => exact ih h
    | andRight h _ => cases ih h with | returned hi => exact absurd (hi.2 rfl) hne
  | andRight _ _ ih0 ih1 =>
    cases h' with
    | leftGone _ h => cases ih0 h
    | andLeft h hne => cases ih0 h with | returned hi => exact absurd (hi.1 rfl) hne
    | andRight _ h => exact ih1 h
  | orLeft _ ih =>
    cases h' with
    | leftGone _ h => cases ih h
    | orLeft h => exact ih h
    | orRight h hne _ => cases ih h with | returned hi => exact absurd (hi.1 rfl) hne
  | orRight _ hne _ ih0 ih1 =>
    cases h' with
    | leftGone _ h => cases ih0 h
    | orLeft h => cases ih0 h with | returned hi => exact absurd (hi.2 rfl) hne
    | orRight _ _ h => exact ih1 h
  | pipe _ hs ih =>
    cases h' with
    | leftGone hne => exact absurd rfl hne
    | pipe h hs' => exact .returned ((ih h).shows hs hs')

/-! ## What is run -/

variable {env : Env}

/-- The right part is run after the left one came out so. -/
def runsRight : CommandType → Outcome → Bool
  | .pipeCommand, _ => true
  | .sequenceCommand, .returned _ => true
  | .andCommand, .returned status => status = 0
  | .orCommand, .returned status => status ≠ 0
  | _, .gone _ => false

theorem exeCompoundCommand_ran (type : CommandType) (rightFirst : Bool) (left right : Execution) :
    (exeCompoundCommand type rightFirst left right).ran =
      left.ran ++ if runsRight type left.outcome then right.ran else [] := by
  unfold exeCompoundCommand exeSequenceCommand exeAndCommand exeOrCommand exePipeCommand runsRight
  cases type <;> cases left.outcome <;> simp <;> split <;> simp

theorem ran_self (p : Path) (c : Command) : (p, c) ∈ (executeCommand env p c).ran := by
  cases c with
  | simple => exact List.mem_cons_self ..
  | subshell => unfold executeCommand; split <;> exact List.mem_cons_self ..
  | compound => exact List.mem_cons_self ..

theorem mem_ran_subshell {p q : Path} {line status : Int} {io : Redirect} {c d : Command} :
    (q, d) ∈ (executeCommand env p (.subshell line status io c)).ran ↔
      (q = p ∧ d = .subshell line status io c) ∨
        (env.redirect p io = true ∧ (q, d) ∈ (executeCommand env (p ++ [false]) c).ran) := by
  rw [executeCommand]
  split
  case isTrue h => simp [h]
  case isFalse h => simp [h]

theorem mem_ran_compound {p q : Path} {type : CommandType} {line status : Int} {io : Redirect}
    {c0 c1 d : Command} :
    (q, d) ∈ (executeCommand env p (.compound type line status io c0 c1)).ran ↔
      (q = p ∧ d = .compound type line status io c0 c1) ∨
        (q, d) ∈ (executeCommand env (p ++ [false]) c0).ran ∨
        (runsRight type (executeCommand env (p ++ [false]) c0).outcome = true ∧
          (q, d) ∈ (executeCommand env (p ++ [true]) c1).ran) := by
  rw [executeCommand]
  simp only [exeCompoundCommand_ran, List.mem_cons, Prod.mk.injEq, List.mem_append]
  split
  case isTrue h => simp [h]
  case isFalse h => simp [h]

/-- What is run has its place in the tree. -/
theorem ran_path {c d : Command} : ∀ {p q : Path}, (q, d) ∈ (executeCommand env p c).ran →
    ∃ t, q = p ++ t := by
  induction c with
  | simple =>
    intro p q h
    obtain ⟨rfl, -⟩ := Prod.mk.inj (List.mem_singleton.1 h)
    exact ⟨[], (List.append_nil _).symm⟩
  | subshell line status io c ih =>
    intro p q h
    rcases mem_ran_subshell.1 h with ⟨rfl, -⟩ | ⟨-, h⟩
    · exact ⟨[], (List.append_nil _).symm⟩
    · obtain ⟨t, rfl⟩ := ih h
      exact ⟨_, List.append_assoc ..⟩
  | compound type line status io c0 c1 ih0 ih1 =>
    intro p q h
    rcases mem_ran_compound.1 h with ⟨rfl, -⟩ | h | ⟨-, h⟩
    · exact ⟨[], (List.append_nil _).symm⟩
    · obtain ⟨t, rfl⟩ := ih0 h
      exact ⟨_, List.append_assoc ..⟩
    · obtain ⟨t, rfl⟩ := ih1 h
      exact ⟨_, List.append_assoc ..⟩

/-- Below a command that is run, exactly that is run which the call for it runs. -/
theorem ran_below {c d : Command} : ∀ {p q : Path}, (q, d) ∈ (executeCommand env p c).ran →
    ∀ (t : Path) (e : Command), (q ++ t, e) ∈ (executeCommand env p c).ran ↔
      (q ++ t, e) ∈ (executeCommand env q d).ran := by
  have hself (p t : Path) (b : Bool) (u : Path) : p ++ [b] ++ t ++ u ≠ p := by
    intro h
    have := congrArg List.length h
    simp at this
  have hother (p t u : Path) (b b' : Bool) (v : Path) (hb : b ≠ b') :
      p ++ [b] ++ t ++ u ≠ p ++ [b'] ++ v := by
    intro h
    simp only [List.append_assoc] at h
    have := List.append_cancel_left h
    simp only [List.cons_append, List.nil_append, List.cons.injEq] at this
    exact hb this.1
  induction c with
  | simple =>
    intro p q h t e
    obtain ⟨rfl, rfl⟩ := Prod.mk.inj (List.mem_singleton.1 h)
    rfl
  | subshell line status io c ih =>
    intro p q h t e
    rcases mem_ran_subshell.1 h with ⟨rfl, rfl⟩ | ⟨hr, h⟩
    · rfl
    · rw [mem_ran_subshell, ← ih h t e]
      obtain ⟨u, rfl⟩ := ran_path h
      simp [hr]
  | compound type line status io c0 c1 ih0 ih1 =>
    intro p q h t e
    rcases mem_ran_compound.1 h with ⟨rfl, rfl⟩ | h | ⟨hr, h⟩
    · rfl
    · rw [mem_ran_compound, ← ih0 h t e]
      obtain ⟨u, rfl⟩ := ran_path h
      constructor
      · rintro (⟨he, -⟩ | h | ⟨-, h⟩)
        · exact absurd he (hself p u false t)
        · exact h
        · obtain ⟨v, hv⟩ := ran_path h
          exact absurd hv (hother p u t _ _ v (by decide))
      · exact fun h => .inr (.inl h)
    · rw [mem_ran_compound, ← ih1 h t e]
      obtain ⟨u, rfl⟩ := ran_path h
      constructor
      · rintro (⟨he, -⟩ | h | ⟨-, h⟩)
        · exact absurd he (hself p u true t)
        · obtain ⟨v, hv⟩ := ran_path h
          exact absurd hv (hother p u t _ _ v (by decide))
        · exact h
      · exact fun h => .inr (.inr ⟨hr, h⟩)

/-- The right part of a compound command that is run is run under the rule. -/
theorem ran_right {c : Command} {p q : Path} {type : CommandType} {line status : Int}
    {io : Redirect} {c0 c1 : Command}
    (h : (q, .compound type line status io c0 c1) ∈ (executeCommand env p c).ran) :
    (q ++ [true], c1) ∈ (executeCommand env p c).ran ↔
      runsRight type (executeCommand env (q ++ [false]) c0).outcome = true := by
  rw [ran_below h, mem_ran_compound]
  constructor
  · rintro (⟨he, -⟩ | h | ⟨h, -⟩)
    · simp at he
    · obtain ⟨t, ht⟩ := ran_path h
      rw [List.append_assoc] at ht
      have := List.append_cancel_left ht
      simp at this
    · exact h
  · exact fun h => .inr (.inr ⟨h, ran_self _ _⟩)

/-! ## When the rules are followed -/

/-- The end of a child forked to run a command. -/
def childEnd (env : Env) (p : Path) (c : Command) : Ended :=
  (executeCommand env p c).outcome.childEnd

/-- The condition on a command that is run: the program of a simple command does not
die by a signal; the right-hand child of a pipe does not either if it is reaped last,
and if it is reaped first, the left-hand child ends with an exit code that is a status
of the right-hand command. -/
def Fine (env : Env) (p : Path) : Command → Prop
  | .simple _ _ io word =>
    env.redirect p io = true → IsProgram word → ∀ sig, env.ends p ≠ .signaled sig
  | .compound .pipeCommand _ _ _ c0 c1 =>
    if env.rightFirst p then
      ∃ o, Means env (p ++ [true]) c1 o ∧ o.Shows (childEnd env (p ++ [false]) c0).exitCode
    else ∀ sig, childEnd env (p ++ [true]) c1 ≠ .signaled sig
  | _ => True

theorem fine_pipe {p : Path} {line status : Int} {io : Redirect} {c0 c1 : Command} :
    Fine env p (.compound .pipeCommand line status io c0 c1) =
      if env.rightFirst p then
        ∃ o, Means env (p ++ [true]) c1 o ∧ o.Shows (childEnd env (p ++ [false]) c0).exitCode
      else ∀ sig, childEnd env (p ++ [true]) c1 ≠ .signaled sig := rfl

theorem exitCode_signaled (sig : UInt8) : (Ended.signaled sig).exitCode = 0 := by
  have := sig.toNat_lt
  unfold Ended.exitCode Ended.status wexitstatus
  dsimp only
  omega

theorem exitCode_exited (code : UInt8) : (Ended.exited code).exitCode = code.toNat := by
  have := code.toNat_lt
  unfold Ended.exitCode Ended.status wexitstatus
  dsimp only
  omega

theorem exitCode_lt (e : Ended) : e.exitCode < 256 := Nat.mod_lt _ (by decide)

/-- Statuses fit into the exit code of a process. -/
theorem returned_range {c : Command} : ∀ {p : Path} {s : Int},
    (executeCommand env p c).outcome = .returned s → 0 ≤ s ∧ s < 256 := by
  induction c with
  | simple line status io word =>
    intro p s h
    have hlt := exitCode_lt (env.ends p)
    simp only [executeCommand, exeSimpleCommand] at h
    split at h
    · split at h
      · cases h
      · split at h
        · cases h
        · cases h
          omega
    · cases h
  | subshell line status io c ih =>
    intro p s h
    rw [executeCommand] at h
    split at h
    · exact ih h
    · cases h
  | compound type line status io c0 c1 ih0 ih1 =>
    intro p s h
    rw [executeCommand] at h
    have hlt (b : Bool) (e e' : Ended) := exitCode_lt (if b then e else e')
    cases type with
    | pipeCommand =>
      cases h
      have := hlt (env.rightFirst p) (executeCommand env (p ++ [false]) c0).outcome.childEnd
        (executeCommand env (p ++ [true]) c1).outcome.childEnd
      omega
    | sequenceCommand =>
      simp only [exeCompoundCommand, exeSequenceCommand] at h
      split at h
      · cases h
      · exact ih1 h
    | andCommand =>
      simp only [exeCompoundCommand, exeAndCommand] at h
      split at h
      · cases h
      · next hl =>
        split at h
        · exact ih1 h
        · cases h
          exact ih0 hl
    | orCommand =>
      simp only [exeCompoundCommand, exeOrCommand] at h
      split at h
      · cases h
      · next hl =>
        split at h
        · exact ih1 h
        · cases h
          exact ih0 hl

theorem Outcome.childEnd_shows {o : Outcome} (hr : ∀ s, o = .returned s → 0 ≤ s ∧ s < 256)
    (hs : ∀ sig, o.childEnd ≠ .signaled sig) : o.Shows o.childEnd.exitCode := by
  rcases o with s | e
  · obtain ⟨h0, h1⟩ := hr s rfl
    have he : (((UInt8.ofInt s).toNat : Nat) : Int) = s := by
      rw [UInt8.ofInt, UInt8.toNat_ofNat']
      omega
    show Outcome.Shows (.returned s) (Ended.exited (.ofInt s)).exitCode
    rw [exitCode_exited, he]
    exact .returned s
  · rcases e with code | sig
    · show Outcome.Shows _ (Ended.exited code).exitCode
      rw [exitCode_exited]
      exact .exited code
    · exact absurd rfl (hs sig)

/-- At a command whose status follows the rules, as that of the right part of a pipe
does, the condition holds. -/
theorem Means.fine {p : Path} {c : Command} (h : Means env p c (executeCommand env p c).outcome)
    (hright : ∀ line status io c0 c1, c = .compound .pipeCommand line status io c0 c1 →
      Means env (p ++ [true]) c1 (executeCommand env (p ++ [true]) c1).outcome) :
    Fine env p c := by
  cases c with
  | simple line status io word =>
    intro hr hw sig hsig
    have hout : (executeCommand env p (.simple line status io word)).outcome = .returned 0 := by
      rcases word with _ | ⟨w, words⟩
      · exact absurd rfl hw.1
      · have hne : w ≠ execWord := fun he => hw.2 (congrArg some he)
        simp only [executeCommand, exeSimpleCommand, hr, hne, if_true, if_false, hsig,
          exitCode_signaled]
        rfl
    rw [hout] at h
    cases h with
    | program _ _ hs =>
      rw [hsig] at hs
      cases hs with
      | signaled _ hne => exact hne rfl
  | subshell => trivial
  | compound type line status io c0 c1 =>
    cases type with
    | pipeCommand =>
      have hr := hright _ _ _ _ _ rfl
      rw [fine_pipe]
      split
      case isTrue hfirst =>
        cases h with
        | pipe ho hs =>
          rw [if_pos hfirst] at hs
          exact ⟨_, ho, hs⟩
      case isFalse hfirst =>
        intro sig hsig
        cases h with
        | pipe ho hs =>
          have hsim := hr.similar ho
          rw [if_neg hfirst, show Outcome.childEnd _ = _ from hsig, exitCode_signaled] at hs
          unfold childEnd at hsig
          generalize (executeCommand env (p ++ [true]) c1).outcome = o' at hsig hsim
          rcases o' with s | e
          · cases hsig
          · obtain rfl : e = .signaled sig := hsig
            cases hsim
            cases hs with
            | signaled _ hne => exact hne rfl
    | sequenceCommand => trivial
    | andCommand => trivial
    | orCommand => trivial

/-- Where the condition holds of all that is run, the status follows the rules. The
induction is on the tree; what a part runs is run by the whole. -/
theorem means_of_fine {c : Command} : ∀ {p : Path},
    (∀ q d, (q, d) ∈ (executeCommand env p c).ran → Fine env q d) →
    Means env p c (executeCommand env p c).outcome := by
  induction c with
  | simple line status io word =>
    intro p h
    have hfine := h p _ (ran_self _ _)
    simp only [executeCommand, exeSimpleCommand]
    split
    case isFalse hr => exact .noFile (by simpa using hr)
    case isTrue hr =>
      split
      · exact .noWord hr
      · next w words =>
        split
        · next hw =>
          subst hw
          exact .exec hr
        · next hw =>
          have hprog : IsProgram (w :: words) := ⟨by simp, fun he => hw (Option.some.inj he)⟩
          refine .program hr hprog ?_
          rcases he : env.ends p with code | sig
          · rw [exitCode_exited]
            exact .exited code
          · exact absurd he (hfine hr hprog sig)
  | subshell line status io c ih =>
    intro p h
    rw [executeCommand]
    split
    case isFalse hr => exact .subshellNoFile (by simpa using hr)
    case isTrue hr =>
      exact .subshell hr (ih fun q d hq => h q d (mem_ran_subshell.2 (.inr ⟨hr, hq⟩)))
  | compound type line status io c0 c1 ih0 ih1 =>
    intro p h
    have h0 := ih0 fun q d hq => h q d (mem_ran_compound.2 (.inr (.inl hq)))
    have h1 (hr : runsRight type (executeCommand env (p ++ [false]) c0).outcome = true) :=
      ih1 fun q d hq => h q d (mem_ran_compound.2 (.inr (.inr ⟨hr, hq⟩)))
    have hself := h p _ (ran_self _ _)
    have hrange := @returned_range env c1 (p ++ [true])
    rw [executeCommand]
    generalize hr1 : executeCommand env (p ++ [true]) c1 = r1 at *
    generalize hr0 : executeCommand env (p ++ [false]) c0 = r0 at *
    obtain ⟨o, ran⟩ := r0
    cases type with
    | pipeCommand =>
      simp only [exeCompoundCommand, exePipeCommand]
      rw [fine_pipe, childEnd, childEnd, hr0, hr1] at hself
      split
      case isTrue hfirst =>
        rw [if_pos hfirst] at hself
        obtain ⟨o', ho, hs⟩ := hself
        exact .pipe ho hs
      case isFalse hfirst =>
        rw [if_neg hfirst] at hself
        exact .pipe (h1 rfl) (Outcome.childEnd_shows (fun s hs => hrange hs) hself)
    | sequenceCommand =>
      rcases o with s | e
      · exact .sequence h0 (h1 rfl)
      · exact .leftGone (by decide) h0
    | andCommand =>
      rcases o with s | e
      · by_cases hs : s = 0
        · subst hs
          exact .andRight h0 (h1 rfl)
        · simp only [exeCompoundCommand, exeAndCommand, hs, if_false]
          exact .andLeft h0 hs
      · exact .leftGone (by decide) h0
    | orCommand =>
      rcases o with s | e
      · by_cases hs : s = 0
        · subst hs
          exact .orLeft h0
        · simp only [exeCompoundCommand, exeOrCommand, ne_eq, hs, not_false_eq_true, if_true]
          exact .orRight h0 hs (h1 (by simp [runsRight, hs]))
      · exact .leftGone (by decide) h0

/-- Every status that running a command leaves is one the shell's rules allow, and the
right part of `&&` or `||` is run only under the rule. -/
structure FollowsShell (env : Env) (c : Command) : Prop where
  status : ∀ q d, (q, d) ∈ (executeCommand env [] c).ran →
    Means env q d (executeCommand env q d).outcome
  andRight : ∀ q line status io c0 c1,
    (q, .compound .andCommand line status io c0 c1) ∈ (executeCommand env [] c).ran →
    ((q ++ [true], c1) ∈ (executeCommand env [] c).ran ↔
      (executeCommand env (q ++ [false]) c0).outcome = .returned 0)
  orRight : ∀ q line status io c0 c1,
    (q, .compound .orCommand line status io c0 c1) ∈ (executeCommand env [] c).ran →
    ((q ++ [true], c1) ∈ (executeCommand env [] c).ran ↔
      ∃ s, (executeCommand env (q ++ [false]) c0).outcome = .returned s ∧ s ≠ 0)

/-- **Exit statuses follow the shell's rules** exactly when the condition holds of
every command that is run. -/
theorem followsShell_iff (env : Env) (c : Command) :
    FollowsShell env c ↔
      ∀ q d, (q, d) ∈ (executeCommand env [] c).ran → Fine env q d := by
  constructor
  · intro h q d hq
    refine (h.status q d hq).fine fun line status io c0 c1 he => ?_
    subst he
    exact h.status _ _ ((ran_right hq).2 rfl)
  · intro h
    refine ⟨fun q d hq => means_of_fine fun q' d' hq' => ?_, fun q line status io c0 c1 hq => ?_,
      fun q line status io c0 c1 hq => ?_⟩
    · obtain ⟨t, rfl⟩ := ran_path hq'
      exact h _ _ ((ran_below hq t d').2 hq')
    · rw [ran_right hq]
      generalize (executeCommand env (q ++ [false]) c0).outcome = o
      rcases o with s | e <;> simp [runsRight]
    · rw [ran_right hq]
      generalize (executeCommand env (q ++ [false]) c0).outcome = o
      rcases o with s | e <;> simp [runsRight]

/-- `true | false`, where the right-hand child is reaped first: the status is that of
`true`. -/
theorem pipe_wrong_status : ¬ FollowsShell
    ⟨fun _ => true, fun p => if p = [true] then .exited 1 else .exited 0, fun _ => true⟩
    (.compound .pipeCommand 1 (-1) {} (.simple 1 (-1) {} [['t', 'r', 'u', 'e']])
      (.simple 1 (-1) {} [['f', 'a', 'l', 's', 'e']])) := by
  intro h
  have hm := h.status [] _ (ran_self _ _)
  cases hm with
  | pipe ho hs =>
    cases ho with
    | program _ _ hs' =>
      cases hs
      cases hs'
    | noFile hr => cases hr

end OsLabs.Shell
