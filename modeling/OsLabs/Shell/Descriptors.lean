import OsLabs.Lib.Descriptors
import OsLabs.Shell.Execute

/-!
# Descriptors of the shell

`execute_command` with the descriptor table of the calling process. A `FdEnv`
adds to the environment of `Shell.Execute` the files that are opened, the number
of descriptors a process may have and what becomes of a failed `fork`. Children
have tables of their own. A run ends with `noDescriptor` where `dup`, `dup2` or
`pipe` fails.

Every command that returns leaves the table as it was (`execute_keeps_table`), and
where there are descriptors enough the run ends as `executeCommand` says.
-/

namespace OsLabs.Shell

universe u

/-- How a run of the shell's process ends, or goes on with a value. -/
inductive Run (β : Type u) where
  | done (b : β)
  | gone (e : Ended)
  /-- `dup`, `dup2` or `pipe` has failed. -/
  | noDescriptor

namespace Run

variable {β γ : Type u}

def bind (x : Run β) (f : β → Run γ) : Run γ :=
  match x with
  | done b => f b
  | gone e => gone e
  | noDescriptor => noDescriptor

instance : Monad Run where
  pure := done
  bind := bind

/-- The result of a call that may run out of descriptors. -/
def ofOption : Option β → Run β
  | some b => done b
  | none => noDescriptor

@[simp] theorem done_bind (b : β) (f : β → Run γ) : done b >>= f = f b := rfl

@[simp] theorem gone_bind (e : Ended) (f : β → Run γ) : gone e >>= f = gone e := rfl

@[simp] theorem ofOption_some (b : β) : ofOption (some b) = done b := rfl

theorem bind_eq_done {x : Run β} {f : β → Run γ} {c : γ} (h : x >>= f = done c) :
    ∃ b, x = done b ∧ f b = done c := by
  cases x with
  | done b => exact ⟨b, rfl, h⟩
  | gone e => cases h
  | noDescriptor => cases h

theorem ofOption_eq_done {o : Option β} {b : β} (h : ofOption o = done b) : o = some b := by
  cases o with
  | none => cases h
  | some c => exact congrArg some (Run.done.inj h)

end Run

structure FdEnv (α : Type) extends Env where
  limit : Nat
  /-- The files of the redirections and of the pipes. -/
  input : Path → α
  output : Path → α
  readEnd : Path → α
  writeEnd : Path → α
  /-- The status left in the record where a `fork` of the command fails. -/
  forkFails : Path → Option Int

variable {α : Type} (env : FdEnv α) (p : Path)

/-- A redirection: the file is opened and put in the place of descriptor `fd`. -/
def redirectFd (name : Option Text) (fd : Nat) (f : α) (t : Table α) : Run (Table α) :=
  if name.isNone then .done t
  else if env.opens p then
    match t.install env.limit f with
    | none => .gone (.exited 1)
    | some (n, t) => do
      let t ← .ofOption (t.dup2 n fd)
      return t.close n
  else .gone (.exited 1)

/-- `redirect`. -/
def redirectIn (io : Redirect) (t : Table α) : Run (Table α) := do
  let t ← redirectFd env p io.input 0 (env.input p) t
  redirectFd env p io.output 1 (env.output p) t

/-- What `exe_simple_command` and `exe_subshell_command` have in common: descriptors 0
and 1 are saved, redirected for `body` and put back. -/
def withRedirect (io : Redirect) (body : Table α → Run (Table α × Int)) (t : Table α) :
    Run (Table α × Int) := do
  let (inBackup, t) ← .ofOption (t.dup env.limit 0)
  let (outBackup, t) ← .ofOption (t.dup env.limit 1)
  let t ← redirectIn env p io t
  let (t, status) ← body t
  let t ← .ofOption (t.dup2 inBackup 0)
  let t ← .ofOption (t.dup2 outBackup 1)
  return ((t.close inBackup).close outBackup, status)

/-- `exe_exec_command`, and the child that runs the program. -/
def runProgram (word : List Text) : Run Int :=
  match word with
  | [] => .gone (.signaled 11)
  | w :: _ =>
    if w = execWord then .gone (env.ends p)
    else .done ((env.forkFails p).getD (env.ends p).exitCode)

/-- The program, which does not touch the table of the shell. -/
def programIn (word : List Text) (t : Table α) : Run (Table α × Int) := do
  let status ← runProgram env p word
  return (t, status)

def exeSimpleCommandIn (io : Redirect) (word : List Text) : Table α → Run (Table α × Int) :=
  withRedirect env p io (programIn env p word)

def exeSubshellCommandIn (io : Redirect) (body : Table α → Run (Table α × Int)) :
    Table α → Run (Table α × Int) :=
  withRedirect env p io body

/-- A child that executes a command and exits with its status. -/
def childIn (x : Run (Table α × Int)) : Run Ended :=
  match x with
  | .done (_, status) => .done (.exited (.ofInt status))
  | .gone e => .done e
  | .noDescriptor => .noDescriptor

/-- The children of a pipe with the ends `r` and `w`, and the status of the one reaped last. -/
def pipeStatus (left right : Table α → Run (Table α × Int)) (r w : Nat) (t : Table α) : Run Int :=
  match env.forkFails p with
  | some status => .done status
  | none => do
    let rightEnd ← childIn (.ofOption ((t.close w).dup2 r 0) >>= right)
    let leftEnd ← childIn (.ofOption ((t.close r).dup2 w 1) >>= left)
    return (if env.rightFirst p then leftEnd else rightEnd).exitCode

/-- `exe_pipe_command`. -/
def exePipeCommandIn (left right : Table α → Run (Table α × Int)) (t : Table α) :
    Run (Table α × Int) := do
  let (r, w, t) ← .ofOption (t.pipe env.limit (env.readEnd p) (env.writeEnd p))
  let status ← pipeStatus env p left right r w t
  return ((t.close r).close w, status)

/-- The second part of a list, which runs where `goesOn` holds of the status of the first. -/
def exeListIn (goesOn : Int → Bool) (left right : Table α → Run (Table α × Int)) (t : Table α) :
    Run (Table α × Int) := do
  let (t, status) ← left t
  if goesOn status then right t else return (t, status)

def exeSequenceCommandIn := exeListIn (α := α) fun _ => true

def exeAndCommandIn := exeListIn (α := α) fun status => status == 0

def exeOrCommandIn := exeListIn (α := α) fun status => status != 0

/-- `execute_command`. -/
def executeCommandIn (p : Path) : Command → Table α → Run (Table α × Int)
  | .simple _ _ io word => exeSimpleCommandIn env p io word
  | .subshell _ _ io c => exeSubshellCommandIn env p io (executeCommandIn (p ++ [false]) c)
  | .compound type _ _ _ c0 c1 =>
    match type with
    | .sequenceCommand =>
      exeSequenceCommandIn (executeCommandIn (p ++ [false]) c0) (executeCommandIn (p ++ [true]) c1)
    | .andCommand =>
      exeAndCommandIn (executeCommandIn (p ++ [false]) c0) (executeCommandIn (p ++ [true]) c1)
    | .orCommand =>
      exeOrCommandIn (executeCommandIn (p ++ [false]) c0) (executeCommandIn (p ++ [true]) c1)
    | .pipeCommand =>
      exePipeCommandIn env p (executeCommandIn (p ++ [false]) c0)
        (executeCommandIn (p ++ [true]) c1)

/-! ## The table behind a command -/

/-- Descriptors 0 and 1 are open. -/
def Standard (t : Table α) : Prop := t 0 ≠ none ∧ t 1 ≠ none

/-- Where it returns the table is the one it was called with. -/
def Keeps (x : Table α → Run (Table α × Int)) : Prop :=
  ∀ t t' status, Standard t → x t = .done (t', status) → t' = t

/-- A table that differs in descriptors 0 and 1 only. -/
def Redirected (t t' : Table α) : Prop :=
  Standard t' ∧ ∀ n, n ≠ 0 → n ≠ 1 → t' n = t n

section

variable {env p} {t t' : Table α}

theorem Redirected.refl (hs : Standard t) : Redirected t t := ⟨hs, fun _ _ _ => rfl⟩

theorem Redirected.trans {t'' : Table α} (h : Redirected t t') (h' : Redirected t' t'') :
    Redirected t t'' :=
  ⟨h'.1, fun n h0 h1 => (h'.2 n h0 h1).trans (h.2 n h0 h1)⟩

/-- A free descriptor is not one of the standard ones. -/
theorem Standard.ne_of_free (hs : Standard t) {n : Nat} (hn : t n = none) : n ≠ 0 ∧ n ≠ 1 :=
  ⟨fun e => hs.1 (e ▸ hn), fun e => hs.2 (e ▸ hn)⟩

theorem redirectFd_done {name : Option Text} {fd : Nat} {f : α} (hs : Standard t)
    (hfd : fd = 0 ∨ fd = 1) (h : redirectFd env p name fd f t = .done t') : Redirected t t' := by
  rw [redirectFd] at h
  split at h
  · cases h
    exact .refl hs
  · split at h
    · split at h
      · cases h
      · next n t1 hi =>
        obtain ⟨t2, h2, he⟩ := Run.bind_eq_done h
        cases he
        obtain ⟨hn, rfl⟩ := Table.install_eq_some hi
        obtain ⟨-, rfl⟩ := Table.dup2_eq_some (Run.ofOption_eq_done h2)
        rw [Function.update_self]
        obtain ⟨hn0, hn1⟩ := hs.ne_of_free hn
        refine ⟨?_, fun m h0 h1 => ?_⟩
        · rcases hfd with rfl | rfl
          · simp [Standard, Table.close, hn0.symm, hn1.symm, hs.2]
          · simp [Standard, Table.close, hn0.symm, hn1.symm, hs.1]
        · have hmfd : m ≠ fd := by rcases hfd with rfl | rfl <;> assumption
          by_cases hm : m = n
          · rw [hm, Table.close, Function.update_self, hn]
          · rw [Table.close, Function.update_of_ne hm, Function.update_of_ne hmfd,
              Function.update_of_ne hm]
    · cases h

theorem redirectIn_done {io : Redirect} (hs : Standard t)
    (h : redirectIn env p io t = .done t') : Redirected t t' := by
  obtain ⟨t1, h1, h2⟩ := Run.bind_eq_done h
  have hr1 := redirectFd_done hs (.inl rfl) h1
  exact hr1.trans (redirectFd_done hr1.1 (.inr rfl) h2)

/-- **What is saved is put back**: around a body that keeps its table. -/
theorem withRedirect_keeps {io : Redirect} {body : Table α → Run (Table α × Int)}
    (hb : Keeps body) : Keeps (withRedirect env p io body) := by
  intro t t' status hs h
  obtain ⟨⟨b0, t1⟩, h1, h⟩ := Run.bind_eq_done h
  obtain ⟨⟨b1, t2⟩, h2, h⟩ := Run.bind_eq_done h
  obtain ⟨t3, h3, h⟩ := Run.bind_eq_done h
  obtain ⟨⟨t4, status'⟩, h4, h⟩ := Run.bind_eq_done h
  obtain ⟨t5, h5, h⟩ := Run.bind_eq_done h
  obtain ⟨t6, h6, h⟩ := Run.bind_eq_done h
  cases h
  obtain ⟨hb0, rfl⟩ := Table.dup_eq_some (Run.ofOption_eq_done h1)
  obtain ⟨hb1, rfl⟩ := Table.dup_eq_some (Run.ofOption_eq_done h2)
  obtain ⟨h00, h01⟩ := hs.ne_of_free hb0
  have hne : b1 ≠ b0 := by
    rintro rfl
    rw [Function.update_self] at hb1
    exact hs.1 hb1
  rw [Function.update_of_ne hne] at hb1
  obtain ⟨h10, h11⟩ := hs.ne_of_free hb1
  rw [Function.update_of_ne h01.symm] at h3
  have hs2 : Standard (Function.update (Function.update t b0 (t 0)) b1 (t 1)) := by
    simpa [Standard, Function.update_apply, h00.symm, h01.symm, h10.symm, h11.symm] using hs
  obtain ⟨hs3, hr⟩ := redirectIn_done hs2 h3
  obtain rfl := hb _ _ _ hs3 h4
  obtain ⟨-, rfl⟩ := Table.dup2_eq_some (Run.ofOption_eq_done h5)
  obtain ⟨-, rfl⟩ := Table.dup2_eq_some (Run.ofOption_eq_done h6)
  -- the backups hold what was there before
  have hin : t4 b0 = t 0 := by
    rw [hr b0 h00 h01, Function.update_of_ne hne.symm, Function.update_self]
  have hout : t4 b1 = t 1 := by
    rw [hr b1 h10 h11, Function.update_self]
  funext m
  simp only [Table.close, Function.update_apply, hin, hout, h10, if_false]
  by_cases hm1 : m = b1
  · rw [if_pos hm1, hm1, hb1]
  · rw [if_neg hm1]
    by_cases hm0 : m = b0
    · rw [if_pos hm0, hm0, hb0]
    · rw [if_neg hm0]
      by_cases h1 : m = 1
      · rw [if_pos h1, h1]
      · rw [if_neg h1]
        by_cases h0 : m = 0
        · rw [if_pos h0, h0]
        · rw [if_neg h0, hr m h0 h1, Function.update_of_ne hm1, Function.update_of_ne hm0]

theorem programIn_keeps (word : List Text) : Keeps (programIn env p word) := by
  intro t t' status _ h
  obtain ⟨s, -, h⟩ := Run.bind_eq_done h
  cases h
  rfl

theorem exePipeCommandIn_keeps (left right : Table α → Run (Table α × Int)) :
    Keeps (exePipeCommandIn env p left right) := by
  intro t t' status _ h
  obtain ⟨⟨r, w, t1⟩, h1, h⟩ := Run.bind_eq_done h
  obtain ⟨s, -, h⟩ := Run.bind_eq_done h
  cases h
  obtain ⟨hr, hw, hne, rfl⟩ := Table.pipe_eq_some (Run.ofOption_eq_done h1)
  funext m
  simp only [Table.close, Function.update_apply]
  by_cases hmw : m = w
  · rw [if_pos hmw, hmw, hw]
  · by_cases hmr : m = r
    · rw [if_neg hmw, if_pos hmr, hmr, hr]
    · rw [if_neg hmw, if_neg hmr, if_neg hmw, if_neg hmr]

theorem exeListIn_keeps {goesOn : Int → Bool} {left right : Table α → Run (Table α × Int)}
    (hl : Keeps left) (hr : Keeps right) : Keeps (exeListIn goesOn left right) := by
  intro t t' status hs h
  obtain ⟨⟨t1, s⟩, h1, h2⟩ := Run.bind_eq_done h
  obtain rfl := hl _ _ _ hs h1
  simp only at h2
  split at h2
  · exact hr _ _ _ hs h2
  · cases h2
    rfl

theorem executeCommandIn_keeps (c : Command) : Keeps (executeCommandIn env p c) := by
  induction c generalizing p with
  | simple line status io word => exact withRedirect_keeps (programIn_keeps word)
  | subshell line status io c ih => exact withRedirect_keeps ih
  | compound type line status io c0 c1 ih0 ih1 =>
    cases type with
    | sequenceCommand =>
      rw [executeCommandIn]
      exact exeListIn_keeps ih0 ih1
    | andCommand =>
      rw [executeCommandIn]
      exact exeListIn_keeps ih0 ih1
    | orCommand =>
      rw [executeCommandIn]
      exact exeListIn_keeps ih0 ih1
    | pipeCommand =>
      rw [executeCommandIn]
      exact exePipeCommandIn_keeps _ _

/-- **Executing a command leaves the caller's descriptors alone**: whenever it returns,
the table of the calling process is the one it had before. -/
theorem execute_keeps_table {c : Command} {status : Int} (hs : Standard t)
    (h : executeCommandIn env p c t = .done (t', status)) : t' = t :=
  executeCommandIn_keeps c t t' status hs h

end

/-- Ten descriptors, programs that succeed, and files named by their place. -/
def tenDescriptors : FdEnv (Path × Nat) where
  opens _ := true
  ends _ := .exited 0
  rightFirst _ := false
  limit := 10
  input p := (p, 0)
  output p := (p, 1)
  readEnd p := (p, 2)
  writeEnd p := (p, 3)
  forkFails _ := none

/-- `( a < i | b > o ) > o`. -/
def redirectedPipe : Command :=
  .subshell 0 0 ⟨none, some ['o']⟩ (.compound .pipeCommand 0 0 {}
    (.simple 0 0 ⟨some ['i'], none⟩ [['a']]) (.simple 0 0 ⟨none, some ['o']⟩ [['b']]))

/-- The standard descriptors are open. -/
def threeOpen : Table (Path × Nat) := fun n => if n < 3 then some ([], n) else none

theorem execute_keeps_redirectedPipe :
    ∃ t', executeCommandIn tenDescriptors [] redirectedPipe threeOpen = .done (t', 0) ∧
      t' = threeOpen := by
  have h : executeCommandIn tenDescriptors [] redirectedPipe threeOpen = .done (_, 0) := rfl
  exact ⟨_, h, execute_keeps_table ⟨nofun, nofun⟩ h⟩

/-! ## Where there are descriptors enough -/

/-- Descriptors that a command needs at a time: the backups, a file to be opened or the
ends of a pipe. -/
def fdsNeeded : Command → Nat
  | .simple .. => 3
  | .subshell _ _ _ c => fdsNeeded c + 2
  | .compound _ _ _ _ c0 c1 => max (fdsNeeded c0) (fdsNeeded c1) + 2

/-- The outcome of a run that has not run out of descriptors. -/
def Run.outcome? : Run (Table α × Int) → Option Outcome
  | .done (_, status) => some (.returned status)
  | .gone e => some (.gone e)
  | .noDescriptor => none

/-- With `k` free descriptors the run ends with `o`. -/
def EndsWith (limit k : Nat) (x : Table α → Run (Table α × Int)) (o : Outcome) : Prop :=
  ∀ t, Standard t → t.Roomy limit k → (x t).outcome? = some o

section

variable {env p} {t : Table α}

theorem Redirected.roomy {t' : Table α} {limit k : Nat} (h : Redirected t t') (hs : Standard t)
    (hr : t.Roomy limit k) : t'.Roomy limit k := by
  refine hr.mono le_rfl fun n hn => ?_
  obtain ⟨h0, h1⟩ := hs.ne_of_free hn
  rw [h.2 n h0 h1, hn]

theorem redirectFd_roomy (name : Option Text) (fd : Nat) (f : α) {k : Nat}
    (hr : t.Roomy env.limit (k + 1)) :
    redirectFd env p name fd f t = .gone (.exited 1) ∧ name.isNone = false ∧ env.opens p = false ∨
      ∃ t', redirectFd env p name fd f t = .done t' ∧
        (name.isNone = true ∨ env.opens p = true) := by
  rw [redirectFd]
  by_cases hn : name.isNone = true
  · exact .inr ⟨t, if_pos hn, .inl hn⟩
  · rw [if_neg hn]
    by_cases ho : env.opens p = true
    · obtain ⟨n, t1, h1, -⟩ := hr.install f
      have hne : t1 n ≠ none := by
        rw [(Table.install_eq_some h1).2, Function.update_self]
        nofun
      rw [if_pos ho, h1]
      simp only [Table.dup2_of_ne_none hne]
      exact .inr ⟨_, rfl, .inr ho⟩
    · exact .inl ⟨if_neg ho, Bool.eq_false_iff.mpr hn, Bool.eq_false_iff.mpr ho⟩

theorem redirectIn_roomy (io : Redirect) {k : Nat} (hs : Standard t)
    (hr : t.Roomy env.limit (k + 1)) :
    if env.redirect p io then ∃ t', redirectIn env p io t = .done t'
    else redirectIn env p io t = .gone (.exited 1) := by
  rcases redirectFd_roomy (p := p) io.input 0 (env.input p) hr with
    ⟨h, hn, ho⟩ | ⟨t1, h, hor⟩
  · rw [if_neg (by simp [Env.redirect, hn, ho])]
    simp only [redirectIn, h]
    rfl
  · have h1 := redirectFd_done hs (.inl rfl) h
    rcases redirectFd_roomy (p := p) io.output 1 (env.output p)
      (h1.roomy hs hr) with ⟨h', hn, ho⟩ | ⟨t2, h', hor'⟩
    · rw [if_neg (by simp [Env.redirect, hn, ho])]
      simp only [redirectIn, h]
      exact h'
    · have hopen : env.redirect p io = true := by
        simp only [Env.redirect, Bool.or_eq_true, Bool.and_eq_true]
        tauto
      rw [if_pos hopen]
      refine ⟨t2, ?_⟩
      simp only [redirectIn, h]
      exact h'

theorem withRedirect_endsWith (io : Redirect) {body : Table α → Run (Table α × Int)} {k : Nat}
    {o : Outcome} (hk : 0 < k) (hkeeps : Keeps body) (hb : EndsWith env.limit k body o) :
    EndsWith env.limit (k + 2) (withRedirect env p io body)
      (if env.redirect p io then o else .gone (.exited 1)) := by
  intro t hs hr
  obtain ⟨b0, t1, h1, hr1⟩ := hr.dup hs.1
  obtain ⟨hb0, ht1⟩ := Table.dup_eq_some h1
  obtain ⟨h00, h01⟩ := hs.ne_of_free hb0
  have hs1 : Standard t1 := by
    rw [ht1]
    simpa [Standard, Function.update_apply, h00.symm, h01.symm] using hs
  obtain ⟨b1, t2, h2, hr2⟩ := hr1.dup hs1.2
  obtain ⟨hb1, ht2⟩ := Table.dup_eq_some h2
  obtain ⟨h10, h11⟩ := hs1.ne_of_free hb1
  have hs2 : Standard t2 := by
    rw [ht2]
    simpa [Standard, Function.update_apply, h10.symm, h11.symm] using hs1
  have hin : t2 b0 ≠ none := by
    have hne : b0 ≠ b1 := by
      rintro rfl
      rw [ht1, Function.update_self] at hb1
      exact hs.1 hb1
    rw [ht2, Function.update_of_ne hne, ht1, Function.update_self]
    exact hs.1
  have hout : t2 b1 ≠ none := by
    rw [ht2, Function.update_self]
    exact hs1.2
  have hredirect := redirectIn_roomy (p := p) io (k := k - 1) hs2
    (by rwa [Nat.sub_add_cancel hk])
  split at hredirect
  · next hopen =>
    obtain ⟨t3, h3⟩ := hredirect
    have hred := redirectIn_done hs2 h3
    have hend := hb t3 hred.1 (hred.roomy hs2 hr2)
    rw [if_pos hopen]
    simp only [withRedirect, h1, h2, h3, Run.ofOption_some, Run.done_bind]
    cases hbody : body t3 with
    | noDescriptor =>
      rw [hbody] at hend
      cases hend
    | gone e =>
      rw [hbody] at hend
      exact hend
    | done r =>
      obtain ⟨t4, status⟩ := r
      rw [hbody] at hend
      obtain rfl := hkeeps _ _ _ hred.1 hbody
      have hin' : t4 b0 ≠ none := by rwa [hred.2 b0 h00 h01]
      have hout' : Function.update t4 0 (t4 b0) b1 ≠ none := by
        rwa [Function.update_of_ne h10, hred.2 b1 h10 h11]
      simp only [Run.done_bind, Table.dup2_of_ne_none hin', Run.ofOption_some,
        Table.dup2_of_ne_none hout']
      exact hend
  · next hclosed =>
    rw [if_neg hclosed]
    simp only [withRedirect, h1, h2, hredirect, Run.ofOption_some, Run.done_bind, Run.gone_bind]
    rfl

theorem exeSimpleCommandIn_endsWith (hforks : ∀ p, env.forkFails p = none) (io : Redirect)
    (word : List Text) :
    EndsWith env.limit 3 (exeSimpleCommandIn env p io word)
      (exeSimpleCommand env.toEnv p io word) := by
  refine withRedirect_endsWith _ (k := 1) (by decide) (programIn_keeps word) fun t _ _ => ?_
  cases word with
  | nil => rfl
  | cons w ws =>
    simp only [programIn, runProgram, hforks p]
    split <;> rfl

/-- A child, with the other end of the pipe closed and its own in place of `fd`. -/
theorem childIn_endsWith {x : Table α → Run (Table α × Int)} {o : Outcome} {k n m fd : Nat}
    (hx : EndsWith env.limit k x o) (hs : Standard t) (hr : t.Roomy env.limit k)
    (hn : t n ≠ none) (hnm : n ≠ m) (hm0 : m ≠ 0) (hm1 : m ≠ 1) (hfd : fd = 0 ∨ fd = 1) :
    childIn (Run.ofOption ((t.close m).dup2 n fd) >>= x) = .done o.childEnd := by
  have hclose : (t.close m) n ≠ none := by rwa [Table.close, Function.update_of_ne hnm]
  have hs' : Standard (Function.update (t.close m) fd ((t.close m) n)) := by
    rcases hfd with rfl | rfl
    · exact ⟨by rwa [Function.update_self], by
        rw [Function.update_of_ne (by decide), Table.close, Function.update_of_ne hm1.symm]
        exact hs.2⟩
    · exact ⟨by
        rw [Function.update_of_ne (by decide), Table.close, Function.update_of_ne hm0.symm]
        exact hs.1, by rwa [Function.update_self]⟩
  have hr' : Table.Roomy (Function.update (t.close m) fd ((t.close m) n)) env.limit k := by
    refine hr.mono le_rfl fun j hj => ?_
    obtain ⟨h0, h1⟩ := hs.ne_of_free hj
    have hjfd : j ≠ fd := by rcases hfd with rfl | rfl <;> assumption
    rw [Function.update_of_ne hjfd, Table.close, Function.update_apply]
    split
    · rfl
    · exact hj
  have hend := hx _ hs' hr'
  rw [Table.dup2_of_ne_none hclose, Run.ofOption_some, Run.done_bind]
  cases hrun : x (Function.update (t.close m) fd ((t.close m) n)) with
  | noDescriptor =>
    rw [hrun] at hend
    cases hend
  | gone e =>
    rw [hrun] at hend
    cases hend
    rfl
  | done r =>
    rw [hrun] at hend
    cases hend
    rfl

theorem exePipeCommandIn_endsWith (hforks : ∀ p, env.forkFails p = none) {k : Nat}
    {left right : Table α → Run (Table α × Int)} {l r : Execution}
    (hl : EndsWith env.limit k left l.outcome) (hr : EndsWith env.limit k right r.outcome) :
    EndsWith env.limit (k + 2) (exePipeCommandIn env p left right)
      (exePipeCommand (env.rightFirst p) l r).outcome := by
  intro t hs hroom
  obtain ⟨n, m, t1, hpipe, hroom1⟩ := hroom.pipe (env.readEnd p) (env.writeEnd p)
  obtain ⟨hn, hm, hnm, ht1⟩ := Table.pipe_eq_some hpipe
  obtain ⟨hn0, hn1⟩ := hs.ne_of_free hn
  obtain ⟨hm0, hm1⟩ := hs.ne_of_free hm
  have hs1 : Standard t1 := by
    rw [ht1]
    simpa [Standard, Function.update_apply, hn0.symm, hn1.symm, hm0.symm, hm1.symm] using hs
  have hread : t1 n ≠ none := by
    rw [ht1, Function.update_of_ne hnm, Function.update_self]
    nofun
  have hwrite : t1 m ≠ none := by
    rw [ht1, Function.update_self]
    nofun
  have hright := childIn_endsWith hr hs1 hroom1 hread hnm hm0 hm1 (.inl rfl)
  have hleft := childIn_endsWith hl hs1 hroom1 hwrite hnm.symm hn0 hn1 (.inr rfl)
  simp only [exePipeCommandIn, hpipe, Run.ofOption_some, Run.done_bind, pipeStatus, hforks p,
    hright, hleft]
  simp only [exePipeCommand]
  cases env.rightFirst p <;> rfl

/-- The outcome of a list from those of its parts. -/
def listOutcome (goesOn : Int → Bool) (o o' : Outcome) : Outcome :=
  match o with
  | .gone e => .gone e
  | .returned status => if goesOn status then o' else .returned status

theorem exeListIn_endsWith (goesOn : Int → Bool) {k : Nat} {o o' : Outcome}
    {left right : Table α → Run (Table α × Int)} (hkeeps : Keeps left)
    (hl : EndsWith env.limit k left o) (hr : EndsWith env.limit k right o') :
    EndsWith env.limit k (exeListIn goesOn left right) (listOutcome goesOn o o') := by
  intro t hs hroom
  have hend := hl t hs hroom
  simp only [exeListIn]
  cases hrun : left t with
  | noDescriptor =>
    rw [hrun] at hend
    cases hend
  | gone e =>
    rw [hrun] at hend
    cases hend
    rfl
  | done x =>
    obtain ⟨t1, status⟩ := x
    obtain rfl := hkeeps _ _ _ hs hrun
    rw [hrun] at hend
    cases hend
    simp only [Run.done_bind, listOutcome]
    split
    · exact hr _ hs hroom
    · rfl

theorem exeSequenceCommand_outcome (l r : Execution) :
    (exeSequenceCommand l r).outcome = listOutcome (fun _ => true) l.outcome r.outcome := by
  rcases l with ⟨_ | _, _⟩ <;> rfl

theorem exeAndCommand_outcome (l r : Execution) :
    (exeAndCommand l r).outcome = listOutcome (· == 0) l.outcome r.outcome := by
  rcases l with ⟨status | e, _⟩
  · simp only [exeAndCommand, listOutcome, beq_iff_eq]
    split <;> rfl
  · rfl

theorem exeOrCommand_outcome (l r : Execution) :
    (exeOrCommand l r).outcome = listOutcome (· != 0) l.outcome r.outcome := by
  rcases l with ⟨status | e, _⟩
  · simp only [exeOrCommand, listOutcome, bne_iff_ne]
    split <;> rfl
  · rfl

theorem EndsWith.mono {k k' : Nat} {x : Table α → Run (Table α × Int)} {o : Outcome}
    (h : EndsWith env.limit k x o) (hk : k ≤ k') : EndsWith env.limit k' x o :=
  fun t hs hr => h t hs (hr.mono hk fun _ hn => hn)

/-- **With descriptors enough a command ends as `executeCommand` says.** -/
theorem executeCommandIn_endsWith (hforks : ∀ p, env.forkFails p = none) (c : Command) :
    EndsWith env.limit (fdsNeeded c) (executeCommandIn env p c)
      (executeCommand env.toEnv p c).outcome := by
  induction c generalizing p with
  | simple line status io word => exact exeSimpleCommandIn_endsWith hforks io word
  | subshell line status io c ih =>
    have hpos : 0 < fdsNeeded c := by cases c <;> simp [fdsNeeded]
    have := withRedirect_endsWith (p := p) io hpos
      (executeCommandIn_keeps (p := p ++ [false]) c) ih
    rw [executeCommand]
    split
    · next hopen => rwa [if_pos hopen] at this
    · next hclosed => rwa [if_neg hclosed] at this
  | compound type line status io c0 c1 ih0 ih1 =>
    have h0 := (ih0 (p := p ++ [false])).mono (Nat.le_max_left _ (fdsNeeded c1))
    have h1 := (ih1 (p := p ++ [true])).mono (Nat.le_max_right (fdsNeeded c0) _)
    have hk : Keeps (executeCommandIn env (p ++ [false]) c0) := executeCommandIn_keeps c0
    cases type with
    | pipeCommand => exact exePipeCommandIn_endsWith hforks h0 h1
    | sequenceCommand =>
      have := exeListIn_endsWith (fun _ => true) hk h0 h1
      rw [← exeSequenceCommand_outcome] at this
      exact this.mono (Nat.le_add_right ..)
    | andCommand =>
      have := exeListIn_endsWith (fun status => status == 0) hk h0 h1
      rw [← exeAndCommand_outcome] at this
      exact this.mono (Nat.le_add_right ..)
    | orCommand =>
      have := exeListIn_endsWith (fun status => status != 0) hk h0 h1
      rw [← exeOrCommand_outcome] at this
      exact this.mono (Nat.le_add_right ..)

end

end OsLabs.Shell
