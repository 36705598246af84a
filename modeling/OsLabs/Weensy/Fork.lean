import OsLabs.Weensy.Mpos
import OsLabs.Lib.ByteMem

/-!
# MiniprocOS: `do_fork`

`do_fork` on whole process descriptors, with `copy_stack`. Descriptor `NPROCS` stands for
the memory behind `proc_array`. The search is that of `Mpos.doFork`, with the descriptors
that it reads.
-/

namespace OsLabs.Weensy.Mpos

open Select

/-- `registers_t`. -/
structure Registers where
  regEdi : UInt32 := 0
  regEsi : UInt32 := 0
  regEbp : UInt32 := 0
  regOriginalEsp : UInt32 := 0
  regEbx : UInt32 := 0
  regEdx : UInt32 := 0
  regEcx : UInt32 := 0
  regEax : UInt32 := 0
  regEs : UInt16 := 0
  regPadding1 : UInt16 := 0
  regDs : UInt16 := 0
  regPadding2 : UInt16 := 0
  regIntno : UInt32 := 0
  regErr : UInt32 := 0
  regEip : UInt32 := 0
  regCs : UInt16 := 0
  regPadding3 : UInt16 := 0
  regEflags : UInt32 := 0
  regEsp : UInt32 := 0
  regSs : UInt16 := 0
  regPadding4 : UInt16 := 0
  deriving DecidableEq, Repr

/-- `process_t`; `queue` is the index of the process it points to. -/
structure Descriptor where
  pPid : Nat
  pRegisters : Registers := {}
  pState : ProcState := .empty
  pExitStatus : Int := 0
  queue : Option Nat := none
  deriving DecidableEq, Repr

abbrev ProcArray := Nat → Descriptor

/-- `PROC1_STACK_ADDR + p_pid * PROC_STACK_SIZE`. -/
def stackTop (pid : Nat) : UInt32 := 0x280000 + UInt32.ofNat pid * 0x040000

/-- The loop of the kernel's `memcpy` with `n` bytes to go. -/
def memcpyLoop (memory : Mem) (d s : UInt32) : Nat → Mem
  | 0 => memory
  | n + 1 => memcpyLoop (Function.update memory d.toNat (memory s.toNat)) (d + 1) (s + 1) n

def memcpy (memory : Mem) (dst src n : UInt32) : Mem := memcpyLoop memory dst src n.toNat

/-- `copy_stack`, byte for byte. -/
def copyStackBytes (procs : ProcArray) (memory : Mem) (dest src : Nat) : ProcArray × Mem :=
  let srcStackTop := stackTop (procs src).pPid
  let srcStackBottom := (procs src).pRegisters.regEsp
  let destStackTop := stackTop (procs dest).pPid
  let destStackBottom := destStackTop + (srcStackBottom - srcStackTop)
  (Function.update procs dest { procs dest with
      pRegisters := { (procs dest).pRegisters with
        regEsp := destStackBottom, regEbp := destStackTop } },
    memcpy memory destStackBottom srcStackBottom (srcStackTop - srcStackBottom))

/-- The search of `do_fork` from `childpid` on: where it ends, and the descriptors it reads. -/
def search (procs : ProcArray) (parent : Nat) : (fuel childpid : Nat) → Option (Nat × List Nat)
  | 0, _ => none
  | fuel + 1, childpid =>
    if ((procs childpid).pState ≠ .empty ∧ childpid ≠ (procs parent).pPid) ∨ childpid = 0 then
      (search procs parent fuel ((childpid + 1) % nprocs)).map fun r => (r.1, childpid :: r.2)
    else some (childpid, [childpid])

/-- What `do_fork` leaves and returns, and the descriptors it has read or written. -/
structure Forked where
  procs : ProcArray
  memory : Mem
  ret : Int
  touched : List Nat

def doForkFull (procs : ProcArray) (memory : Mem) (parent : Nat) : Option Forked := do
  let (childpid, read) ← search procs parent (nprocs + 1) ((procs parent).pPid + 1)
  if childpid = (procs parent).pPid then return ⟨procs, memory, -1, parent :: read⟩
  let procs := Function.update procs childpid { procs childpid with
    pPid := childpid
    pRegisters := { (procs parent).pRegisters with regEax := 0 }
    pState := .runnable }
  let (procs, memory) := copyStackBytes procs memory childpid parent
  return ⟨procs, memory, childpid, parent :: read⟩

/-! ## The search -/

variable {procs : ProcArray} {memory : Mem} {parent p c i k fuel : Nat} {read : List Nat}

def isEmpty (procs : ProcArray) (i : Nat) : Bool := i ≠ 0 ∧ (procs i).pState = .empty

/-- Where the search may end. -/
def stops (procs : ProcArray) (parent i : Nat) : Bool :=
  i ≠ 0 ∧ ((procs i).pState = .empty ∨ i = (procs parent).pPid)

/-- From a slot of the table on, the search is a cyclic one. -/
theorem search_fst : (search procs parent fuel ((i + 1) % nprocs)).map Prod.fst =
    cyclic nprocs (stops procs parent) fuel i := by
  induction fuel generalizing i with
  | zero => rfl
  | succ fuel ih =>
    rw [search, cyclic, ← ih]
    unfold stops
    by_cases h : ((procs ((i + 1) % nprocs)).pState ≠ .empty ∧
        (i + 1) % nprocs ≠ (procs parent).pPid) ∨ (i + 1) % nprocs = 0
    · rw [if_pos h, if_neg, Option.map_map]
      · rfl
      · simp only [decide_eq_true_eq]
        tauto
    · rw [if_neg h, if_pos]
      · rfl
      · simp only [decide_eq_true_eq]
        tauto

theorem search_read (h : search procs parent fuel c = some (k, read)) (hc : c < nprocs) :
    ∀ i ∈ read, i < nprocs := by
  induction fuel generalizing c read with
  | zero => cases h
  | succ fuel ih =>
    rw [search] at h
    split at h
    · obtain ⟨⟨k', read'⟩, h', he⟩ := Option.map_eq_some_iff.1 h
      cases he
      intro i hi
      rcases List.mem_cons.1 hi with rfl | hi
      · exact hc
      · exact ih h' (Nat.mod_lt _ (by decide)) i hi
    · cases h
      intro i hi
      rw [List.mem_singleton.1 hi]
      exact hc

theorem mem_read (h : search procs parent fuel c = some (k, read)) : c ∈ read := by
  cases fuel with
  | zero => cases h
  | succ fuel =>
    rw [search] at h
    split at h
    · obtain ⟨⟨k', read'⟩, -, he⟩ := Option.map_eq_some_iff.1 h
      cases he
      exact List.mem_cons_self
    · cases h
      exact List.mem_cons_self

/-- The search of a parent that is not the last process ends at the first slot that is
empty, or comes round to the parent. -/
theorem search_ends (hpid : (procs p).pPid = p) (h1 : 1 ≤ p) (hp : p + 1 < nprocs) :
    ∃ c read, search procs p (nprocs + 1) (p + 1) = some (c, read) ∧
      Next nprocs (stops procs p) p c ∧ ∀ i ∈ read, i < nprocs := by
  have hfst : (search procs p (nprocs + 1) ((p + 1) % nprocs)).map Prod.fst = _ := search_fst
  rw [Nat.mod_eq_of_lt hp] at hfst
  rcases hs : search procs p (nprocs + 1) (p + 1) with _ | ⟨c, read⟩
  · -- the parent itself would have stopped it
    rw [hs] at hfst
    obtain ⟨j, hj, he⟩ := exists_offset (i := p) (n := nprocs) (q := p) (by omega)
    have hno := cyclic_none hfst.symm j (by omega)
    rw [he] at hno
    unfold stops at hno
    simp only [hpid, decide_eq_false_iff_not] at hno
    exact absurd ⟨by omega, .inr trivial⟩ hno
  · rw [hs] at hfst
    exact ⟨c, read, rfl, next_of_cyclic hfst.symm, search_read hs hp⟩

/-- The first empty slot comes before the parent does. -/
theorem next_stops (hpid : (procs p).pPid = p) (h : Next nprocs (isEmpty procs) p c) :
    Next nprocs (stops procs p) p c := by
  obtain ⟨j, hj, hc, hempty, hno⟩ := h.offset (by decide)
  unfold isEmpty at hempty hno
  simp only [decide_eq_true_eq, decide_eq_false_iff_not] at hempty hno
  refine ⟨j, hc, ?_, fun k hk => ?_⟩
  · unfold stops
    exact decide_eq_true ⟨hempty.1, .inl hempty.2⟩
  · unfold stops
    rw [decide_eq_false_iff_not, hpid]
    rintro ⟨h0, he | hself⟩
    · exact hno k hk ⟨h0, he⟩
    · -- only slot 15 steps on is the parent's
      unfold nprocs at hself hj hc
      have hkj : k = 15 := by omega
      omega

/-- A slot other than the parent's where the search ends is the first that is empty. -/
theorem next_empty (hpid : (procs p).pPid = p) (hcp : c ≠ p)
    (h : Next nprocs (stops procs p) p c) : Next nprocs (isEmpty procs) p c := by
  obtain ⟨j, hc, hstop, hno⟩ := h
  unfold stops at hstop hno
  simp only [hpid, decide_eq_true_eq, decide_eq_false_iff_not] at hstop hno
  unfold isEmpty
  refine ⟨j, hc, decide_eq_true ⟨hstop.1, hstop.2.resolve_right hcp⟩, fun k hk => ?_⟩
  rw [decide_eq_false_iff_not]
  rintro ⟨h0, he⟩
  exact hno k hk ⟨h0, .inl he⟩

theorem exists_next_empty (hi : 1 ≤ i) (hlt : i < nprocs) (he : (procs i).pState = .empty)
    (p : Nat) :
    ∃ c, Next nprocs (isEmpty procs) p c := by
  have hP : isEmpty procs i = true := decide_eq_true ⟨by omega, he⟩
  obtain ⟨c, hc⟩ := cyclic_exists (i := p) hlt hP
  exact ⟨c, next_of_cyclic hc⟩

/-! ## The child -/

/-- The parent's registers, with 0 in `%eax` and the stack pointer moved to the child's stack. -/
def childRegisters (r : Registers) (p c : Nat) : Registers :=
  { r with regEax := 0, regEsp := stackTop c + (r.regEsp - stackTop p) }

/-- What `do_fork` does when its search ends at slot `c`. -/
theorem doForkFull_child (hpid : (procs p).pPid = p) (hcp : c ≠ p)
    (hs : search procs p (nprocs + 1) (p + 1) = some (c, read)) :
    doForkFull procs memory p =
      some ⟨Function.update procs c { procs c with
          pPid := c
          pRegisters := { childRegisters (procs p).pRegisters p c with regEbp := stackTop c }
          pState := .runnable },
        memcpy memory (stackTop c + ((procs p).pRegisters.regEsp - stackTop p))
          (procs p).pRegisters.regEsp (stackTop p - (procs p).pRegisters.regEsp), c, p :: read⟩ := by
  unfold doForkFull
  rw [hpid, hs]
  simp only [Option.bind_eq_bind, Option.bind_some, hcp, if_false]
  unfold copyStackBytes
  simp only [Function.update_self, Function.update_of_ne (Ne.symm hcp), hpid, Function.update_idem]
  rfl

/-- A search that comes round to the parent leaves all as it is. -/
theorem doForkFull_full (hpid : (procs p).pPid = p)
    (hs : search procs p (nprocs + 1) (p + 1) = some (p, read)) :
    doForkFull procs memory p = some ⟨procs, memory, -1, p :: read⟩ := by
  unfold doForkFull
  rw [hpid, hs]
  simp only [Option.bind_eq_bind, Option.bind_some, if_true]
  rfl

/-- All that `do_fork` touches are the parent's descriptor and those its search reads. -/
theorem doForkFull_touched {out : Forked} (h : doForkFull procs memory p = some out) :
    ∃ c read, search procs p (nprocs + 1) ((procs p).pPid + 1) = some (c, read) ∧
      out.touched = p :: read := by
  unfold doForkFull at h
  rcases hs : search procs p (nprocs + 1) ((procs p).pPid + 1) with _ | ⟨c, read⟩
  · rw [hs] at h
    cases h
  · rw [hs] at h
    simp only [Option.bind_eq_bind, Option.bind_some] at h
    refine ⟨c, read, rfl, ?_⟩
    split at h
    · cases h
      rfl
    · cases h
      rfl

/-- What a call should do: with no empty slot nothing changes and it returns -1; else some
empty slot gets the child, and no other descriptor changes. No descriptor outside the
table is read or written. -/
def ProperFork (procs : ProcArray) (memory : Mem) (p : Nat) : Prop :=
  ∃ out, doForkFull procs memory p = some out ∧ (∀ i ∈ out.touched, i < nprocs) ∧
    ((∀ i, 1 ≤ i → i < nprocs → (procs i).pState ≠ .empty) →
      out.ret = -1 ∧ out.procs = procs ∧ out.memory = memory) ∧
    ((∃ i, 1 ≤ i ∧ i < nprocs ∧ (procs i).pState = .empty) →
      ∃ c : Nat, out.ret = c ∧ 1 ≤ c ∧ c < nprocs ∧ (procs c).pState = .empty ∧
        (out.procs c).pPid = c ∧ (out.procs c).pState = .runnable ∧
        (out.procs c).pRegisters = childRegisters (procs p).pRegisters p c ∧
        ∀ i, i ≠ c → out.procs i = procs i)

theorem isEmpty_iff : isEmpty procs i = true ↔ i ≠ 0 ∧ (procs i).pState = .empty :=
  decide_eq_true_iff

/-- **`do_fork` picks a proper slot** iff its caller is not the last process and, where
there is a slot for the child, has the child's stack top in `%ebp`. -/
theorem doFork_proper_iff (hpid : (procs p).pPid = p) (h1 : 1 ≤ p) (hp : p < nprocs)
    (hrun : (procs p).pState = .runnable) :
    ProperFork procs memory p ↔ p ≠ nprocs - 1 ∧
      ∀ c, Next nprocs (isEmpty procs) p c → (procs p).pRegisters.regEbp = stackTop c := by
  have hself {c : Nat} (hc : isEmpty procs c = true) : c ≠ p := by
    rintro rfl
    have he := (isEmpty_iff.1 hc).2
    rw [hrun] at he
    cases he
  constructor
  · rintro ⟨out, hout, htouched, -, hchild⟩
    obtain ⟨c', read, hs, ht⟩ := doForkFull_touched hout
    rw [hpid] at hs
    have hlast : p ≠ nprocs - 1 := by
      rintro rfl
      -- the search begins behind the table
      have hin : nprocs ∈ out.touched := by
        rw [ht]
        exact List.mem_cons_of_mem _ (mem_read hs)
      exact Nat.lt_irrefl _ (htouched _ hin)
    refine ⟨hlast, fun c hc => ?_⟩
    obtain ⟨c₁, read₁, hs₁, hstop, -⟩ := search_ends hpid h1 (by omega)
    rw [hs] at hs₁
    cases hs₁
    obtain rfl : c' = c := hstop.unique (next_stops hpid hc)
    obtain ⟨j, -, hempty, -⟩ := hc
    obtain ⟨h0, he⟩ := isEmpty_iff.1 hempty
    rw [doForkFull_child hpid (hself hempty) hs] at hout
    cases hout
    obtain ⟨c, hret, -, -, -, -, -, hregs, -⟩ := hchild ⟨c', by omega, hstop.lt (by decide), he⟩
    obtain rfl : c' = c := Int.ofNat_inj.1 hret
    simp only [Function.update_self] at hregs
    exact (congrArg Registers.regEbp hregs).symm
  · rintro ⟨hlast, hcond⟩
    obtain ⟨c, read, hs, hstop, hread⟩ := search_ends hpid h1 (by omega)
    have htable : ∀ i ∈ p :: read, i < nprocs := by
      intro i hi
      rcases List.mem_cons.1 hi with rfl | hi
      · exact hp
      · exact hread i hi
    by_cases hcp : c = p
    · subst hcp
      have hnone : ¬ ∃ i, 1 ≤ i ∧ i < nprocs ∧ (procs i).pState = .empty := by
        rintro ⟨i, hi, hlt, he⟩
        obtain ⟨c', hc'⟩ := exists_next_empty hi hlt he c
        have hsame := hstop.unique (next_stops hpid hc')
        obtain ⟨j, -, hempty, -⟩ := hc'
        exact hself hempty hsame.symm
      exact ⟨_, doForkFull_full hpid hs, htable, fun _ => ⟨rfl, rfl, rfl⟩, fun h => absurd h hnone⟩
    · have hnext := next_empty hpid hcp hstop
      have hebp := hcond c hnext
      obtain ⟨j, -, hempty, -⟩ := hnext
      obtain ⟨h0, he⟩ := isEmpty_iff.1 hempty
      refine ⟨_, doForkFull_child hpid hcp hs, htable, fun hno => ?_, fun _ => ?_⟩
      · exact absurd he (hno c (by omega) (hstop.lt (by decide)))
      · refine ⟨c, rfl, by omega, hstop.lt (by decide), he, ?_, ?_, ?_,
          fun i hi => Function.update_of_ne hi _ _⟩
        · simp only [Function.update_self]
        · simp only [Function.update_self]
        · simp only [Function.update_self]
          rw [← hebp]
          rfl

/-- The table that `start` sets up, with `%ebp` as the program has it. -/
def startProcs (ebp : UInt32) : ProcArray := fun i =>
  if i = 1 then
    { pPid := 1, pRegisters := { regEsp := stackTop 1, regEbp := ebp }, pState := .runnable }
  else { pPid := i }

/-- The first process forks with the top of process 2's stack in `%ebp`. -/
theorem startProcs_fork : ProperFork (startProcs (stackTop 2)) (fun _ => 0) 1 := by
  refine (doFork_proper_iff rfl (by decide) (by decide) rfl).2 ⟨by decide, fun c hc => ?_⟩
  have htwo : Next nprocs (isEmpty (startProcs (stackTop 2))) 1 2 :=
    ⟨0, rfl, rfl, fun k hk => absurd hk (Nat.not_lt_zero k)⟩
  obtain rfl : c = 2 := hc.unique htwo
  rfl

/-- The first process forks with 0 in `%ebp`: the child has its stack top there. In a full
table process 15 forks: the descriptor behind the table becomes process 16. -/
theorem fork_not_proper : ¬ ProperFork (startProcs 0) (fun _ => 0) 1 ∧
    (doForkFull (startProcs 0) (fun _ => 0) 1).map
      (fun out => (out.ret, (out.procs 2).pRegisters.regEbp)) = some (2, 0x300000) ∧
    ¬ ProperFork (fun i => { startProcs 0 1 with
      pPid := i, pState := if i = nprocs then .empty else .runnable }) (fun _ => 0) 15 := by
  refine ⟨fun h => ?_, by decide, fun h => ?_⟩
  · have htwo : Next nprocs (isEmpty (startProcs 0)) 1 2 :=
      ⟨0, rfl, rfl, fun k hk => absurd hk (Nat.not_lt_zero k)⟩
    obtain ⟨out, hout, -, -, hchild⟩ := h
    obtain ⟨c, hret, -, -, -, -, -, hregs, -⟩ := hchild ⟨2, by decide, by decide, rfl⟩
    have hrun : (doForkFull (startProcs 0) (fun _ => 0) 1).map
        (fun out => (out.ret, (out.procs 2).pRegisters.regEbp)) = some (2, 0x300000) := by decide
    rw [hout] at hrun
    have hpair := Option.some.inj hrun
    obtain rfl : c = 2 := Int.ofNat_inj.1 (hret.symm.trans (congrArg Prod.fst hpair))
    have hebp : (out.procs 2).pRegisters.regEbp = 0x300000 := congrArg Prod.snd hpair
    rw [hregs] at hebp
    revert hebp
    decide
  · obtain ⟨out, hout, htouched, -⟩ := h
    obtain ⟨c, read, hs, ht⟩ := doForkFull_touched hout
    have hin : nprocs ∈ out.touched := by
      rw [ht]
      exact List.mem_cons_of_mem _ (mem_read hs)
    exact Nat.lt_irrefl _ (htouched _ hin)

/-! ## The model with whole runs -/

/-- The kernel of `Mpos` that a table stands for. -/
def kernelOf (procs : ProcArray) (current : Nat) : Kernel where
  procArray := fun i => {
    eax := (procs i).pRegisters.regEax.toBitVec.toInt
    pState := (procs i).pState
    pExitStatus := (procs i).pExitStatus
    queue := (procs i).queue }
  current := current
  beyond := (procs nprocs).pState

theorem kernelOf_pState (current : Nat) : (kernelOf procs current).pState i = (procs i).pState := by
  unfold Kernel.pState
  split
  · rename_i h
    rw [h]
    rfl
  · rfl

theorem findChild_kernelOf (hpid : (procs p).pPid = p) {current : Nat} :
    findChild (kernelOf procs current) p fuel c = (search procs p fuel c).map Prod.fst := by
  induction fuel generalizing c with
  | zero => rfl
  | succ fuel ih =>
    rw [findChild, search, kernelOf_pState, hpid, ih]
    split
    · rw [Option.map_map]
      rfl
    · rfl

/-- `Mpos.doFork` says what `do_fork` does to the descriptors. -/
theorem doFork_kernelOf (hpid : (procs p).pPid = p) {out : Forked} {current : Nat}
    (hout : doForkFull procs memory p = some out) (hret : out.ret ≠ nprocs) :
    doFork (kernelOf procs current) p = some (kernelOf out.procs current, out.ret) := by
  obtain ⟨c, read, hs, -⟩ := doForkFull_touched hout
  rw [hpid] at hs
  unfold doFork
  rw [findChild_kernelOf hpid, hs]
  simp only [Option.map_some]
  by_cases hcp : c = p
  · unfold doForkFull at hout
    rw [hpid, hs] at hout
    simp only [Option.bind_eq_bind, Option.bind_some, if_pos hcp] at hout
    cases hout
    rw [if_pos hcp]
  · rw [doForkFull_child hpid hcp hs] at hout
    cases hout
    have hc : c ≠ nprocs := fun h => hret (congrArg Nat.cast h)
    rw [if_neg hcp, if_neg hc]
    refine congrArg some (Prod.ext ?_ rfl)
    unfold kernelOf Kernel.set
    simp only [Function.update_of_ne (Ne.symm hc)]
    congr 1
    funext i
    by_cases hi : i = c
    · subst hi
      simp only [Function.update_self, if_true]
      rfl
    · simp only [Function.update_of_ne hi, hi, if_false]

/-- Every descriptor of the table keeps its index in `p_pid`. -/
theorem doForkFull_pPid (hpid : ∀ i < nprocs, (procs i).pPid = i) (hp : p < nprocs) {out : Forked}
    (hout : doForkFull procs memory p = some out) : ∀ i < nprocs, (out.procs i).pPid = i := by
  obtain ⟨c, read, hs, -⟩ := doForkFull_touched hout
  rw [hpid p hp] at hs
  by_cases hcp : c = p
  · unfold doForkFull at hout
    rw [hpid p hp, hs] at hout
    simp only [Option.bind_eq_bind, Option.bind_some, if_pos hcp] at hout
    cases hout
    exact hpid
  · rw [doForkFull_child (hpid p hp) hcp hs] at hout
    cases hout
    intro i hi
    by_cases hic : i = c
    · subst hic
      simp only [Function.update_self]
    · simp only [Function.update_of_ne hic]
      exact hpid i hi

end OsLabs.Weensy.Mpos
