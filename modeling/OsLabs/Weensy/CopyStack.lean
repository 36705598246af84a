import OsLabs.Weensy.Fork

/-!
# MiniprocOS: `copy_stack`

The byte loop of the kernel's `memcpy`, on 32-bit pointers, between two areas that do not
overlap. `copyStack_copies`: what `copy_stack` does to the two stacks, for every depth of the
parent's.
-/

namespace OsLabs.Weensy.Mpos

variable {procs : ProcArray} {memory : Mem} {dest src p c n : Nat} {d s esp : UInt32}

/-! ## `memcpy` -/

theorem toNat_succ (h : d.toNat + 1 < 2 ^ 32) : (d + 1).toNat = d.toNat + 1 := by
  rw [UInt32.toNat_add]
  exact Nat.mod_eq_of_lt h

/-- A byte loop between two areas that do not overlap is a copy. -/
theorem memcpyLoop_eq (hd : d.toNat + n < 2 ^ 32) (hs : s.toNat + n < 2 ^ 32)
    (hsep : d.toNat + n ≤ s.toNat ∨ s.toNat + n ≤ d.toNat) :
    memcpyLoop memory d s n = memory.copy memory d.toNat s.toNat n := by
  induction n generalizing memory d s with
  | zero =>
    funext x
    have hx : ¬ (d.toNat ≤ x ∧ x < d.toNat + 0) := by omega
    exact (if_neg hx).symm
  | succ n ih =>
    have hd' := toNat_succ (d := d) (by omega)
    have hs' := toNat_succ (d := s) (by omega)
    rw [memcpyLoop, ih (by omega) (by omega) (by omega), hd', hs']
    funext x
    unfold Mem.copy
    by_cases hx : x = d.toNat
    · subst hx
      rw [if_neg (by omega), Function.update_self, if_pos (by omega), Nat.sub_self, Nat.add_zero]
    · by_cases hin : d.toNat ≤ x ∧ x < d.toNat + (n + 1)
      · rw [if_pos (by omega), if_pos hin, Function.update_of_ne (by omega)]
        congr 1
        omega
      · rw [if_neg (by omega), if_neg hin, Function.update_of_ne hx]

/-! ## Stacks -/

/-- The stack of process `p` is [PROC1_STACK_ADDR + (p-1)*PROC_STACK_SIZE,
PROC1_STACK_ADDR + p*PROC_STACK_SIZE). -/
def InStack (p a : Nat) : Prop := 0x280000 + (p - 1) * 0x040000 ≤ a ∧ a < 0x280000 + p * 0x040000

theorem toNat_stackTop (hp : p < nprocs) : (stackTop p).toNat = 0x280000 + p * 0x040000 := by
  have hn : nprocs = 16 := rfl
  have hpid : (UInt32.ofNat p).toNat = p := UInt32.toNat_ofNat_of_lt' (by unfold UInt32.size; omega)
  unfold stackTop
  rw [UInt32.toNat_add, UInt32.toNat_mul, hpid]
  show (2621440 + p * 262144 % 2 ^ 32) % 2 ^ 32 = _
  omega

theorem inStack_ne {q a : Nat} (h : InStack p a) (hq : 1 ≤ q) (hp : 1 ≤ p) (hne : q ≠ p) :
    ¬ InStack q a := by
  unfold InStack at *
  omega

/-- The child's stack pointer and the number of bytes to copy. -/
theorem toNat_bottom (hp : p < nprocs) (h1 : 1 ≤ c) (hc : c < nprocs)
    (hlo : 0x280000 + (p - 1) * 0x040000 ≤ esp.toNat) (hhi : esp.toNat ≤ 0x280000 + p * 0x040000) :
    (stackTop p - esp).toNat = 0x280000 + p * 0x040000 - esp.toNat ∧
      (stackTop c + (esp - stackTop p)).toNat =
        0x280000 + c * 0x040000 - (0x280000 + p * 0x040000 - esp.toNat) := by
  have hn : nprocs = 16 := rfl
  have htp := toNat_stackTop hp
  have htc := toNat_stackTop hc
  have hesp := esp.toNat_lt
  rw [UInt32.toNat_add, UInt32.toNat_sub, UInt32.toNat_sub, htp, htc]
  omega

/-- **Forking copies one stack into another.** The child's stack pointer is as far below the top
of its stack as the parent's; from there to the top the child has the parent's bytes; nothing
else in memory, no other stack and no other descriptor changes. -/
theorem copyStack_copies (procs : ProcArray) (memory : Mem) (dest src : Nat) (hp1 : 1 ≤ p)
    (hp : p < nprocs) (hc1 : 1 ≤ c) (hc : c < nprocs) (hne : p ≠ c)
    (hsrc : (procs src).pPid = p) (hdest : (procs dest).pPid = c)
    (hlo : 0x280000 + (p - 1) * 0x040000 ≤ (procs src).pRegisters.regEsp.toNat)
    (hhi : (procs src).pRegisters.regEsp.toNat ≤ 0x280000 + p * 0x040000) :
    let depth := 0x280000 + p * 0x040000 - (procs src).pRegisters.regEsp.toNat
    let bottom := 0x280000 + c * 0x040000 - depth
    let (procs', memory') := copyStackBytes procs memory dest src
    procs' = Function.update procs dest { procs dest with
        pRegisters := { (procs dest).pRegisters with
          regEsp := UInt32.ofNat bottom, regEbp := stackTop c } } ∧
      (procs' dest).pRegisters.regEsp.toNat + depth = (stackTop c).toNat ∧
      (∀ i < depth, memory' (bottom + i) = memory ((procs src).pRegisters.regEsp.toNat + i)) ∧
      (∀ a, ¬ InStack c a → memory' a = memory a) ∧
      ∀ q a, 1 ≤ q → q ≠ c → InStack q a → memory' a = memory a := by
  have hn : nprocs = 16 := rfl
  obtain ⟨hdepth, hbottom⟩ := toNat_bottom hp hc1 hc hlo hhi
  have htc := toNat_stackTop hc
  unfold copyStackBytes
  rw [hsrc, hdest]
  generalize hesp : (procs src).pRegisters.regEsp = esp at *
  have hcopy : memcpy memory (stackTop c + (esp - stackTop p)) esp (stackTop p - esp) =
      memory.copy memory (0x280000 + c * 0x040000 - (0x280000 + p * 0x040000 - esp.toNat))
        esp.toNat (0x280000 + p * 0x040000 - esp.toNat) := by
    unfold memcpy
    rw [hdepth, memcpyLoop_eq (by omega) (by omega) (by omega), hbottom]
  have hframe : ∀ a, ¬ InStack c a →
      memcpy memory (stackTop c + (esp - stackTop p)) esp (stackTop p - esp) a = memory a := by
    intro a ha
    rw [hcopy]
    unfold InStack at ha
    exact if_neg (by omega)
  refine ⟨?_, ?_, ?_, hframe, fun q a hq hqc ha => hframe a (inStack_ne ha hc1 hq (Ne.symm hqc))⟩
  · rw [← hbottom, UInt32.ofNat_toNat]
  · show (Function.update procs dest _ dest).pRegisters.regEsp.toNat + _ = _
    rw [Function.update_self, htc]
    show (stackTop c + (esp - stackTop p)).toNat + _ = _
    rw [hbottom]
    omega
  · intro i hi
    show memcpy _ _ _ _ _ = _
    rw [hcopy]
    unfold Mem.copy
    rw [if_pos (by omega), Nat.add_sub_cancel_left]

/-- The table of the picture in `copy_stack`: process 1 runs, process 2 is its child. -/
def pictureProcs (esp : UInt32) : ProcArray := fun i =>
  if i = 1 then { pPid := 1, pRegisters := { regEsp := esp }, pState := .runnable }
  else { pPid := i }

/-- With 0x29A4CC in the parent's `%esp` the child has 0x2DA4CC in its. -/
theorem picture_copies :
    ((copyStackBytes (pictureProcs 0x29A4CC) (fun _ => 0) 2 1).1 2).pRegisters.regEsp.toNat +
      (0x2C0000 - 0x29A4CC) = 0x300000 :=
  (copyStack_copies (pictureProcs 0x29A4CC) (fun _ => 0) 2 1 (by decide) (by decide) (by decide)
    (by decide) (by decide) rfl rfl (by decide) (by decide)).2.1

end OsLabs.Weensy.Mpos
