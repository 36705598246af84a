import OsLabs.Lib.ByteMem

/-!
# Programs over a block device

A program works on the blocks of a disk through `getblk` and `putblk`, has
global variables `σ`, and may abort; block kinds `τ` label the calls. Pointers
into a block are disk addresses. `run` is the plain meaning: every block is
always at hand, so only a block number past the end of the disk matters.
`wlp p Q s m`: if `p` ends, started with variables `s` on disk `m`, then `Q` holds
of its result. The rules below compute it for each construct.
-/

namespace OsLabs

inductive BlockProg (σ τ α : Type) where
  | ret (a : α)
  | abort
  | get (k : σ → BlockProg σ τ α)
  | set (s : σ) (k : BlockProg σ τ α)
  | getblk (bno : Nat) (clr : Bool) (type : τ) (k : BlockProg σ τ α)
  | putblk (bno : Nat) (k : BlockProg σ τ α)
  | load32 (a : Nat) (k : Nat → BlockProg σ τ α)
  | store32 (a v : Nat) (k : BlockProg σ τ α)
  | store (a : Nat) (bytes : List UInt8) (k : BlockProg σ τ α)

namespace BlockProg

variable {σ τ α β : Type}

def bind (p : BlockProg σ τ α) (f : α → BlockProg σ τ β) : BlockProg σ τ β :=
  match p with
  | ret a => f a
  | abort => abort
  | get k => get fun s => (k s).bind f
  | set s k => set s (k.bind f)
  | getblk bno clr type k => getblk bno clr type (k.bind f)
  | putblk bno k => putblk bno (k.bind f)
  | load32 a k => load32 a fun v => (k v).bind f
  | store32 a v k => store32 a v (k.bind f)
  | store a bytes k => store a bytes (k.bind f)

instance : Monad (BlockProg σ τ) where
  pure := ret
  bind := bind

/-- The meaning on a disk of `nblocks` blocks of 1024 bytes; `none` when the program aborts. -/
def run (nblocks : Nat) : BlockProg σ τ α → σ → Mem → Option (α × σ × Mem)
  | ret a, s, m => some (a, s, m)
  | abort, _, _ => none
  | get k, s, m => (k s).run nblocks s m
  | set s k, _, m => k.run nblocks s m
  | getblk bno clr _ k, s, m =>
    if bno < nblocks then k.run nblocks s (if clr then m.fill (1024 * bno) 1024 0 else m) else none
  | putblk _ k, s, m => k.run nblocks s m
  | load32 a k, s, m => (k (m.get32 a)).run nblocks s m
  | store32 a v k, s, m => k.run nblocks s (m.set32 a v)
  | store a bytes k, s, m => k.run nblocks s (m.store a bytes)

theorem run_bind (nblocks : Nat) (p : BlockProg σ τ α) (f : α → BlockProg σ τ β) (s : σ) (m : Mem) :
    (p >>= f).run nblocks s m =
      (p.run nblocks s m).bind fun r => (f r.1).run nblocks r.2.1 r.2.2 := by
  show (p.bind f).run nblocks s m = _
  induction p generalizing s m with
  | ret a => rfl
  | abort => rfl
  | get k ih => exact ih s s m
  | set s' k ih => exact ih s' m
  | getblk bno clr type k ih =>
    simp only [bind, run]
    split
    · exact ih _ _
    · rfl
  | putblk bno k ih => exact ih s m
  | load32 a k ih => exact ih _ s m
  | store32 a v k ih => exact ih s _
  | store a bytes k ih => exact ih s _

/-! ## Weakest liberal preconditions -/

/-- If the program ends, its result satisfies `Q`. -/
def wlp (nblocks : Nat) (p : BlockProg σ τ α) (Q : α → σ → Mem → Prop) (s : σ) (m : Mem) : Prop :=
  ∀ a s' m', p.run nblocks s m = some (a, s', m') → Q a s' m'

variable {nblocks : Nat} {Q Q' : α → σ → Mem → Prop} {s : σ} {m : Mem}

theorem wlp_mono {p : BlockProg σ τ α} (h : p.wlp nblocks Q s m)
    (hQ : ∀ a s' m', Q a s' m' → Q' a s' m') : p.wlp nblocks Q' s m :=
  fun a s' m' hr => hQ _ _ _ (h a s' m' hr)

theorem wlp_of_run {p : BlockProg σ τ α} {a : α} {s' : σ} {m' : Mem}
    (h : p.run nblocks s m = some (a, s', m')) : p.wlp nblocks Q s m ↔ Q a s' m' := by
  constructor
  · intro hw
    exact hw a s' m' h
  · intro hq b t n hr
    rw [h] at hr
    cases hr
    exact hq

@[simp] theorem wlp_pure {a : α} : (pure a : BlockProg σ τ α).wlp nblocks Q s m ↔ Q a s m :=
  wlp_of_run rfl

@[simp] theorem wlp_bind {p : BlockProg σ τ α} {f : α → BlockProg σ τ β}
    {Q : β → σ → Mem → Prop} : (p >>= f).wlp nblocks Q s m ↔
      p.wlp nblocks (fun a s' m' => (f a).wlp nblocks Q s' m') s m := by
  unfold wlp
  simp only [run_bind, Option.bind_eq_some_iff, Prod.exists]
  constructor
  · intro h a s' m' hp b s'' m'' hf
    exact h b s'' m'' ⟨a, s', m', hp, hf⟩
  · rintro h b s'' m'' ⟨a, s', m', hp, hf⟩
    exact h a s' m' hp b s'' m'' hf

/-! ## The single operations -/

def getGlobals : BlockProg σ τ σ := get ret

def setGlobals (s : σ) : BlockProg σ τ Unit := set s (ret ())

def getBlock (bno : Nat) (clr : Bool) (type : τ) : BlockProg σ τ Unit := getblk bno clr type (ret ())

def putBlock (bno : Nat) : BlockProg σ τ Unit := putblk bno (ret ())

def loadWord (a : Nat) : BlockProg σ τ Nat := load32 a ret

def storeWord (a v : Nat) : BlockProg σ τ Unit := store32 a v (ret ())

def storeBytes (a : Nat) (bytes : List UInt8) : BlockProg σ τ Unit := store a bytes (ret ())

section

variable (nblocks : Nat) (s s' : σ) (m : Mem) (bno a v : Nat) (clr : Bool) (type : τ)

theorem run_pure (b : α) : (pure b : BlockProg σ τ α).run nblocks s m = some (b, s, m) := rfl

theorem run_getGlobals :
    (getGlobals : BlockProg σ τ σ).run nblocks s m = some (s, s, m) := rfl

theorem run_setGlobals :
    (setGlobals s' : BlockProg σ τ Unit).run nblocks s m = some ((), s', m) := rfl

theorem run_getBlock : (getBlock bno clr type : BlockProg σ τ Unit).run nblocks s m =
    if bno < nblocks then some ((), s, if clr then m.fill (1024 * bno) 1024 0 else m) else none :=
  rfl

theorem run_putBlock :
    (putBlock bno : BlockProg σ τ Unit).run nblocks s m = some ((), s, m) := rfl

theorem run_loadWord :
    (loadWord a : BlockProg σ τ Nat).run nblocks s m = some (m.get32 a, s, m) := rfl

theorem run_storeWord :
    (storeWord a v : BlockProg σ τ Unit).run nblocks s m = some ((), s, m.set32 a v) := rfl

end

section

variable {Q : Unit → σ → Mem → Prop}

@[simp] theorem wlp_abort {Q : α → σ → Mem → Prop} :
    (abort : BlockProg σ τ α).wlp nblocks Q s m := nofun

@[simp] theorem wlp_getGlobals {Q : σ → σ → Mem → Prop} :
    (getGlobals : BlockProg σ τ σ).wlp nblocks Q s m ↔ Q s s m := wlp_of_run rfl

@[simp] theorem wlp_setGlobals {s' : σ} :
    (setGlobals s' : BlockProg σ τ Unit).wlp nblocks Q s m ↔ Q () s' m := wlp_of_run rfl

@[simp] theorem wlp_getBlock {bno : Nat} {clr : Bool} {type : τ} :
    (getBlock bno clr type : BlockProg σ τ Unit).wlp nblocks Q s m ↔
      (bno < nblocks → Q () s (if clr then m.fill (1024 * bno) 1024 0 else m)) := by
  unfold wlp getBlock run
  constructor
  · intro h hlt
    exact h () s _ (if_pos hlt)
  · intro h a s' m' hr
    split at hr
    · next hlt =>
      cases hr
      exact h hlt
    · cases hr

@[simp] theorem wlp_putBlock {bno : Nat} :
    (putBlock bno : BlockProg σ τ Unit).wlp nblocks Q s m ↔ Q () s m := wlp_of_run rfl

@[simp] theorem wlp_loadWord {Q : Nat → σ → Mem → Prop} {a : Nat} :
    (loadWord a : BlockProg σ τ Nat).wlp nblocks Q s m ↔ Q (m.get32 a) s m := wlp_of_run rfl

@[simp] theorem wlp_storeWord {a v : Nat} :
    (storeWord a v : BlockProg σ τ Unit).wlp nblocks Q s m ↔ Q () s (m.set32 a v) :=
  wlp_of_run rfl

@[simp] theorem wlp_storeBytes {a : Nat} {bytes : List UInt8} :
    (storeBytes a bytes : BlockProg σ τ Unit).wlp nblocks Q s m ↔ Q () s (m.store a bytes) :=
  wlp_of_run rfl

end

/-! ## Programs that end -/

section

variable {s' s'' : σ} {bno a v : Nat}

/-- On every disk of `nblocks` blocks the program ends; it changes the variables `s` to `s'`. -/
def Ends (nblocks : Nat) (p : BlockProg σ τ α) (s s' : σ) : Prop :=
  ∀ m, ∃ a m', p.run nblocks s m = some (a, s', m')

theorem Ends.bind {p : BlockProg σ τ α} {f : α → BlockProg σ τ β} (h : Ends nblocks p s s')
    (h' : ∀ a, Ends nblocks (f a) s' s'') : Ends nblocks (p >>= f) s s'' := by
  intro m
  obtain ⟨a, m', hp⟩ := h m
  obtain ⟨b, m'', hf⟩ := h' a m'
  refine ⟨b, m'', ?_⟩
  rw [run_bind, hp]
  exact hf

theorem Ends.pure (a : α) : Ends nblocks (pure a : BlockProg σ τ α) s s := fun m => ⟨a, m, rfl⟩

theorem Ends.getGlobals {f : σ → BlockProg σ τ β} (h : Ends nblocks (f s) s s') :
    Ends nblocks (getGlobals >>= f) s s' := h

theorem Ends.setGlobals : Ends nblocks (setGlobals s' : BlockProg σ τ Unit) s s' :=
  fun m => ⟨(), m, rfl⟩

theorem Ends.getBlock {clr : Bool} {type : τ} (h : bno < nblocks) :
    Ends nblocks (getBlock bno clr type) s s := fun _ => ⟨(), _, if_pos h⟩

theorem Ends.putBlock : Ends nblocks (putBlock bno : BlockProg σ τ Unit) s s :=
  fun m => ⟨(), m, rfl⟩

theorem Ends.loadWord : Ends nblocks (loadWord a : BlockProg σ τ Nat) s s := fun m => ⟨_, m, rfl⟩

theorem Ends.storeWord : Ends nblocks (storeWord a v : BlockProg σ τ Unit) s s :=
  fun _ => ⟨(), _, rfl⟩

theorem Ends.storeBytes {bytes : List UInt8} :
    Ends nblocks (storeBytes a bytes : BlockProg σ τ Unit) s s := fun _ => ⟨(), _, rfl⟩

end

end BlockProg

end OsLabs
