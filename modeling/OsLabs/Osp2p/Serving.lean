import Mathlib.Data.List.Basic
import Mathlib.Tactic.Common

/-!
# The main loop of the peer

After its downloads `main` accepts connections with `task_listen` and forks a process with
`task_upload` for each. The body of the loop ends with a `return 0`, so the parent leaves
with the first connection; and a `task_listen` that was interrupted gives NULL, which ends
the loop as well. An `Event` is what one turn meets.
-/

namespace OsLabs.Osp2p.Serving

/-- What `accept` gives. -/
inductive Accept where
  /-- A connection, with its file descriptor. -/
  | connection (fd : Nat)
  /-- `-1` with `EINTR`, `EAGAIN` or `EWOULDBLOCK`. -/
  | again
  /-- `-1` with another error. -/
  | error
  deriving DecidableEq, Repr

/-- One turn: what `accept` gives, and whether the `fork` for a connection succeeds. -/
structure Event where
  accept : Accept
  forks : Bool
  deriving DecidableEq, Repr

inductive Phase where
  /-- In `accept`. -/
  | listening
  /-- Returned from `main`. -/
  | returned
  /-- `die("accept")`. -/
  | died
  deriving DecidableEq, Repr

/-- The process that listens: the connections accepted, those that a child runs
`task_upload` for, and where it is. -/
structure Server where
  accepted : List Nat
  served : List Nat
  phase : Phase
  deriving DecidableEq, Repr

inductive Listened where
  | task (fd : Nat)
  | null
  | die
  deriving DecidableEq, Repr

def taskListen : Accept → Listened
  | .connection fd => .task fd
  | .again => .null
  | .error => .die

def turn (s : Server) (e : Event) : Server :=
  match taskListen e.accept with
  | .null => { s with phase := .returned }
  | .die => { s with phase := .died }
  | .task fd =>
    let s := { s with accepted := s.accepted ++ [fd] }
    if e.forks then
      -- the parent frees the task and returns
      { s with served := s.served ++ [fd], phase := .returned }
    else s

/-- The loop, as long as it goes on. -/
def mainLoop (s : Server) : List Event → Server
  | [] => s
  | e :: events =>
    match (turn s e).phase with
    | .listening => mainLoop (turn s e) events
    | _ => turn s e

def start : Server := ⟨[], [], .listening⟩

/-- Every connection accepted is served once, and the loop goes on listening. -/
structure ServesAll (events : List Event) : Prop where
  served : (mainLoop start events).served = (mainLoop start events).accepted
  listening : (mainLoop start events).phase = .listening

section

variable {s : Server} {e : Event} {events : List Event}

/-- No turn leaves the loop listening with the connection served. -/
theorem turn_cases (s : Server) (e : Event) :
    (turn s e).phase ≠ .listening ∨
      ((turn s e).served = s.served ∧ (turn s e).accepted.length = s.accepted.length + 1) := by
  unfold turn
  cases hl : taskListen e.accept with
  | null => exact .inl nofun
  | die => exact .inl nofun
  | task fd =>
    dsimp only
    split
    · exact .inl nofun
    · exact .inr ⟨rfl, List.length_append⟩

theorem turn_served (hf : e.forks = true) (h : s.served = s.accepted) :
    (turn s e).served = (turn s e).accepted := by
  unfold turn
  cases taskListen e.accept with
  | null => exact h
  | die => exact h
  | task fd =>
    simp only [hf, if_true]
    rw [h]

/-- Where forks succeed, every connection accepted is served once, in order. -/
theorem mainLoop_served (hf : ∀ e ∈ events, e.forks = true) (h : s.served = s.accepted) :
    (mainLoop s events).served = (mainLoop s events).accepted := by
  induction events generalizing s with
  | nil => exact h
  | cons e events ih =>
    have ht := turn_served (hf e List.mem_cons_self) h
    rw [mainLoop]
    split
    · exact ih (fun e he => hf e (List.mem_cons_of_mem _ he)) ht
    · exact ht

theorem mainLoop_listening (h : (mainLoop s events).phase = .listening) :
    (mainLoop s events).served = s.served ∧
      (mainLoop s events).accepted.length = s.accepted.length + events.length := by
  induction events generalizing s with
  | nil => exact ⟨rfl, rfl⟩
  | cons e events ih =>
    rw [mainLoop] at h ⊢
    split at h
    · next hp =>
      obtain ⟨hs, hl⟩ := ih h
      obtain hne | ⟨hs', hl'⟩ := turn_cases s e
      · exact absurd hp hne
      · rw [hs, hl, hs', hl', List.length_cons]
        exact ⟨rfl, by omega⟩
    · next hp => exact absurd h hp

end

/-- **The main loop serves all connections and goes on** only while `accept` has not returned
once. -/
theorem servesAll_iff (events : List Event) : ServesAll events ↔ events = [] := by
  constructor
  · rintro ⟨hserved, hlistening⟩
    obtain ⟨hs, hl⟩ := mainLoop_listening hlistening
    rw [← hserved, hs] at hl
    exact List.length_eq_zero_iff.mp (by simpa [start] using hl.symm)
  · rintro rfl
    exact ⟨rfl, rfl⟩

/-- The second of two connections is not accepted any more, and an interrupted `accept` ends
the loop. -/
theorem twoConnections_not_served :
    ¬ ServesAll [⟨.connection 4, true⟩, ⟨.connection 5, true⟩] ∧
    (mainLoop start [⟨.connection 4, true⟩, ⟨.connection 5, true⟩]) = ⟨[4], [4], .returned⟩ ∧
    (mainLoop start [⟨.again, true⟩, ⟨.connection 4, true⟩]) = ⟨[], [], .returned⟩ := by
  refine ⟨fun h => ?_, by decide, by decide⟩
  exact absurd h.listening (by decide)

end OsLabs.Osp2p.Serving
