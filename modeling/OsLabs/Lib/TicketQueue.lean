import OsLabs.Lib.Runs
import Mathlib.Logic.Function.Basic
import Mathlib.Data.List.Basic

/-!
# Ticket queues with abandoned tickets

Clients draw numbered tickets and are served in order. A waiting client may
`drop` out, leaving its ticket in the queue, or `abandon` its ticket, recording
it in a list. When a served client finishes, the ticket being served advances
by one and then makes a single pass over the recorded tickets (`skip`).

* `Ordered` is an invariant of every run: nobody waiting is ever passed over.
* `Live` is an invariant of runs with no `drop` in which no ticket is abandoned
  after its successor (`InOrder`): the ticket being served is never a dead one.
-/

namespace OsLabs.TicketQueue

universe u

/-- A client and its ticket: `served` has been let through, `leaving` has been
granted the resource and has yet to advance the queue. -/
inductive Slot where
  | out
  | waiting (t : Nat)
  | served (t : Nat)
  | leaving (t : Nat)

def Slot.ticket? : Slot → Option Nat
  | out => none
  | waiting t | served t | leaving t => some t

/-- `head` is the next ticket to draw, `tail` the ticket being served. -/
structure Queue (P : Type u) where
  head : Nat
  tail : Nat
  abandoned : List Nat
  slot : P → Slot

/-- One pass over a list of recorded tickets. -/
def skip : List Nat → Nat → Nat
  | [], n => n
  | t :: ts, n => skip ts (if t = n then n + 1 else n)

theorem le_skip : ∀ (l : List Nat) (n : Nat), n ≤ skip l n
  | [], n => Nat.le_refl n
  | t :: ts, n => by
    have := le_skip ts (if t = n then n + 1 else n)
    simp only [skip]
    split
    · next h => rw [if_pos h] at this; omega
    · next h => rwa [if_neg h] at this

/-- A pass moves over recorded tickets only. -/
theorem mem_of_lt_skip : ∀ {l : List Nat} {n u : Nat}, n ≤ u → u < skip l n → u ∈ l
  | [], n, u, h1, h2 => by simp only [skip] at h2; omega
  | t :: ts, n, u, h1, h2 => by
    simp only [skip] at h2
    split at h2
    · next e =>
      rcases Nat.eq_or_lt_of_le h1 with rfl | h
      · simp [e]
      · exact List.mem_cons_of_mem _ (mem_of_lt_skip h h2)
    · exact List.mem_cons_of_mem _ (mem_of_lt_skip h1 h2)

/-- No ticket is recorded after its successor. -/
def InOrder (l : List Nat) : Prop := ∀ l₁ t l₂, l = l₁ ++ t :: l₂ → t + 1 ∉ l₁

theorem InOrder.tail {t : Nat} {ts : List Nat} (h : InOrder (t :: ts)) : InOrder ts :=
  fun l₁ u l₂ e hu => h (t :: l₁) u l₂ (by rw [e]; rfl) (List.mem_cons_of_mem _ hu)

theorem InOrder.snoc {l : List Nat} {t : Nat} (h : InOrder l) (ht : t + 1 ∉ l) :
    InOrder (l ++ [t]) := by
  intro l₁ u l₂ e
  rcases List.eq_nil_or_concat l₂ with rfl | ⟨l₂, v, rfl⟩
  · obtain ⟨rfl, e'⟩ := List.append_inj' e rfl
    obtain ⟨rfl, -⟩ := List.cons.inj e'
    exact ht
  · rw [List.concat_eq_append, ← List.cons_append, ← List.append_assoc] at e
    exact h l₁ u l₂ (List.append_inj' e rfl).1

/-- In order, one pass gets past every recorded ticket it meets. -/
theorem skip_not_mem : ∀ {l : List Nat}, InOrder l → ∀ n, skip l n ∉ l
  | [], _, _ => List.not_mem_nil
  | t :: ts, h, n => by
    have ih := skip_not_mem h.tail (if t = n then n + 1 else n)
    simp only [skip, List.mem_cons, not_or]
    refine ⟨fun e => ?_, ih⟩
    split at e
    · have := le_skip ts (n + 1)
      omega
    · next hne =>
      -- `t` was reached by stepping over `t - 1`, recorded after `t`
      have hle := le_skip ts n
      have hmem : t - 1 ∈ ts := mem_of_lt_skip (n := n) (by omega) (by omega)
      obtain ⟨l₁, l₂, rfl⟩ := List.append_of_mem hmem
      exact h (t :: l₁) (t - 1) l₂ rfl (by simp [show t - 1 + 1 = t by omega])

/-! ## Moves -/

inductive Move (P : Type u) where
  | stay
  | draw (p : P)
  | drop (p : P)
  | serve (p : P)
  | grant (p : P)
  | finish (p : P)
  | abandon (p : P)

section
variable {P : Type u} [DecidableEq P]

def Queue.put (q : Queue P) (p : P) (x : Slot) : Queue P :=
  { q with slot := Function.update q.slot p x }

inductive Step : Queue P → Move P → Queue P → Prop where
  | stay (q : Queue P) : Step q .stay q
  | draw {q : Queue P} {p : P} : q.slot p = .out →
      Step q (.draw p) { q.put p (.waiting q.head) with head := q.head + 1 }
  | drop {q : Queue P} {p : P} {t : Nat} : q.slot p = .waiting t →
      Step q (.drop p) (q.put p .out)
  | serve {q : Queue P} {p : P} {t : Nat} : q.slot p = .waiting t → t = q.tail →
      Step q (.serve p) (q.put p (.served t))
  | grant {q : Queue P} {p : P} {t : Nat} : q.slot p = .served t →
      Step q (.grant p) (q.put p (.leaving t))
  | finish {q : Queue P} {p : P} {t : Nat} : q.slot p = .leaving t →
      Step q (.finish p) { q.put p .out with tail := skip q.abandoned (q.tail + 1) }
  | abandon {q : Queue P} {p : P} {t : Nat} : q.slot p = .waiting t →
      Step q (.abandon p) { q.put p .out with
        tail := if q.tail = t then q.tail + 1 else q.tail
        abandoned := q.abandoned ++ [t] }

/-- Moves that leave no hole in the queue. -/
def Orderly (q : Queue P) : Move P → Prop
  | .drop _ => False
  | .abandon p => ∀ t, q.slot p = .waiting t → t + 1 ∉ q.abandoned
  | _ => True

def empty : Queue P := ⟨0, 0, [], fun _ => .out⟩

/-! ## Nobody is passed over -/

structure Ordered (q : Queue P) : Prop where
  tail_le : q.tail ≤ q.head
  ticket_lt : ∀ p t, (q.slot p).ticket? = some t → t < q.head
  ticket_inj : ∀ p p' t, (q.slot p).ticket? = some t → (q.slot p').ticket? = some t → p = p'
  waiting_ge : ∀ p t, q.slot p = .waiting t → q.tail ≤ t
  served_eq : ∀ p t, q.slot p = .served t ∨ q.slot p = .leaving t → t = q.tail
  abandoned_lt : ∀ t ∈ q.abandoned, t < q.head
  abandoned_free : ∀ t ∈ q.abandoned, ∀ p, (q.slot p).ticket? ≠ some t

omit [DecidableEq P] in
theorem ordered_empty : Ordered (empty : Queue P) := by
  constructor <;> simp [empty, Slot.ticket?]

theorem put_slot (q : Queue P) (p p' : P) (x : Slot) :
    (q.put p x).slot p' = if p' = p then x else q.slot p' := Function.update_apply ..

@[simp] theorem put_slot_self (q : Queue P) (p : P) (x : Slot) : (q.put p x).slot p = x := by
  simp [put_slot]

theorem put_slot_of_ne (q : Queue P) {p p' : P} (x : Slot) (h : p' ≠ p) :
    (q.put p x).slot p' = q.slot p' := by simp [put_slot, h]

/-- Changing a client to a slot that holds its old ticket, or none. -/
theorem Ordered.put {q : Queue P} (h : Ordered q) {p : P} {x : Slot}
    (hx : ∀ t, x.ticket? = some t → (q.slot p).ticket? = some t)
    (hw : ∀ t, x = .waiting t → q.tail ≤ t)
    (hs : ∀ t, x = .served t ∨ x = .leaving t → t = q.tail) : Ordered (q.put p x) := by
  have old : ∀ p' t, ((q.put p x).slot p').ticket? = some t → (q.slot p').ticket? = some t := by
    intro p' t e
    rw [put_slot] at e
    split at e
    · next he => subst he; exact hx t e
    · exact e
  refine ⟨h.tail_le, fun p' t e => h.ticket_lt p' t (old p' t e),
    fun p₁ p₂ t e₁ e₂ => h.ticket_inj p₁ p₂ t (old p₁ t e₁) (old p₂ t e₂), ?_, ?_,
    h.abandoned_lt, fun t ht p' e => h.abandoned_free t ht p' (old p' t e)⟩
  · intro p' t e
    rw [put_slot] at e
    split at e
    · exact hw t e
    · exact h.waiting_ge p' t e
  · intro p' t e
    rw [put_slot] at e
    split at e
    · exact hs t e
    · exact h.served_eq p' t e

theorem Ordered.draw {q : Queue P} (h : Ordered q) (p : P) :
    Ordered { q.put p (.waiting q.head) with head := q.head + 1 } := by
  have fresh : ∀ p', (q.slot p').ticket? ≠ some q.head := fun p' e =>
    absurd (h.ticket_lt p' _ e) (Nat.lt_irrefl _)
  constructor
  · exact Nat.le_succ_of_le h.tail_le
  · intro p' t e
    simp only [put_slot] at e
    split at e
    · cases e; exact Nat.lt_succ_self _
    · exact Nat.lt_succ_of_lt (h.ticket_lt p' t e)
  · intro p₁ p₂ t e₁ e₂
    simp only [put_slot] at e₁ e₂
    split at e₁ <;> split at e₂
    · next h₁ h₂ => rw [h₁, h₂]
    · cases e₁; exact absurd e₂ (fresh p₂)
    · cases e₂; exact absurd e₁ (fresh p₁)
    · exact h.ticket_inj p₁ p₂ t e₁ e₂
  · intro p' t e
    simp only [put_slot] at e
    split at e
    · cases e; exact h.tail_le
    · exact h.waiting_ge p' t e
  · intro p' t e
    simp only [put_slot] at e
    split at e
    · rcases e with e | e <;> cases e
    · exact h.served_eq p' t e
  · exact fun t ht => Nat.lt_succ_of_lt (h.abandoned_lt t ht)
  · intro t ht p' e
    simp only [put_slot] at e
    split at e
    · cases e; exact absurd (h.abandoned_lt _ ht) (Nat.lt_irrefl _)
    · exact h.abandoned_free t ht p' e

omit [DecidableEq P] in
/-- The queue may move on to `n` when no waiting client has a ticket below `n`
and nobody is being served. -/
theorem Ordered.advance {q : Queue P} (h : Ordered q) {n : Nat} (hn : n ≤ q.head)
    (hw : ∀ p t, q.slot p = .waiting t → n ≤ t)
    (hs : ∀ p t, ¬ (q.slot p = .served t ∨ q.slot p = .leaving t)) :
    Ordered { q with tail := n } :=
  ⟨hn, h.ticket_lt, h.ticket_inj, hw, fun p t e => absurd e (hs p t), h.abandoned_lt,
    h.abandoned_free⟩

/-- Once the client with ticket `tail` is out, nobody is being served. -/
theorem Ordered.nobody_served {q : Queue P} (h : Ordered q) {p : P}
    (hp : (q.slot p).ticket? = some q.tail) (p' : P) (t : Nat) :
    ¬ ((q.put p .out).slot p' = .served t ∨ (q.put p .out).slot p' = .leaving t) := by
  rw [put_slot]
  split
  · rintro (e | e) <;> cases e
  · next hne =>
    intro e
    have ht := h.served_eq p' t e
    refine hne (h.ticket_inj p' p t ?_ (ht ▸ hp))
    rcases e with e | e <;> rw [e] <;> rfl

theorem Ordered.put_out {q : Queue P} (h : Ordered q) (p : P) : Ordered (q.put p .out) :=
  h.put (fun _ e => by cases e) (fun _ e => by cases e) fun _ e => by rcases e with e | e <;> cases e

omit [DecidableEq P] in
/-- Recording a ticket that nobody holds. -/
theorem Ordered.record {q : Queue P} (h : Ordered q) {t : Nat} (ht : t < q.head)
    (hf : ∀ p, (q.slot p).ticket? ≠ some t) :
    Ordered { q with abandoned := q.abandoned ++ [t] } := by
  refine ⟨h.tail_le, h.ticket_lt, h.ticket_inj, h.waiting_ge, h.served_eq, ?_, ?_⟩
  · intro u hu
    rcases List.mem_append.mp hu with hu | hu
    · exact h.abandoned_lt u hu
    · rwa [List.mem_singleton.mp hu]
  · intro u hu p
    rcases List.mem_append.mp hu with hu | hu
    · exact h.abandoned_free u hu p
    · rw [List.mem_singleton.mp hu]; exact hf p

/-- Nobody else holds the ticket of a client. -/
theorem Ordered.put_out_free {q : Queue P} (h : Ordered q) {p : P} {t : Nat}
    (hp : (q.slot p).ticket? = some t) (p' : P) : ((q.put p .out).slot p').ticket? ≠ some t := by
  rw [put_slot]
  split
  · exact fun e => by cases e
  · next hne => exact fun e => hne (h.ticket_inj p' p t e hp)

/-- A waiting client other than the one with ticket `tail` is behind it. -/
theorem Ordered.lt_of_waiting {q : Queue P} (h : Ordered q) {p p' : P} {u : Nat}
    (hp : (q.slot p).ticket? = some q.tail) (hu : (q.put p .out).slot p' = .waiting u) :
    q.tail < u := by
  have hne : u ≠ q.tail := fun e => by
    subst e
    exact h.put_out_free hp p' (by rw [hu]; rfl)
  exact Nat.lt_of_le_of_ne ((h.put_out p).waiting_ge p' u hu) (Ne.symm hne)

theorem Ordered.finish {q : Queue P} (h : Ordered q) {p : P} {t : Nat}
    (hp : q.slot p = .leaving t) :
    Ordered { q.put p .out with tail := skip q.abandoned (q.tail + 1) } := by
  have ht : (q.slot p).ticket? = some q.tail := by rw [hp, h.served_eq p t (.inr hp)]; rfl
  have hlt : q.tail < q.head := h.ticket_lt p _ ht
  refine (h.put_out p).advance ?_ ?_ (h.nobody_served ht)
  · by_contra hgt
    exact absurd (h.abandoned_lt q.head (mem_of_lt_skip hlt (Nat.not_le.mp hgt))) (Nat.lt_irrefl _)
  · intro p' u hu
    by_contra hgt
    have hmem := mem_of_lt_skip (h.lt_of_waiting ht hu) (Nat.not_le.mp hgt)
    exact (h.put_out p).abandoned_free u hmem p' (by rw [hu]; rfl)

theorem Ordered.abandon {q : Queue P} (h : Ordered q) {p : P} {t : Nat}
    (hp : q.slot p = .waiting t) :
    Ordered { q.put p .out with
      tail := if q.tail = t then q.tail + 1 else q.tail
      abandoned := q.abandoned ++ [t] } := by
  have ht : (q.slot p).ticket? = some t := by rw [hp]; rfl
  have hout := (h.put_out p).record (h.ticket_lt p t ht) (h.put_out_free ht)
  by_cases e : q.tail = t
  · subst e
    rw [if_pos rfl]
    exact hout.advance (h.ticket_lt p _ ht) (fun p' u hu => h.lt_of_waiting ht hu)
      (h.nobody_served ht)
  · rw [if_neg e]
    exact hout

/-- **Every move keeps the queue ordered.** -/
theorem Ordered.step {q q' : Queue P} {m : Move P} (h : Ordered q) (hs : Step q m q') :
    Ordered q' := by
  cases hs with
  | stay => exact h
  | draw _ => exact h.draw _
  | drop _ => exact h.put_out _
  | serve hp ht =>
    refine h.put (fun u e => by rw [hp]; exact e) (fun u e => by cases e) fun u e => ?_
    rcases e with e | e <;> cases e
    exact ht
  | grant hp =>
    refine h.put (fun u e => by rw [hp]; exact e) (fun u e => by cases e) fun u e => ?_
    rcases e with e | e <;> cases e
    exact h.served_eq _ _ (.inl hp)
  | finish hp => exact h.finish hp
  | abandon hp => exact h.abandon hp

/-! ## No dead ticket is being served -/

structure Live (q : Queue P) : Prop where
  covered : ∀ u, q.tail ≤ u → u < q.head →
    (∃ p, (q.slot p).ticket? = some u) ∨ u ∈ q.abandoned
  inOrder : InOrder q.abandoned
  tail_live : q.tail ∉ q.abandoned

omit [DecidableEq P] in
theorem live_empty : Live (empty : Queue P) :=
  ⟨fun _ _ h => absurd h (Nat.not_lt_zero _),
    fun l₁ t l₂ e => by simp [empty] at e, List.not_mem_nil⟩

omit [DecidableEq P] in
/-- In a live queue either no ticket is outstanding or somebody holds the one being served. -/
theorem Live.held {q : Queue P} (h : Live q) (ho : Ordered q) :
    q.tail = q.head ∨ ∃ p, (q.slot p).ticket? = some q.tail := by
  rcases Nat.eq_or_lt_of_le ho.tail_le with e | hlt
  · exact .inl e
  · exact .inr ((h.covered q.tail (Nat.le_refl _) hlt).resolve_right h.tail_live)

/-- A client keeps its ticket, or gives up one that is recorded or behind `tail`. -/
theorem Live.covered_put {q : Queue P} (h : Live q) {p : P} {x : Slot} {n : Nat}
    {l : List Nat} (hn : q.tail ≤ n) (hl : ∀ u ∈ q.abandoned, u ∈ l)
    (hx : ∀ t, (q.slot p).ticket? = some t → x.ticket? = some t ∨ t < n ∨ t ∈ l) :
    ∀ u, n ≤ u → u < q.head → (∃ p', ((q.put p x).slot p').ticket? = some u) ∨ u ∈ l := by
  intro u h1 h2
  rcases h.covered u (Nat.le_trans hn h1) h2 with ⟨p', hp'⟩ | hu
  · by_cases e : p' = p
    · subst e
      rcases hx u hp' with hx | hx | hx
      · exact .inl ⟨p', by simpa using hx⟩
      · omega
      · exact .inr hx
    · exact .inl ⟨p', by rwa [put_slot_of_ne _ _ e]⟩
  · exact .inr (hl u hu)

/-- **Orderly moves keep the queue live.** -/
theorem Live.step {q q' : Queue P} {m : Move P} (h : Live q) (ho : Ordered q)
    (hg : Orderly q m) (hs : Step q m q') : Live q' := by
  cases hs with
  | stay => exact h
  | drop _ => exact hg.elim
  | @draw p hp =>
    refine ⟨fun u h1 h2 => ?_, h.inOrder, h.tail_live⟩
    rcases Nat.eq_or_lt_of_le (Nat.le_of_lt_succ h2) with rfl | hlt
    · exact .inl ⟨p, by simp [Slot.ticket?]⟩
    · exact h.covered_put (Nat.le_refl _) (fun _ hu => hu)
        (fun t e => by rw [hp] at e; cases e) u h1 hlt
  | serve hp _ =>
    exact ⟨h.covered_put (Nat.le_refl _) (fun _ hu => hu) fun t e => .inl (by rwa [hp] at e),
      h.inOrder, h.tail_live⟩
  | grant hp =>
    exact ⟨h.covered_put (Nat.le_refl _) (fun _ hu => hu) fun t e => .inl (by rwa [hp] at e),
      h.inOrder, h.tail_live⟩
  | @finish p t hp =>
    have hle := le_skip q.abandoned (q.tail + 1)
    refine ⟨h.covered_put (n := skip q.abandoned (q.tail + 1)) (by omega) (fun _ hu => hu)
      fun u e => .inr (.inl ?_), h.inOrder, skip_not_mem h.inOrder _⟩
    rw [hp] at e
    cases e
    have := ho.served_eq p t (.inr hp)
    omega
  | @abandon p t hp =>
    have hsucc := hg t hp
    refine ⟨h.covered_put (n := if q.tail = t then q.tail + 1 else q.tail) (by split <;> omega)
      (fun u hu => List.mem_append_left _ hu) fun u e => .inr (.inr ?_), h.inOrder.snoc hsucc, ?_⟩
    · rw [hp] at e
      cases e
      simp
    · simp only [List.mem_append, List.mem_singleton, not_or]
      split
      · next e => subst e; exact ⟨hsucc, by omega⟩
      · next e => exact ⟨h.tail_live, e⟩

end

end OsLabs.TicketQueue
