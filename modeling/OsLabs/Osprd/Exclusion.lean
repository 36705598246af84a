import OsLabs.Osprd.Step

/-!
# The ramdisk lock: reader/writer exclusion

`CONDITION` is read outside the spinlock, one field after the other, and the
lock is taken in a later section that does not test it again; the flag test of
a release is also separate from the section that decrements the counter.
`stale_condition` is a schedule in which two files hold the write lock. Runs in
which what was tested still holds when the section is entered (`testStillHolds`)
and in which `n_read_lock` does not overflow (`readersFit`) keep readers and
writers apart (`run_exclusive`).
-/

namespace OsLabs.Osprd

variable {w : File → Bool}

/-- Of the marked files `l`, at most one holds the write lock, and then none
holds a read lock. -/
def Exclusive (w : File → Bool) (l : Finset File) : Prop :=
  ∀ f ∈ l, w f = true → ∀ g ∈ l, g = f

instance (l : Finset File) : Decidable (Exclusive w l) :=
  inferInstanceAs (Decidable (∀ f ∈ l, w f = true → ∀ g ∈ l, g = f))

/-- The number of marked files open for writing (`b = true`) or for reading. -/
def holders (w : File → Bool) (b : Bool) (l : Finset File) : Int := (l.filter (w · = b)).card

theorem holders_insert_le (b : Bool) (l : Finset File) (f : File) :
    holders w b (insert f l) ≤ holders w b l + if w f = b then 1 else 0 := by
  unfold holders
  rw [Finset.filter_insert]
  split
  · have := Finset.card_insert_le f (l.filter (w · = b))
    omega
  · omega

theorem holders_erase {f : File} {l : Finset File} (hf : f ∈ l) (b : Bool) :
    holders w b (l.erase f) = holders w b l - if w f = b then 1 else 0 := by
  unfold holders
  rw [Finset.filter_erase]
  split
  · next h =>
    have hmem : f ∈ l.filter (w · = b) := Finset.mem_filter.mpr ⟨hf, h⟩
    have := Finset.card_erase_add_one hmem
    omega
  · next h =>
    have hm : f ∉ l.filter (w · = b) := fun hm => h (Finset.mem_filter.mp hm).2
    rw [Finset.erase_eq_of_notMem hm]
    omega

theorem not_mem_of_holders {b : Bool} {l : Finset File} (h : holders w b l ≤ 0) {f : File}
    (hf : f ∈ l) : w f ≠ b := by
  intro e
  have : 0 < (l.filter (w · = b)).card :=
    Finset.card_pos.mpr ⟨f, Finset.mem_filter.mpr ⟨hf, e⟩⟩
  unfold holders at h
  omega

/-! ## Counters and marks -/

/-- The counters bound the numbers of holders from above. -/
structure Balanced (w : File → Bool) (l : Finset File) (d : OsprdInfo) : Prop where
  exclusive : Exclusive w l
  writers_le : holders w true l ≤ d.nWriteLock
  readers_le : holders w false l ≤ d.nReadLock

theorem Balanced.congr {l : Finset File} {d d' : OsprdInfo} (h : Balanced w l d)
    (h1 : d'.nWriteLock = d.nWriteLock) (h2 : d'.nReadLock = d.nReadLock) : Balanced w l d' :=
  ⟨h.exclusive, h1 ▸ h.writers_le, h2 ▸ h.readers_le⟩

/-- A file opened for reading joins when no writer holds the lock. -/
theorem Balanced.insert_reader {l : Finset File} {d : OsprdInfo} (h : Balanced w l d) {f : File}
    (hf : w f = false) (hw : d.nWriteLock ≤ 0) {d' : OsprdInfo}
    (h1 : d'.nWriteLock = d.nWriteLock) (h2 : d'.nReadLock = d.nReadLock + 1) :
    Balanced w (insert f l) d' := by
  refine ⟨fun g hg hwg => ?_, ?_, ?_⟩
  · rcases Finset.mem_insert.mp hg with rfl | hg
    · rw [hf] at hwg
      cases hwg
    · exact absurd hwg (not_mem_of_holders (h.writers_le.trans hw) hg)
  · have := holders_insert_le (w := w) true l f
    have := h.writers_le
    simp only [hf, Bool.false_eq_true, if_false] at *
    omega
  · have := holders_insert_le (w := w) false l f
    have := h.readers_le
    simp only [hf, if_true] at *
    omega

/-- A file opened for writing joins when nobody holds the lock. -/
theorem Balanced.insert_writer {l : Finset File} {d : OsprdInfo} (h : Balanced w l d) {f : File}
    (hf : w f = true) (hw : d.nWriteLock ≤ 0) (hr : d.nReadLock ≤ 0) {d' : OsprdInfo}
    (h1 : d'.nWriteLock = d.nWriteLock + 1) (h2 : d'.nReadLock = d.nReadLock) :
    Balanced w (insert f l) d' := by
  have hl : l = ∅ := by
    refine Finset.eq_empty_of_forall_notMem fun g hg => ?_
    have h1 := not_mem_of_holders (h.writers_le.trans hw) hg
    have h2 := not_mem_of_holders (h.readers_le.trans hr) hg
    cases hb : w g <;> simp_all
  subst hl
  refine ⟨fun g hg _ k hk => ?_, ?_, ?_⟩
  · rw [insert_empty_eq, Finset.mem_singleton] at hg hk
    rw [hg, hk]
  · have := holders_insert_le (w := w) true ∅ f
    have := h.writers_le
    simp only [hf, if_true] at *
    omega
  · have := holders_insert_le (w := w) false ∅ f
    have := h.readers_le
    simp only [hf, Bool.true_eq_false, if_false] at *
    omega

theorem Balanced.erase {l : Finset File} {d : OsprdInfo} (h : Balanced w l d) {f : File}
    (hf : f ∈ l) {d' : OsprdInfo}
    (h1 : d'.nWriteLock = d.nWriteLock - if w f = true then 1 else 0)
    (h2 : d'.nReadLock = d.nReadLock - if w f = false then 1 else 0) :
    Balanced w (l.erase f) d' := by
  refine ⟨fun g hg hwg k hk => ?_, ?_, ?_⟩
  · exact h.exclusive g (Finset.mem_of_mem_erase hg) hwg k (Finset.mem_of_mem_erase hk)
  · rw [holders_erase hf, h1]
    have := h.writers_le
    omega
  · rw [holders_erase hf, h2]
    have := h.readers_le
    omega

theorem Balanced.grant {l : Finset File} {d : OsprdInfo} (h : Balanced w l d) {f : File}
    (hf : d.lockFree (w f) = true) (pid : Int) :
    Balanced w (insert f l) (d.grant (w f) pid) := by
  cases hb : w f <;> simp [OsprdInfo.lockFree, hb] at hf
  · exact h.insert_reader hb hf.le rfl rfl
  · exact h.insert_writer hb hf.2.le hf.1.le rfl rfl

theorem Balanced.tryGrant {l : Finset File} {d : OsprdInfo} (h : Balanced w l d) {f : File}
    (hf : d.tryBusy (w f) = false) : Balanced w (insert f l) (d.tryGrant (w f)) := by
  cases hb : w f <;> simp [OsprdInfo.tryBusy, hb] at hf
  · exact h.insert_reader hb hf.1 rfl rfl
  · exact h.insert_writer hb hf.1.1 hf.1.2 rfl rfl

theorem Balanced.release {l : Finset File} {d : OsprdInfo} (h : Balanced w l d) {f : File}
    (hf : f ∈ l) : Balanced w (l.erase f) (d.release (w f)) := by
  cases hb : w f
  · exact h.erase hf (by simp [OsprdInfo.release, hb]) (by simp [OsprdInfo.release, hb])
  · exact h.erase hf (by simp [OsprdInfo.release, hb]) (by simp [OsprdInfo.release, hb])

theorem Balanced.closeSection {l : Finset File} {d : OsprdInfo} (h : Balanced w l d) {f : File}
    (hf : f ∈ l) (pid : Int) : Balanced w (l.erase f) (d.closeSection (w f) pid) := by
  cases hb : w f
  · exact h.erase hf (by simp [OsprdInfo.closeSection, hb]) (by simp [OsprdInfo.closeSection, hb])
  · exact h.erase hf (by simp [OsprdInfo.closeSection, hb]) (by simp [OsprdInfo.closeSection, hb])

/-- The counters are held by an `int`. -/
def Fits (d : OsprdInfo) : Prop := d.nWriteLock < 2 ^ 31 ∧ d.nReadLock < 2 ^ 31

theorem fits_stored (d : OsprdInfo) : Fits d.stored := ⟨CInt.wrap_lt _, CInt.wrap_lt _⟩

theorem Balanced.stored {l : Finset File} {d : OsprdInfo} (h : Balanced w l d) (hd : Fits d) :
    Balanced w l d.stored := by
  have hw := h.writers_le
  have hr := h.readers_le
  have hnonneg (b : Bool) : 0 ≤ holders w b l := Int.natCast_nonneg _
  have hw0 := hnonneg true
  have hr0 := hnonneg false
  exact h.congr (CInt.wrap_of_range (by omega) hd.1) (CInt.wrap_of_range (by omega) hd.2)

/-! ## The invariant of guarded runs -/

/-- What was tested outside the spinlock holds again when the section is entered. -/
def testStillHolds (w : File → Bool) (s : State) : Action → Bool
  | .next p =>
    match s.pc p with
    | .granting f _ => s.dev.lockFree (w f)
    | .releasing f => f ∈ s.locked
    | _ => true
  | _ => true

/-- A read lock is granted only while `n_read_lock` has room for it. -/
def readersFit (w : File → Bool) (s : State) : Action → Bool
  | .next p =>
    match s.pc p with
    | .granting f _ => w f || s.dev.nReadLock + 1 < 2 ^ 31
    | _ => true
  | .tryAcquire _ f => w f || s.dev.nReadLock + 1 < 2 ^ 31
  | _ => true

/-- A file whose last close has begun is marked and used by the closing process only. -/
structure Closing (s : State) : Prop where
  locked : ∀ p f, s.pc p = .closing f → f ∈ s.locked ∧ f ∈ s.closed
  alone : ∀ p q f, f ∈ s.closed → (s.pc p).file? = some f → (s.pc q).file? = some f → p = q

/-- A process moves inside its call, leaves it, or enters one on a file that is
not closed; marks stay, except perhaps those of files the process itself uses. -/
theorem Closing.goto {s t : State} (h : Closing s) {p : Pid} {c : Pc}
    (hc : ∀ f, c.file? = some f → (s.pc p).file? = some f ∨ f ∉ s.closed)
    (hn : ∀ f, c ≠ .closing f) (hpc : t.pc = Function.update s.pc p c)
    (hcl : t.closed = s.closed) (hl : ∀ f ∈ s.locked, f ∈ t.locked ∨ (s.pc p).file? = some f) :
    Closing t := by
  have other : ∀ q, q ≠ p → t.pc q = s.pc q := fun q e => by rw [hpc, Function.update_of_ne e]
  have self : t.pc p = c := by rw [hpc, Function.update_self]
  refine ⟨fun q f hq => ?_, fun q₁ q₂ f hf h₁ h₂ => ?_⟩
  · by_cases e : q = p
    · subst e
      exact absurd (self.symm.trans hq) (hn f)
    · rw [other q e] at hq
      obtain ⟨hlock, hclosed⟩ := h.locked q f hq
      refine ⟨(hl f hlock).resolve_right fun hp => e ?_, hcl ▸ hclosed⟩
      exact h.alone q p f hclosed (by rw [hq]; rfl) hp
  · rw [hcl] at hf
    have old : ∀ q, (t.pc q).file? = some f → (s.pc q).file? = some f := by
      intro q hq
      by_cases e : q = p
      · subst e
        rw [self] at hq
        exact (hc f hq).resolve_right fun hx => hx hf
      · rwa [other q e] at hq
    exact h.alone q₁ q₂ f hf (old q₁ h₁) (old q₂ h₂)

/-- The last close of `f` begins when nobody is in a call on it. -/
theorem Closing.begin {s t : State} (h : Closing s) {p : Pid} {f : File} {c : Pc}
    (hlast : ∀ q, (s.pc q).file? ≠ some f) (hc : c = .closing f ∧ f ∈ s.locked ∨ c = s.pc p)
    (hpc : t.pc = Function.update s.pc p c) (hcl : t.closed = insert f s.closed)
    (hl : t.locked = s.locked) : Closing t := by
  have cases : ∀ q, t.pc q = .closing f ∧ f ∈ s.locked ∧ q = p ∨ t.pc q = s.pc q := by
    intro q
    rw [hpc]
    by_cases e : q = p
    · subst e
      rw [Function.update_self]
      rcases hc with ⟨hc, hf⟩ | hc
      · exact .inl ⟨hc, hf, rfl⟩
      · exact .inr hc
    · exact .inr (Function.update_of_ne e ..)
  refine ⟨fun q g hq => ?_, fun q₁ q₂ g hg h₁ h₂ => ?_⟩
  · rw [hl, hcl]
    rcases cases q with ⟨hq', hf, -⟩ | hq'
    · rw [hq'] at hq
      cases hq
      exact ⟨hf, Finset.mem_insert_self ..⟩
    · obtain ⟨hlock, hclosed⟩ := h.locked q g (hq'.symm.trans hq)
      exact ⟨hlock, Finset.mem_insert_of_mem hclosed⟩
  · by_cases e : g = f
    · subst e
      have only : ∀ q, (t.pc q).file? = some g → q = p := fun q hq =>
        (cases q).elim (fun hq' => hq'.2.2) fun hq' => absurd (hq' ▸ hq) (hlast q)
      rw [only q₁ h₁, only q₂ h₂]
    · rw [hcl] at hg
      have old : ∀ q, (t.pc q).file? = some g → (s.pc q).file? = some g := by
        intro q hq
        rcases cases q with ⟨hq', -, -⟩ | hq'
        · rw [hq'] at hq
          exact absurd (Option.some.inj hq).symm e
        · rwa [← hq']
      exact h.alone q₁ q₂ g (Finset.mem_of_mem_insert_of_ne hg e) (old q₁ h₁) (old q₂ h₂)

/-- The invariant of runs in which the tests still hold. -/
structure Guarded (w : File → Bool) (s : State) : Prop where
  balanced : Balanced w s.locked s.dev
  fits : Fits s.dev
  closing : Closing s

theorem Fits.grant {d : OsprdInfo} (h : Fits d) {b : Bool} (hf : d.lockFree b = true)
    (hr : (b || decide (d.nReadLock + 1 < 2 ^ 31)) = true) (pid : Int) : Fits (d.grant b pid) := by
  cases b
  · exact ⟨h.1, of_decide_eq_true hr⟩
  · simp only [OsprdInfo.lockFree, if_true, Bool.and_eq_true, beq_iff_eq] at hf
    refine ⟨?_, h.2⟩
    show d.nWriteLock + 1 < 2 ^ 31
    omega

theorem Fits.tryGrant {d : OsprdInfo} (h : Fits d) {b : Bool} (hf : d.tryBusy b = false)
    (hr : (b || decide (d.nReadLock + 1 < 2 ^ 31)) = true) : Fits (d.tryGrant b) := by
  cases b
  · exact ⟨h.1, of_decide_eq_true hr⟩
  · simp only [OsprdInfo.tryBusy, if_true, Bool.or_eq_false_iff, decide_eq_false_iff_not] at hf
    refine ⟨?_, h.2⟩
    show d.nWriteLock + 1 < 2 ^ 31
    omega

theorem Fits.release {d : OsprdInfo} (h : Fits d) (b : Bool) : Fits (d.release b) := by
  obtain ⟨hw, hr⟩ := h
  cases b
  · refine ⟨hw, ?_⟩
    show d.nReadLock - 1 < 2 ^ 31
    omega
  · refine ⟨?_, hr⟩
    show d.nWriteLock - 1 < 2 ^ 31
    omega

theorem Fits.closeSection {d : OsprdInfo} (h : Fits d) (b : Bool) (pid : Int) :
    Fits (d.closeSection b pid) := by
  obtain ⟨hw, hr⟩ := h
  cases b
  · refine ⟨hw, ?_⟩
    show d.nReadLock - 1 < 2 ^ 31
    omega
  · refine ⟨?_, hr⟩
    show d.nWriteLock - 1 < 2 ^ 31
    omega

theorem guarded_advance {s s' : State} {p : Pid} {r : Option Ret} (h : Guarded w s)
    (hg : testStillHolds w s (.next p) = true) (hr : readersFit w s (.next p) = true)
    (hs : advance w s p = some (s', r)) : Guarded w s' := by
  obtain ⟨hb, hfit, hc⟩ := h
  unfold advance at hs
  simp only [testStillHolds] at hg
  simp only [readersFit] at hr
  cases hp : s.pc p with
    simp only [hp, Option.some.injEq, Prod.mk.injEq, reduceCtorEq] at hs hg hr
  | warTest f t =>
    split at hs <;> obtain ⟨rfl, -⟩ := by simpa using hs
    · exact ⟨hb, hfit, hc.goto (c := .idle) nofun nofun rfl rfl fun _ => .inl⟩
    · exact ⟨hb, hfit, hc.goto (c := .readReadLock f t) (by simp [hp, Pc.file?]) nofun rfl rfl
        fun _ => .inl⟩
  | granting f t =>
    obtain ⟨rfl, -⟩ := hs
    exact ⟨(hb.grant hg p).stored (hfit.grant hg hr p), fits_stored _,
      hc.goto (c := .finishing f t) (by simp [hp, Pc.file?]) nofun rfl rfl
        fun _ hf => .inl (Finset.mem_insert_of_mem hf)⟩
  | finishing f t =>
    obtain ⟨rfl, -⟩ := hs
    exact ⟨hb.congr rfl rfl, hfit, hc.goto (c := .idle) nofun nofun rfl rfl fun _ => .inl⟩
  | releasing f =>
    obtain ⟨rfl, -⟩ := hs
    refine ⟨(hb.release (of_decide_eq_true hg)).stored (hfit.release _), fits_stored _,
      hc.goto (c := .idle) nofun nofun rfl rfl fun g hl => ?_⟩
    by_cases e : g = f
    · exact .inr (by rw [hp, e]; rfl)
    · exact .inl (Finset.mem_erase.mpr ⟨e, hl⟩)
  | closing f =>
    obtain ⟨rfl, -⟩ := hs
    refine ⟨(hb.closeSection (hc.locked p f hp).1 p).stored (hfit.closeSection _ _), fits_stored _,
      hc.goto (c := .idle) nofun nofun rfl rfl fun g hl => ?_⟩
    by_cases e : g = f
    · exact .inr (by rw [hp, e]; rfl)
    · exact .inl (Finset.mem_erase.mpr ⟨e, hl⟩)
  | readReadLock f t | readWriteLock f t | readTail f t | blocked f t =>
    obtain ⟨rfl, -⟩ := hs
    exact ⟨hb, hfit, hc.goto (by split <;> simp [hp, Pc.file?]) (by split <;> simp) rfl rfl
      fun _ => .inl⟩

/-- **One step**: if what was tested still holds and the readers fit, exclusion is kept. -/
theorem guarded_step {s s' : State} {a : Action} {r : Option Ret} (h : Guarded w s)
    (hg : testStillHolds w s a = true) (hr : readersFit w s a = true) (hl : lastReference s a)
    (hs : step w s a = some (s', r)) : Guarded w s' := by
  cases a with
  | next p => exact guarded_advance h hg hr hs
  | acquire p f =>
    simp only [step, startAcquire] at hs
    split at hs
    · next hcall =>
      split at hs <;> obtain ⟨rfl, -⟩ := by simpa using hs
      · exact h
      · refine ⟨h.balanced.congr rfl rfl, h.fits, h.closing.goto (fun g hg => .inr ?_)
          (by split <;> simp) rfl rfl fun _ => .inl⟩
        have : g = f := by split at hg <;> exact (Option.some.inj hg).symm
        exact this ▸ hcall.2
    · cases hs
  | tryAcquire p f =>
    simp only [step, tryAcquire] at hs
    split at hs
    · next hcall =>
      split at hs <;> obtain ⟨rfl, -⟩ := by simpa using hs
      · exact h
      · next hb =>
        have hb : s.dev.tryBusy (w f) = false := by simpa using hb
        refine ⟨(h.balanced.tryGrant hb).stored (h.fits.tryGrant hb hr), fits_stored _,
          h.closing.goto (p := p) (fun _ => .inl) (fun g e => ?_) (Function.update_eq_self ..).symm
            rfl fun _ hf => .inl (Finset.mem_insert_of_mem hf)⟩
        rw [hcall.1] at e
        cases e
    · cases hs
  | release p f =>
    simp only [step, startRelease] at hs
    split at hs
    · next hcall =>
      split at hs <;> obtain ⟨rfl, -⟩ := by simpa using hs
      · exact ⟨h.balanced, h.fits, h.closing.goto (c := .releasing f) (fun g hg => .inr
          (Option.some.inj hg ▸ hcall.2)) (fun _ e => by cases e) rfl rfl fun _ => .inl⟩
      · exact h
    · cases hs
  | closeLast p f =>
    simp only [step, startClose] at hs
    split at hs
    · split at hs <;> obtain ⟨rfl, -⟩ := by simpa using hs
      · next hf =>
        exact ⟨h.balanced, h.fits, h.closing.begin hl (.inl ⟨rfl, hf⟩) rfl rfl rfl⟩
      · exact ⟨h.balanced, h.fits, h.closing.begin (p := p) hl (.inr rfl)
          (Function.update_eq_self ..).symm rfl rfl⟩
    · cases hs
  | signal p =>
    simp only [step, interrupt] at hs
    split at hs <;> cases hs
    exact ⟨h.balanced.congr rfl rfl, h.fits,
      h.closing.goto (c := .idle) (fun _ e => by cases e) (fun _ e => by cases e) rfl rfl
        fun _ => .inl⟩
  | overwrite ts =>
    simp only [step, overwrite] at hs
    split at hs <;> cases hs
    exact ⟨h.balanced.congr rfl rfl, h.fits, h.closing.locked, h.closing.alone⟩

/-- **Reader/writer exclusion** in runs in which what was tested outside the
spinlock still holds when the section is entered and `n_read_lock` does not overflow. -/
theorem run_exclusive {h : List Action} {s : State}
    (hr : (lockSystem w).RunIf
      (fun s a => testStillHolds w s a = true ∧ readersFit w s a = true) h s) :
    Exclusive w s.locked := by
  refine (hr.inv (I := fun _ s => Guarded w s) ?_ ?_).balanced.exclusive
  · rintro s rfl
    exact ⟨⟨nofun, le_rfl, le_rfl⟩, ⟨by decide, by decide⟩, nofun, nofun⟩
  · rintro h s a s' ih ⟨hg, hfit⟩ ⟨hl, r, hs⟩
    exact guarded_step ih hg hfit hl hs

/-- A writer is granted the lock, finishes and releases it; a reader follows. -/
def writerThenReader : List Action :=
  [.acquire (pid 0) 1, .next (pid 0), .next (pid 0), .next (pid 0), .next (pid 0), .next (pid 0),
    .next (pid 0), .release (pid 0) 1, .next (pid 0), .acquire (pid 1) 0, .next (pid 1),
    .next (pid 1), .next (pid 1)]

theorem run_exclusive_writerThenReader : ∃ s, (lockSystem fun f => f == 1).RunIf
    (fun s a => testStillHolds (fun f => f == 1) s a = true ∧
      readersFit (fun f => f == 1) s a = true) writerThenReader.reverse s ∧
    s.locked = {0} ∧ Exclusive (fun f => f == 1) s.locked := by
  have he : (lockExec (fun f => f == 1) (fun s a => testStillHolds (fun f => f == 1) s a &&
    readersFit (fun f => f == 1) s a) writerThenReader).isSome := by decide
  have hr := runIf_of_lockExec (G := fun s a => testStillHolds (fun f => f == 1) s a = true ∧
    readersFit (fun f => f == 1) s a = true) (fun _ _ h => Bool.and_eq_true_iff.1 h) he
  exact ⟨_, hr, rfl, run_exclusive hr⟩

/-! ## A schedule that breaks exclusion -/

/-- Two writers. The second reads both counters before the first takes the lock
and `ticket_tail` after the first has finished. -/
def twoWriters : List Action :=
  [.acquire (pid 0) 0, .acquire (pid 1) 1, .next (pid 0), .next (pid 0), .next (pid 0),
    .next (pid 0), .next (pid 1), .next (pid 1), .next (pid 1), .next (pid 0), .next (pid 0),
    .next (pid 1), .next (pid 1)]

theorem stale_condition : ∃ s, (lockSystem fun _ => true).Run twoWriters.reverse s ∧
    s.locked = {1, 0} ∧ ¬ Exclusive (fun _ => true) s.locked := by
  have he : (lockExec (fun _ => true) (fun _ _ => true) twoWriters).isSome := by decide
  have hr := runIf_of_lockExec (G := fun _ _ => True) (fun _ _ _ => trivial) he
  have hl : ((lockExec (fun _ => true) (fun _ _ => true) twoWriters).get he).locked = {1, 0} := rfl
  refine ⟨_, hr, hl, ?_⟩
  rw [hl]
  decide

end OsLabs.Osprd
