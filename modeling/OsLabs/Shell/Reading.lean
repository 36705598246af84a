import OsLabs.Shell.Separation

/-!
# Shell scripts: the variables of `makeSeparation`

What the flags of `makeSeparation` say about the text it is collecting, at every character of a
script, and the texts that the end of the file leaves.
-/

namespace OsLabs.Shell

open Function (update)

namespace Separator

variable {g : Char}

theorem read_append (s : Separator) (u v : Text) : s.read g (u ++ v) = (s.read g u).read g v :=
  List.foldl_append

theorem read_cons (s : Separator) (c : Char) (v : Text) :
    s.read g (c :: v) = (s.step g c).read g v :=
  rfl

/-! ## The variables in a run -/

/-- What the flags say about the text collected so far. -/
structure Sane (s : Separator) : Prop where
  depthIn : s.reading = .paren ∨ s.reading = .parenComment → 0 < s.countParath
  depthOut : s.reading = .top ∨ s.reading = .comment ∨ s.reading = .behind → s.countParath = 0
  behind : s.reading = .behind → s.str.getLast? = some ')'
  line : s.reading = .top ∨ s.reading = .comment → s.newLineFlag = false →
    ∃ c, s.str.getLast? = some c ∧ c ≠ '\n'
  pre : s.newLineFlag = false → ∃ c, s.preCh = some c ∧ c ≠ '\n'
  fresh : s.newLineFlag = true → s.preCh = none ∨ s.preCh = some '\n'
  set : s.reading = .top ∨ s.reading = .comment → s.str ≠ [] → s.preCh ≠ none

/-- No line number is negative. -/
structure Lined (s : Separator) : Prop where
  countLine : 0 ≤ s.countLine
  badLine : 0 ≤ s.badLine
  atLine : ∀ i, 0 ≤ s.atLine i

theorem update_nonneg {f : Nat → Int} (hf : ∀ i, 0 ≤ f i) {n : Nat} {x : Int} (hx : 0 ≤ x)
    (i : Nat) : 0 ≤ update f n x i := by
  by_cases hi : i = n
  · rw [hi, Function.update_self]
    exact hx
  · rw [Function.update_of_ne hi]
    exact hf i

theorem sane_start (atLine : Nat → Int) : Sane { atLine := atLine } :=
  ⟨nofun, fun _ => rfl, nofun, nofun, nofun, fun _ => .inl rfl, fun _ h => absurd rfl h⟩

theorem lined_start {atLine : Nat → Int} (h : ∀ i, 0 ≤ atLine i) : Lined { atLine := atLine } :=
  ⟨Int.le_of_lt Int.one_pos, Int.le_refl 0, h⟩

theorem Sane.inside {s : Separator} {ch : Char} (h : 0 ≤ s.countParath)
    (hch : ch = '(' ∨ 0 < s.countParath)
    (hpre : s.newLineFlag = false → ∃ c, s.preCh = some c ∧ c ≠ '\n')
    (hfresh : s.newLineFlag = true → s.preCh = none ∨ s.preCh = some '\n') :
    Sane (s.inside ch) := by
  unfold Separator.inside
  dsimp only
  by_cases h0 : s.countParath + (if ch = '(' then 1 else if ch = ')' then -1 else 0) = 0
  · rw [if_pos h0]
    have hclose : ch = ')' := by
      by_contra hne
      rw [if_neg hne] at h0
      split_ifs at h0 with h1
      · omega
      · have := hch.resolve_left h1
        omega
    refine ⟨nofun, fun _ => h0, fun _ => ?_, nofun, hpre, hfresh, nofun⟩
    dsimp only
    rw [List.getLast?_concat, hclose]
  · rw [if_neg h0]
    refine ⟨fun _ => ?_, nofun, nofun, nofun, hpre, hfresh, nofun⟩
    dsimp only
    split_ifs at h0 ⊢ with h1 h2
    · omega
    · have := hch.resolve_left h1
      omega
    · have := hch.resolve_left h1
      omega

theorem Sane.other {s : Separator} {ch : Char} (h : s.countParath = 0) (hch : ch ≠ '\n') :
    Sane (s.other ch) := by
  refine ⟨nofun, fun _ => h, nofun, fun _ _ => ⟨ch, ?_, hch⟩, fun _ => ⟨ch, rfl, hch⟩, nofun,
    fun _ _ => nofun⟩
  exact List.getLast?_concat

theorem Sane.newline {s : Separator} (h : s.countParath = 0) : Sane (s.newline g) := by
  unfold Separator.newline
  dsimp only
  repeat' split
  all_goals exact ⟨nofun, fun _ => h, nofun, nofun, nofun, fun _ => .inr rfl, fun _ _ => nofun⟩

theorem Sane.tail {s : Separator} {ch : Char} (h : s.countParath = 0) : Sane (s.tail g ch) := by
  unfold Separator.tail
  split
  · exact Sane.newline h
  · exact Sane.other h ‹_›

theorem Sane.step {s : Separator} (h : Sane s) (ch : Char) : Sane (s.step g ch) := by
  unfold Separator.step
  cases hr : s.reading with
  | stopped => exact h
  | top =>
    have h0 := h.depthOut (.inl hr)
    dsimp only
    split
    · exact ⟨nofun, nofun, nofun, nofun, h.pre, h.fresh, nofun⟩
    split
    · exact h
    split
    · exact ⟨nofun, fun _ => h0, nofun, fun _ => h.line (.inl hr), h.pre, h.fresh,
        fun _ => h.set (.inl hr)⟩
    split
    · exact Sane.inside (Int.le_of_eq h0.symm) (.inl ‹_›) h.pre h.fresh
    · exact Sane.tail h0
  | comment =>
    have h0 := h.depthOut (.inr (.inl hr))
    dsimp only
    split
    · exact ⟨nofun, fun _ => h0, nofun, fun _ => h.line (.inr hr), h.pre, h.fresh,
        fun _ => h.set (.inr hr)⟩
    · exact h
  | paren =>
    have h0 := h.depthIn (.inl hr)
    dsimp only
    split
    · exact ⟨nofun, nofun, nofun, nofun, h.pre, h.fresh, nofun⟩
    split
    · exact ⟨fun _ => h0, nofun, nofun, nofun, h.pre, h.fresh, nofun⟩
    · exact Sane.inside (Int.le_of_lt h0) (.inr h0) h.pre h.fresh
  | parenComment =>
    have h0 := h.depthIn (.inr hr)
    dsimp only
    split
    · exact ⟨fun _ => h0, nofun, nofun, nofun, h.pre, h.fresh, nofun⟩
    · exact h
  | behind =>
    dsimp only
    split
    · exact ⟨nofun, nofun, nofun, nofun, h.pre, h.fresh, nofun⟩
    · exact Sane.tail (h.depthOut (.inr (.inr hr)))

theorem Sane.read {s : Separator} (h : Sane s) (u : Text) : Sane (s.read g u) := by
  induction u generalizing s with
  | nil => exact h
  | cons c u ih => exact ih (h.step c)

/-- The loop over a subshell ends at a closing parenthesis. -/
theorem Sane.last {s : Separator} (h : Sane s) {ch : Char}
    (hr : (s.step g ch).reading = .behind) : ch = ')' := by
  have hb := (h.step (g := g) ch).behind hr
  have htail : (s.tail g ch).reading = .top := by
    unfold Separator.tail Separator.newline Separator.other
    dsimp only
    split_ifs <;> rfl
  have hinside : ∃ t : Separator, s.step g ch = t.inside ch := by
    revert hr
    unfold Separator.step
    cases hs : s.reading with
    | stopped =>
      intro hr
      rw [hs] at hr
      cases hr
    | top =>
      dsimp only
      split_ifs
      · exact nofun
      · intro hr
        rw [hs] at hr
        cases hr
      · exact nofun
      · exact fun _ => ⟨_, rfl⟩
      · rw [htail]
        exact nofun
    | comment =>
      dsimp only
      split_ifs
      · exact nofun
      · intro hr
        rw [hs] at hr
        cases hr
    | paren =>
      dsimp only
      split_ifs
      · exact nofun
      · exact nofun
      · exact fun _ => ⟨_, rfl⟩
    | parenComment =>
      dsimp only
      split_ifs
      · exact nofun
      · intro hr
        rw [hs] at hr
        cases hr
    | behind =>
      dsimp only
      split_ifs
      · exact nofun
      · rw [htail]
        exact nofun
  obtain ⟨t, ht⟩ := hinside
  rw [ht, show (t.inside ch).str = t.str ++ [ch] from rfl, List.getLast?_concat] at hb
  exact Option.some_inj.1 hb

theorem Lined.step {s : Separator} (h : Lined s) (ch : Char) : Lined (s.step g ch) := by
  obtain ⟨h1, h2, h3⟩ := h
  have hcount : 0 ≤ s.countLine + 1 := by omega
  have hinside (t : Separator) (ht : Lined t) : Lined (t.inside ch) := by
    refine ⟨?_, ht.badLine, ht.atLine⟩
    have := ht.countLine
    dsimp only [Separator.inside]
    split <;> omega
  have htail : Lined (s.tail g ch) := by
    unfold Separator.tail Separator.newline Separator.other
    dsimp only
    repeat' split
    all_goals
      refine ⟨by first | exact hcount | exact h1, h2, fun i => ?_⟩
      repeat' apply update_nonneg
      all_goals first | exact h3 | exact h1 | exact hcount | exact h3 i
  have hbreak : Lined s.breakOff := ⟨h1, h2, update_nonneg h3 h2⟩
  unfold Separator.step
  cases s.reading with
  | stopped => exact ⟨h1, h2, h3⟩
  | top =>
    dsimp only
    split
    · exact ⟨h1, h2, h3⟩
    split
    · exact ⟨h1, h2, h3⟩
    split
    · exact ⟨h1, h2, h3⟩
    split
    · exact hinside _ ⟨h1, h1, h3⟩
    · exact htail
  | comment =>
    dsimp only
    split
    · exact ⟨hcount, h2, h3⟩
    · exact ⟨h1, h2, h3⟩
  | paren =>
    dsimp only
    split
    · exact hbreak
    split
    · exact ⟨h1, h2, h3⟩
    · exact hinside s ⟨h1, h2, h3⟩
  | parenComment =>
    dsimp only
    split
    · exact ⟨hcount, h2, h3⟩
    · exact ⟨h1, h2, h3⟩
  | behind =>
    dsimp only
    split
    · exact hbreak
    · exact htail

theorem Lined.read {s : Separator} (h : Lined s) (u : Text) : Lined (s.read g u) := by
  induction u generalizing s with
  | nil => exact h
  | cons c u ih => exact ih (h.step c)

/-! ## The end of the file -/

/-- The texts that `finish` leaves. -/
def texts (s : Separator) : List Text := if s.str ≠ [] then s.word ++ [s.str] else s.word

theorem finish_word (s : Separator) (g : Char) :
    (s.finish g).word = (s.read g [eof, eof]).texts := by
  unfold finish texts
  dsimp only
  split_ifs <;> rfl

theorem Lined.finish {s : Separator} (h : Lined s) (g : Char) : ∀ i, 0 ≤ (s.finish g).atLine i := by
  have hr := h.read (g := g) [eof, eof]
  unfold Separator.finish
  dsimp only
  split_ifs
  · exact update_nonneg hr.atLine hr.countLine
  · exact hr.atLine
  · exact update_nonneg hr.atLine hr.countLine
  · exact hr.atLine

theorem lines_fst (s : Separator) : s.lines.map Prod.fst = s.word.map chomp := by
  unfold lines
  rw [List.map_map]
  conv_rhs => rw [← List.zipIdx_map_fst 0 s.word, List.map_map]
  rfl

theorem lines_nonneg {s : Separator} (h : ∀ i, 0 ≤ s.atLine i) : ∀ w ∈ s.lines, 0 ≤ w.2 := by
  intro w hw
  obtain ⟨u, -, rfl⟩ := List.mem_map.1 hw
  exact h _

end Separator

end OsLabs.Shell
