import OsLabs.Shell.Buffers
import OsLabs.Shell.Merge

/-!
# Shell scripts: comments and trailing blanks

Two runs of `makeSeparation`, on a script and on the script less a comment or the blanks at the
end of a line, are compared character by character from the place of the deletion on.
-/

namespace OsLabs.Shell

/-! ## Two runs -/

namespace Separator

/-- Two runs that agree but for the difference in the texts, and but for lines. -/
structure NearState (s s' : Separator) : Prop where
  same : s' = { s with word := s'.word, str := s'.str, atLine := s'.atLine }
  texts : Near (s.word ++ [s.str]) (s'.word ++ [s'.str])

section

variable {g : Char} {s s' : Separator}

theorem NearState.length (h : NearState s s') :
    s.word.length = s'.word.length ∧ (0 < s.str.length ↔ 0 < s'.str.length) := by
  have hl := h.texts.length
  rw [List.length_append, List.length_append] at hl
  refine ⟨Nat.add_right_cancel hl, ?_⟩
  rcases near_concat.1 h.texts with ⟨-, hn⟩ | ⟨hx, -⟩
  · rw [List.length_pos_iff, List.length_pos_iff]
    exact iff_of_true hn.ne.1 hn.ne.2
  · rw [hx]

theorem NearState.append (h : NearState s s') (u : Text) :
    Near (s.word ++ [s.str ++ u]) (s'.word ++ [s'.str ++ u]) := by
  rw [near_concat]
  rcases near_concat.1 h.texts with ⟨hw, hn⟩ | ⟨hx, hn⟩
  · exact .inl ⟨hw, hn.append u⟩
  · exact .inr ⟨by rw [hx], hn⟩

theorem NearState.push (h : NearState s s') :
    Near (s.word ++ [s.str] ++ [[]]) (s'.word ++ [s'.str] ++ [[]]) :=
  near_concat.2 (.inr ⟨rfl, h.texts⟩)

theorem NearState.inside (h : NearState s s') (ch : Char) :
    NearState (s.inside ch) (s'.inside ch) := by
  refine ⟨?_, h.append [ch]⟩
  have hs := h.same
  generalize s'.word = word, s'.str = str, s'.atLine = atLine at hs
  subst hs
  rfl

theorem NearState.breakOff (h : NearState s s') : NearState s.breakOff s'.breakOff := by
  refine ⟨?_, h.push⟩
  have hs := h.same
  generalize s'.word = word, s'.str = str, s'.atLine = atLine at hs
  subst hs
  rfl

theorem NearState.tail (h : NearState s s') (ch : Char) : NearState (s.tail g ch) (s'.tail g ch) := by
  have htexts := h.texts
  have happend := h.append
  have hpush := h.push
  obtain ⟨-, hlen⟩ := h.length
  have hs := h.same
  generalize s'.word = word, s'.str = str, s'.atLine = atLine at *
  subst hs
  unfold Separator.tail
  split
  · unfold Separator.newline
    dsimp only at hlen happend hpush ⊢
    simp only [hlen]
    split
    · exact ⟨rfl, hpush⟩
    split
    · exact ⟨rfl, happend ['\n']⟩
    · exact ⟨rfl, htexts⟩
  · exact ⟨rfl, happend [ch]⟩

theorem NearState.step (h : NearState s s') (ch : Char) :
    NearState (s.step g ch) (s'.step g ch) := by
  have hread (r : Reading) : NearState { s with reading := r } { s' with reading := r } := by
    refine ⟨?_, h.texts⟩
    rw [h.same]
  have hcount (r : Reading) : NearState { s with countLine := s.countLine + 1, reading := r }
      { s' with countLine := s'.countLine + 1, reading := r } := by
    refine ⟨?_, h.texts⟩
    rw [h.same]
  have hbad : NearState { s with badLine := s.countLine } { s' with badLine := s'.countLine } := by
    refine ⟨?_, h.texts⟩
    rw [h.same]
  have hopen := hbad.inside ch
  unfold Separator.step
  generalize Separator.inside { s with badLine := s.countLine } ch = t at hopen
  generalize Separator.inside { s' with badLine := s'.countLine } ch = t' at hopen
  rw [show s'.reading = s.reading by rw [h.same],
    show (isBlank ch && s'.newLineFlag) = (isBlank ch && s.newLineFlag) by rw [h.same]]
  cases s.reading with
  | stopped => exact h
  | top =>
    dsimp only
    split
    · exact hread .stopped
    split
    · exact h
    split
    · exact hread .comment
    split
    · exact hopen
    · exact h.tail ch
  | comment =>
    dsimp only
    split
    · exact hcount .top
    · exact h
  | paren =>
    dsimp only
    split
    · exact h.breakOff
    split
    · exact hread .parenComment
    · exact h.inside ch
  | parenComment =>
    dsimp only
    split
    · exact hcount .paren
    · exact h
  | behind =>
    dsimp only
    split
    · exact h.breakOff
    · exact h.tail ch

theorem NearState.read (h : NearState s s') (u : Text) : NearState (s.read g u) (s'.read g u) := by
  induction u generalizing s s' with
  | nil => exact h
  | cons c u ih => exact ih (h.step c)

end

theorem NearState.texts_near {s s' : Separator} (h : NearState s s') :
    Near s.texts s'.texts := by
  have hl := h.length.2
  rw [List.length_pos_iff, List.length_pos_iff] at hl
  unfold Separator.texts
  by_cases hs : s.str = []
  · rw [if_neg (fun hn => hn hs), if_neg (fun hn => (hl.2 hn) hs)]
    rcases near_concat.1 h.texts with ⟨-, hn⟩ | ⟨-, hn⟩
    · exact absurd hs hn.ne.1
    · exact hn
  · rw [if_pos hs, if_pos (hl.1 hs)]
    exact h.texts

end Separator

section

variable {g : Char} {s s' : Separator}

/-- Runs that collect the same texts up to a newline at the end of one. -/
theorem separations_same (hl : s.Lined) (hl' : s'.Lined)
    (h : (s.read g [eof, eof]).texts.map chomp = (s'.read g [eof, eof]).texts.map chomp) :
    List.Forall₂ AlikeSeparation (mergeLoop none (s.finish g).lines)
      (mergeLoop none (s'.finish g).lines) := by
  apply mergeLoop_same _ sameRun_none
  refine ⟨?_, Separator.lines_nonneg (hl.finish g), Separator.lines_nonneg (hl'.finish g)⟩
  rw [Separator.lines_fst, Separator.lines_fst, Separator.finish_word, Separator.finish_word, h]

/-- Runs that collect the same texts but for blanks at the end of a line. -/
theorem separations_near (hl : s.Lined) (hl' : s'.Lined) (h : s.NearState s') :
    List.Forall₂ AlikeSeparation (mergeLoop none (s.finish g).lines)
      (mergeLoop none (s'.finish g).lines) := by
  obtain ⟨cs, us, x, x', hw, hw', hn⟩ := (h.read (g := g) [eof, eof]).texts_near
  obtain ⟨p, bs, v, hx, hx', ht⟩ := hn.trimmed
  apply mergeLoop_trimmed (p := p) (v := v) _ sameRun_none ht
  refine ⟨us.map chomp, ?_, ?_, Separator.lines_nonneg (hl.finish g),
    Separator.lines_nonneg (hl'.finish g)⟩
  · rw [Separator.lines_fst, Separator.finish_word, hw, List.map_append, List.map_cons, hx]
  · rw [Separator.lines_fst, Separator.finish_word, hw', List.map_append, List.map_cons, hx']

end

/-! ## Deletions -/

/-- The variables after the text `u`. -/
def after (g : Locals) (u : Text) : Separator :=
  Separator.read { atLine := g.atLine } g.preCh u

/-- `d` is a comment between `u` and `v`: at the start of a line or behind a blank, up to the
next newline. -/
structure IsComment (u d v : Text) : Prop where
  start : ∀ c ∈ u.getLast?, c = '\n' ∨ isBlank c = true
  hash : d.head? = some '#'
  line : '\n' ∉ d
  stop : v = [] ∨ v.head? = some '\n'

/-- `d` is a run of blanks at the end of a line, outside parentheses: no parenthesis is open,
comments aside. -/
structure IsTrailing (g : Locals) (u d v : Text) : Prop where
  blanks : ∀ c ∈ d, isBlank c
  ne : d ≠ []
  stop : v.head? = some '\n'
  reading : (after g u).reading ≠ .paren ∧ (after g u).reading ≠ .parenComment
  closed : Closed ((after g u).word.flatten ++ (after g u).str)

/-- The script begins with a subshell that a newline follows directly: `preCh` is read before
it is written. -/
def ReadsUnset (g : Locals) (script : Text) : Prop :=
  ∃ x y, script = x ++ '\n' :: y ∧ (after g x).reading = .behind ∧ (after g x).preCh = none

/-- Behind the newline the text ends: the next line that is no comment is blank or missing. -/
def endsText : Bool → Text → Bool
  | _, [] => true
  | true, c :: v => endsText (!(c == '\n' || c == eof)) v
  | false, c :: v =>
    if isBlank c then endsText false v
    else if c = '#' then endsText true v
    else c == '\n' || c == eof

/-- The newline that ends a comment is skipped with it. This makes no difference where there is
none or none is looked for, in front of the first line of a command, on a line of its own in
front of a blank one, and where only blank lines follow. -/
structure HarmlessComment (g : Locals) (u d v : Text) : Prop where
  eof : OsLabs.Shell.eof ∉ d
  newline : v = [] ∨
    ((after g u).reading = .comment ∨ (after g u).reading = .parenComment ∨
      (after g u).reading = .stopped) ∨
    (after g u).reading = .top ∧
      ((after g u).str = [] → (after g u).preCh = none → ¬ ReadsUnset g (u ++ d ++ v)) ∧
      ((after g u).str ≠ [] → (after g u).newLineFlag = true ∧ endsText false v.tail = true ∨
        ∀ c ∈ v, c = '\n')

/-- A blank hides an operator at the end of a text, and a newline directly behind a subshell is
compared with the character in front of it. -/
structure HarmlessBlanks (g : Locals) (u v : Text) : Prop where
  operator : (after g u).reading = .top → (after g u).newLineFlag = false →
    tailingOperator (after g u).str = true → endsText false v.tail = false
  subshell : (after g u).reading = .behind → (after g u).preCh.getD g.preCh ≠ '\n'

namespace Separator

variable {g : Char}

theorem isBlank_ne {c : Char} (h : isBlank c = true) :
    c ≠ '\n' ∧ c ≠ eof ∧ c ≠ '#' ∧ c ≠ '(' ∧ c ≠ ')' := by
  rcases Tokenizer.isBlank_iff.1 h with rfl | rfl <;> decide

/-- A comment is read without an effect. -/
theorem read_comment {s : Separator} (hs : s.reading = .comment ∨ s.reading = .parenComment ∨
    s.reading = .stopped) {d : Text} (hn : '\n' ∉ d) (he : eof ∉ d) : s.read g d = s := by
  induction d with
  | nil => rfl
  | cons c d ih =>
    rw [List.mem_cons, not_or] at hn he
    have hstep : s.step g c = s := by
      unfold Separator.step
      rcases hs with hs | hs | hs
      · rw [hs]
        exact if_neg (not_or.2 ⟨fun h => hn.1 h.symm, fun h => he.1 h.symm⟩)
      · rw [hs]
        exact if_neg (not_or.2 ⟨fun h => hn.1 h.symm, fun h => he.1 h.symm⟩)
      · rw [hs]
    rw [read_cons, hstep]
    exact ih hn.2 he.2

/-- Blanks in front of a line. -/
theorem read_skip {s : Separator} (hr : s.reading = .top) (hn : s.newLineFlag = true) {d : Text}
    (hd : ∀ c ∈ d, isBlank c) : s.read g d = s := by
  induction d with
  | nil => rfl
  | cons c d ih =>
    have hc := hd c List.mem_cons_self
    have hstep : s.step g c = s := by
      unfold Separator.step
      rw [hr, hn, hc]
      exact if_neg (isBlank_ne hc).2.1
    rw [read_cons, hstep]
    exact ih fun e he => hd e (List.mem_cons_of_mem _ he)

/-- Blanks behind other characters of the line. -/
theorem read_blanks {d : Text} (hd : ∀ c ∈ d, isBlank c) (hne : d ≠ []) : ∀ {s : Separator},
    s.reading = .behind ∨ s.reading = .top ∧ s.newLineFlag = false →
    ∃ c atLine, isBlank c = true ∧ s.read g d =
      { s with
        str := s.str ++ d, newLineFlag := false, headFlag := false, preCh := some c,
        reading := .top, atLine } := by
  induction d with
  | nil => exact absurd rfl hne
  | cons c d ih =>
    intro s hs
    have hc := hd c List.mem_cons_self
    obtain ⟨h1, h2, h3, h4, -⟩ := isBlank_ne hc
    have hstep : s.step g c = s.other c := by
      have htail : s.tail g c = s.other c := if_neg h1
      unfold Separator.step
      rcases hs with hs | ⟨hs, hn⟩
      · rw [hs]
        exact (if_neg h2).trans htail
      · rw [hs, hn, Bool.and_false]
        dsimp only
        rw [if_neg h2, if_neg Bool.false_ne_true, if_neg h3, if_neg h4, htail]
    rw [read_cons, hstep]
    rcases d with _ | ⟨e, d⟩
    · exact ⟨c, _, hc, rfl⟩
    · obtain ⟨c', atLine, hc', he⟩ := ih (fun e he => hd e (List.mem_cons_of_mem _ he)) nofun
        (s := s.other c) (.inr ⟨rfl, rfl⟩)
      refine ⟨c', atLine, hc', ?_⟩
      rw [he]
      unfold Separator.other
      simp

/-- A newline behind other characters of the line. -/
theorem newline_append {s : Separator} (hp : s.preCh.getD g ≠ '\n') (hs : s.str ≠ []) :
    ∃ atLine, s.newline g =
      { s with
        str := s.str ++ ['\n'], newLineFlag := true, countLine := s.countLine + 1,
        preCh := some '\n', reading := .top, newWordFlag := false, headFlag := false, atLine } := by
  unfold Separator.newline
  dsimp only
  rw [if_neg fun h => hp h.1, if_pos (List.length_pos_iff.2 hs)]
  exact ⟨_, rfl⟩

end Separator

/-! ## Blanks at the end of a line -/

namespace Separator

variable {g : Char}

/-- Two runs behind the newline, in front of the first character of the next line. -/
structure Pending (p bs : Text) (s s' : Separator) : Prop where
  same : s' = { s with str := s'.str, atLine := s'.atLine }
  str : s.str = p ++ bs ++ ['\n']
  str' : s'.str = p ++ ['\n']
  newLineFlag : s.newLineFlag = true

/-- The text goes on. -/
theorem Pending.near {p bs : Text} {s s' : Separator} (h : Pending p bs s s')
    (hbs : ∀ c ∈ bs, isBlank c) (hb : bs ≠ []) (hp : p ≠ []) (hl : p.getLast? ≠ some '\n')
    (hc : Closed (s.word.flatten ++ p)) {q : Text} (hq : q ≠ [] ∨ tailingOperator p = false) :
    Near (s.word ++ [s.str ++ q]) (s'.word ++ [s'.str ++ q]) := by
  have hw : s'.word = s.word := by rw [h.same]
  rw [h.str, h.str', hw, near_concat]
  refine .inl ⟨rfl, p, bs, q, ?_, ?_, hbs, hb, hp, hl, hc, fun h => hq.resolve_left fun hn => hn h⟩
  · simp
  · simp

theorem Pending.read {p bs : Text} (hbs : ∀ c ∈ bs, isBlank c) (hb : bs ≠ []) (hp : p ≠ [])
    (hl : p.getLast? ≠ some '\n') (w : Text) : ∀ {s s' : Separator}, Pending p bs s s' →
    s.reading = .top ∧ endsText false w = false ∨ s.reading = .comment ∧ endsText true w = false →
    Closed (s.word.flatten ++ p) → NearState (s.read g w) (s'.read g w) := by
  induction w with
  | nil =>
    rintro s s' - (⟨-, h⟩ | ⟨-, h⟩) -
    · cases h
    · cases h
  | cons c w ih =>
    intro s s' h hr hc
    have hr' : s'.reading = s.reading := by rw [h.same]
    have hn' : s'.newLineFlag = true := by
      rw [h.same]
      exact h.newLineFlag
    have hnear := h.near hbs hb hp hl hc (q := [c]) (.inl (List.cons_ne_nil c []))
    rw [read_cons, read_cons]
    rcases hr with ⟨hr, he⟩ | ⟨hr, he⟩
    · rw [hr] at hr'
      have hends : c ≠ '\n' ∧ c ≠ eof ∧ (isBlank c = true → endsText false w = false) ∧
          (c = '#' → endsText true w = false) := by
        unfold endsText at he
        by_cases h1 : isBlank c = true
        · rw [if_pos h1] at he
          obtain ⟨h2, h3, h4, -⟩ := isBlank_ne h1
          exact ⟨h2, h3, fun _ => he, fun h => absurd h h4⟩
        · rw [if_neg h1] at he
          by_cases h2 : c = '#'
          · rw [if_pos h2] at he
            exact ⟨by rw [h2]; decide, by rw [h2]; decide, fun h => absurd h h1, fun _ => he⟩
          · rw [if_neg h2, Bool.or_eq_false_iff, beq_eq_false_iff_ne, beq_eq_false_iff_ne] at he
            exact ⟨he.1, he.2, fun h => absurd h h1, fun h => absurd h h2⟩
      obtain ⟨h1, h2, h3, h4⟩ := hends
      unfold Separator.step
      rw [hr, hr', show (isBlank c && s.newLineFlag) = isBlank c by rw [h.newLineFlag, Bool.and_true],
        show (isBlank c && s'.newLineFlag) = isBlank c by rw [hn', Bool.and_true]]
      dsimp only
      rw [if_neg h2, if_neg h2]
      split
      · exact ih h (.inl ⟨hr, h3 ‹_›⟩) hc
      split
      · refine ih ⟨?_, h.str, h.str', h.newLineFlag⟩ (.inr ⟨rfl, h4 ‹_›⟩) hc
        rw [h.same]
      split
      · refine NearState.read ⟨?_, hnear⟩ w
        rw [h.same]
        rfl
      · unfold Separator.tail
        rw [if_neg h1, if_neg h1]
        refine NearState.read ⟨?_, hnear⟩ w
        rw [h.same]
        rfl
    · rw [hr] at hr'
      unfold endsText at he
      unfold Separator.step
      rw [hr, hr']
      dsimp only
      by_cases hnl : c = '\n' ∨ c = eof
      · rw [if_pos hnl, if_pos hnl]
        have hflag : (!(c == '\n' || c == eof)) = false := by
          rcases hnl with rfl | rfl <;> rfl
        rw [hflag] at he
        refine ih ⟨?_, h.str, h.str', h.newLineFlag⟩ (.inl ⟨rfl, he⟩) hc
        rw [h.same]
      · rw [if_neg hnl, if_neg hnl]
        have hflag : (!(c == '\n' || c == eof)) = true := by
          simpa [not_or] using hnl
        rw [hflag] at he
        exact ih h (.inr ⟨hr, he⟩) hc

/-- A blank line ends the text. -/
theorem newline_push {s : Separator} (hp : s.preCh.getD g = '\n') (hs : s.str ≠ []) :
    s.newline g =
      { s with
        word := s.word ++ [s.str], str := [], newWordFlag := true, newLineFlag := true,
        countLine := s.countLine + 1, preCh := some '\n', reading := .top } := by
  unfold Separator.newline
  exact if_pos ⟨hp, List.length_pos_iff.2 hs⟩

theorem newline_nil {s : Separator} (hs : s.str = []) :
    s.newline g =
      { s with
        newLineFlag := true, countLine := s.countLine + 1, preCh := some '\n',
        reading := .top } := by
  have hlen : ¬ 0 < s.str.length := by simp [hs]
  unfold Separator.newline
  dsimp only
  rw [if_neg fun h => hlen h.2, if_neg hlen]

theorem step_hash {s : Separator} (hs : s.reading = .top) :
    s.step g '#' = { s with reading := .comment } := by
  unfold Separator.step
  rw [hs]
  rfl

theorem step_newline {s : Separator} (hs : s.reading = .top ∨ s.reading = .behind) :
    s.step g '\n' = s.newline g := by
  have htail : s.tail g '\n' = s.newline g := if_pos rfl
  unfold Separator.step
  rcases hs with hs | hs
  · rw [hs]
    exact htail
  · rw [hs]
    exact htail

/-- The runs on a line with and without the blanks at its end. -/
theorem blanks_near {s : Separator} (hs : Sane s) {d : Text} (hd : ∀ c ∈ d, isBlank c)
    (hne : d ≠ []) (hclosed : Closed (s.word.flatten ++ s.str)) {w : Text}
    (hr : s.reading = .behind ∧ s.preCh.getD g ≠ '\n' ∨ s.reading = .top ∧ s.newLineFlag = false ∧
      (tailingOperator s.str = true → endsText false w = false)) :
    NearState (s.read g (d ++ '\n' :: w)) (s.read g ('\n' :: w)) := by
  have hlast : ∃ c, s.str.getLast? = some c ∧ c ≠ '\n' := by
    rcases hr with ⟨hr, -⟩ | ⟨hr, hn, -⟩
    · exact ⟨')', hs.behind hr, by decide⟩
    · exact hs.line (.inl hr) hn
  obtain ⟨e, he, hen⟩ := hlast
  have hp : s.str ≠ [] := by
    intro h
    rw [h] at he
    cases he
  have hl : s.str.getLast? ≠ some '\n' := by
    rw [he]
    exact fun h => hen (Option.some_inj.1 h)
  have hpre : s.preCh.getD g ≠ '\n' := by
    rcases hr with ⟨-, hr⟩ | ⟨-, hn, -⟩
    · exact hr
    · obtain ⟨c, hc, hcn⟩ := hs.pre hn
      rw [hc]
      exact hcn
  obtain ⟨c, atLine, hc, hread⟩ := read_blanks (g := g) hd hne
    (hr.imp And.left fun h => ⟨h.1, h.2.1⟩)
  rw [read_append, read_cons, read_cons, hread, step_newline (.inl rfl),
    step_newline (hr.symm.imp And.left And.left)]
  obtain ⟨atLine', hleft⟩ := newline_append (g := g) (s := { s with
    str := s.str ++ d, newLineFlag := false, headFlag := false, preCh := some c, reading := .top,
    atLine }) (isBlank_ne hc).1 (by simp [hp])
  obtain ⟨atLine'', hright⟩ := newline_append hpre hp
  rw [hleft, hright]
  dsimp only
  have hpending : Pending s.str d
      { s with
        str := s.str ++ d ++ ['\n'], newLineFlag := true, countLine := s.countLine + 1,
        preCh := some '\n', reading := .top, newWordFlag := false, headFlag := false,
        atLine := atLine' }
      { s with
        str := s.str ++ ['\n'], newLineFlag := true, countLine := s.countLine + 1,
        preCh := some '\n', reading := .top, newWordFlag := false, headFlag := false,
        atLine := atLine'' } := ⟨rfl, rfl, rfl, rfl⟩
  by_cases ht : tailingOperator s.str = true
  · apply hpending.read hd hne hp hl w (.inl ⟨rfl, ?_⟩) hclosed
    rcases hr with ⟨hr, -⟩ | ⟨-, -, hr⟩
    · obtain ⟨v, hv⟩ := List.getLast?_eq_some_iff.1 (hs.behind hr)
      rw [hv] at ht
      unfold tailingOperator at ht
      rw [List.reverse_append] at ht
      cases ht
    · exact hr ht
  · refine NearState.read ⟨rfl, ?_⟩ w
    have hnear := hpending.near hd hne hp hl hclosed (q := [])
      (.inr (Bool.not_eq_true _ ▸ ht))
    rwa [List.append_nil, List.append_nil] at hnear

/-! ## Comments -/

def setPreCh (s : Separator) (p : Option Char) : Separator := { s with preCh := p }

theorem tail_setPreCh (s : Separator) (p : Option Char) {ch : Char}
    (hch : ch ≠ '\n' ∨ s.str = []) : (s.setPreCh p).tail g ch = s.tail g ch := by
  unfold tail
  split
  · have hs := hch.resolve_left fun h => h ‹_›
    have hlen (q : Prop) : ¬ (q ∧ 0 < s.str.length) := by simp [hs]
    unfold newline setPreCh
    dsimp only
    rw [if_neg (hlen _), if_neg (hlen _)]
  · rfl

theorem inside_reading (s : Separator) (ch : Char) :
    (s.inside ch).reading = .behind ∨ (s.inside ch).reading = .paren :=
  ite_eq_or_eq _ _ _

/-- A character of a script that begins with a newline, or with a comment in its place. -/
theorem step_setPreCh {s : Separator} (hp : s.preCh = none) (hn : s.newLineFlag = true)
    (hstr : s.reading = .top ∨ s.reading = .comment → s.str = []) {ch : Char}
    (hch : ¬ (ch = '\n' ∧ s.reading = .behind)) (p : Option Char) :
    (s.setPreCh p).step g ch = s.step g ch ∨
      (s.setPreCh p).step g ch = (s.step g ch).setPreCh p ∧ (s.step g ch).preCh = none ∧
        (s.step g ch).newLineFlag = true ∧
        ((s.step g ch).reading = .top ∨ (s.step g ch).reading = .comment →
          (s.step g ch).str = []) := by
  have hinside (t : Separator) (ht : t.preCh = none) (ht' : t.newLineFlag = true) :
      (t.inside ch).preCh = none ∧ (t.inside ch).newLineFlag = true ∧
        ((t.inside ch).reading = .top ∨ (t.inside ch).reading = .comment →
          (t.inside ch).str = []) := by
    refine ⟨ht, ht', fun hr => ?_⟩
    rcases inside_reading t ch with hi | hi
    · rw [hi] at hr
      rcases hr with hr | hr <;> cases hr
    · rw [hi] at hr
      rcases hr with hr | hr <;> cases hr
  have hsame : s.preCh = none ∧ s.newLineFlag = true ∧
      (s.reading = .top ∨ s.reading = .comment → s.str = []) := ⟨hp, hn, hstr⟩
  have hread : (s.setPreCh p).reading = s.reading := rfl
  have hflag : (s.setPreCh p).newLineFlag = s.newLineFlag := rfl
  unfold step
  rw [hread, hflag]
  cases hr : s.reading with
  | stopped => exact .inr ⟨rfl, hsame⟩
  | top =>
    have hs := hstr (.inl hr)
    dsimp only
    split
    · exact .inr ⟨rfl, hp, hn, nofun⟩
    split
    · exact .inr ⟨rfl, hsame⟩
    split
    · exact .inr ⟨rfl, hp, hn, fun _ => hs⟩
    split
    · exact .inr ⟨rfl, hinside _ hp hn⟩
    · exact .inl (tail_setPreCh s p (.inr hs))
  | comment =>
    have hs := hstr (.inr hr)
    dsimp only
    split
    · exact .inr ⟨rfl, hp, hn, fun _ => hs⟩
    · exact .inr ⟨rfl, hsame⟩
  | paren =>
    dsimp only
    split
    · exact .inr ⟨rfl, hp, hn, nofun⟩
    split
    · exact .inr ⟨rfl, hp, hn, nofun⟩
    · exact .inr ⟨rfl, hinside s hp hn⟩
  | parenComment =>
    dsimp only
    split
    · exact .inr ⟨rfl, hp, hn, nofun⟩
    · exact .inr ⟨rfl, hsame⟩
  | behind =>
    dsimp only
    split
    · exact .inr ⟨rfl, hp, hn, nofun⟩
    · exact .inl (tail_setPreCh s p (.inl fun h => hch ⟨h, hr⟩))

/-- A script that begins with a newline, or with a comment in its place, where the unset
variable is not read. -/
theorem read_setPreCh (p : Option Char) (w : Text) : ∀ {s : Separator}, s.preCh = none →
    s.newLineFlag = true → (s.reading = .top ∨ s.reading = .comment → s.str = []) →
    (∀ x y, w = x ++ '\n' :: y →
      ¬ ((s.read g x).reading = .behind ∧ (s.read g x).preCh = none)) →
    (s.setPreCh p).read g w = s.read g w ∨
      (s.setPreCh p).read g w = (s.read g w).setPreCh p := by
  induction w with
  | nil =>
    intro s _ _ _ _
    exact .inr rfl
  | cons c w ih =>
    intro s hp hn hstr hw
    have hch : ¬ (c = '\n' ∧ s.reading = .behind) := by
      rintro ⟨rfl, hr⟩
      exact hw [] w rfl ⟨hr, hp⟩
    rw [read_cons, read_cons]
    rcases step_setPreCh (g := g) hp hn hstr hch p with he | ⟨he, hp', hn', hstr'⟩
    · rw [he]
      exact .inl rfl
    · rw [he]
      apply ih hp' hn' hstr'
      rintro x y rfl
      exact hw (c :: x) y rfl

/-- At the end of the file the previous character is not looked at. -/
theorem texts_setPreCh (s : Separator) (p : Option Char) :
    ((s.setPreCh p).read g [eof, eof]).texts = (s.read g [eof, eof]).texts := by
  have hstep (s : Separator) : (s.setPreCh p).step g eof = (s.step g eof).setPreCh p := by
    unfold step
    rw [show (s.setPreCh p).reading = s.reading from rfl]
    cases s.reading <;> rfl
  rw [read_cons, read_cons, read_cons, read_cons, hstep, hstep]
  rfl

/-- A comment at the end of the file. -/
theorem texts_comment {s : Separator} (hs : s.reading ≠ .behind) {d : Text}
    (hd : d.head? = some '#') (hn : '\n' ∉ d) (he : eof ∉ d) :
    ((s.read g d).read g [eof, eof]).texts = (s.read g [eof, eof]).texts := by
  -- a comment that is read already
  by_cases hin : s.reading = .comment ∨ s.reading = .parenComment ∨ s.reading = .stopped
  · rw [read_comment hin hn he]
  rcases d with _ | ⟨c, d⟩
  · cases hd
  obtain rfl := Option.some_inj.1 hd
  rw [List.mem_cons, not_or] at hn he
  cases hr : s.reading with
  | behind => exact absurd hr hs
  | top =>
    rw [read_cons s '#' d, step_hash hr, read_comment (.inl rfl) hn.2 he.2]
    unfold texts
    simp [read, step, hr]
  | paren =>
    have hstep : s.step g '#' = { s with reading := .parenComment } := by
      unfold step
      rw [hr]
      rfl
    rw [read_cons s '#' d, hstep, read_comment (.inr (.inl rfl)) hn.2 he.2]
    unfold texts
    simp [read, step, hr, breakOff]
  | comment => exact absurd (.inl hr) hin
  | parenComment => exact absurd (.inr (.inl hr)) hin
  | stopped => exact absurd (.inr (.inr hr)) hin

end Separator

/-! ## A comment line inside a command -/

namespace Separator

variable {g : Char}

/-- A comment and its newline. -/
def skipLine (s : Separator) : Separator :=
  { s with countLine := s.countLine + 1, reading := .top }

/-- The second run has ended the text at the newline that the first one has skipped. -/
structure Early (s s' : Separator) : Prop where
  same : s' = { s with word := s.word ++ [s.str], str := [], newWordFlag := true }
  str : s.str ≠ []
  preCh : s.preCh = some '\n'
  newLineFlag : s.newLineFlag = true

theorem Early.texts {s s' : Separator} (h : Early s s') : s'.texts = s.texts := by
  unfold Separator.texts
  rw [if_pos h.str, h.same, if_neg fun hn => hn rfl]

/-- The first run ends the text as well before it reads a character of the next one. -/
theorem Early.read (w : Text) : ∀ {s s' : Separator}, Early s s' →
    s.reading = .top ∧ endsText false w = true ∨ s.reading = .comment ∧ endsText true w = true ∨
      s.reading = .stopped →
    s'.read g w = s.read g w ∨ Early (s.read g w) (s'.read g w) ∧
      ((s.read g w).reading = .top ∨ (s.read g w).reading = .comment ∨
        (s.read g w).reading = .stopped) := by
  induction w with
  | nil =>
    intro s s' h hr
    refine .inr ⟨h, ?_⟩
    rcases hr with ⟨hr, -⟩ | ⟨hr, -⟩ | hr
    · exact .inl hr
    · exact .inr (.inl hr)
    · exact .inr (.inr hr)
  | cons c w ih =>
    intro s s' h hr
    have hread (r : Reading) : Early { s with reading := r } { s' with reading := r } := by
      refine ⟨?_, h.str, h.preCh, h.newLineFlag⟩
      rw [h.same]
    have hcount : Early { s with countLine := s.countLine + 1, reading := .top }
        { s' with countLine := s'.countLine + 1, reading := .top } := by
      refine ⟨?_, h.str, h.preCh, h.newLineFlag⟩
      rw [h.same]
    have hr' : s'.reading = s.reading := by rw [h.same]
    have hn' : s'.newLineFlag = true := by
      rw [h.same]
      exact h.newLineFlag
    rw [read_cons, read_cons]
    rcases hr with ⟨hr, he⟩ | ⟨hr, he⟩ | hr
    · unfold endsText at he
      by_cases h1 : isBlank c = true
      · rw [if_pos h1] at he
        have hskip {t : Separator} (ht : t.reading = .top) (hn : t.newLineFlag = true) :
            t.step g c = t := read_skip ht hn (d := [c]) (by simpa using h1)
        rw [hskip hr h.newLineFlag, hskip (hr'.trans hr) hn']
        exact ih h (.inl ⟨hr, he⟩)
      rw [if_neg h1] at he
      by_cases h2 : c = '#'
      · rw [if_pos h2] at he
        rw [h2, step_hash hr, step_hash (hr'.trans hr)]
        exact ih (hread .comment) (.inr (.inl ⟨rfl, he⟩))
      rw [if_neg h2, Bool.or_eq_true, beq_iff_eq, beq_iff_eq] at he
      rcases he with rfl | rfl
      · left
        rw [step_newline (.inl hr), step_newline (.inl (hr'.trans hr))]
        rw [newline_push (by rw [h.preCh]; rfl) h.str, newline_nil (by rw [h.same]), h.same]
      · have hstop {t : Separator} (ht : t.reading = .top) :
            t.step g eof = { t with reading := .stopped } := by
          unfold step
          rw [ht]
          rfl
        rw [hstop hr, hstop (hr'.trans hr)]
        exact ih (hread .stopped) (.inr (.inr rfl))
    · unfold endsText at he
      unfold step
      rw [hr', hr]
      dsimp only
      by_cases hnl : c = '\n' ∨ c = eof
      · rw [if_pos hnl, if_pos hnl]
        have hflag : (!(c == '\n' || c == eof)) = false := by
          rcases hnl with rfl | rfl <;> rfl
        rw [hflag] at he
        exact ih hcount (.inl ⟨rfl, he⟩)
      · rw [if_neg hnl, if_neg hnl]
        have hflag : (!(c == '\n' || c == eof)) = true := by
          simpa [not_or] using hnl
        rw [hflag] at he
        exact ih h (.inr (.inl ⟨hr, he⟩))
    · have hs : s.step g c = s := by
        unfold step
        rw [hr]
      have hs' : s'.step g c = s' := by
        unfold step
        rw [hr', hr]
      rw [hs, hs']
      exact ih h (.inr (.inr hr))

theorem texts_eof {s : Separator} (hr : s.reading = .top) :
    (s.read g [eof, eof]).texts = s.texts := by
  have hstop : s.step g eof = { s with reading := .stopped } := by
    unfold step
    rw [hr]
    rfl
  rw [read_cons, hstop]
  rfl

/-- Blank lines behind a newline. -/
theorem texts_blank {w : Text} (hw : ∀ c ∈ w, c = '\n') : ∀ {s : Separator}, s.reading = .top →
    (s.str ≠ [] → s.preCh.getD g = '\n') →
    ((s.read g w).read g [eof, eof]).texts = s.texts := by
  induction w with
  | nil => exact fun hr _ => texts_eof hr
  | cons c w ih =>
    intro s hr hp
    rw [read_cons s c w, hw c List.mem_cons_self, step_newline (.inl hr)]
    have hnext := ih (fun c hc => hw c (List.mem_cons_of_mem _ hc)) (s := s.newline g)
    by_cases hs : s.str = []
    · rw [newline_nil hs] at hnext ⊢
      exact hnext rfl fun h => absurd hs h
    · rw [newline_push (hp hs) hs] at hnext ⊢
      rw [hnext rfl fun h => absurd rfl h]
      unfold texts
      rw [if_pos hs, if_neg fun h => h rfl]

/-- Blank lines behind other characters of a line. -/
theorem texts_open {s : Separator} (hr : s.reading = .top) (hs : s.str ≠ [])
    (hl : s.str.getLast? ≠ some '\n') (hp : s.preCh.getD g ≠ '\n') {w : Text}
    (hw : ∀ c ∈ w, c = '\n') :
    ((s.read g w).read g [eof, eof]).texts.map chomp = s.texts.map chomp := by
  rcases w with _ | ⟨c, w⟩
  · exact congrArg (List.map chomp) (texts_eof hr)
  · obtain ⟨atLine, hnew⟩ := newline_append hp hs
    rw [read_cons s c w, hw c List.mem_cons_self, step_newline (.inl hr), hnew,
      texts_blank (fun c hc => hw c (List.mem_cons_of_mem _ hc)) rfl fun _ => rfl]
    have hchomp : chomp (s.str ++ ['\n']) = chomp s.str := by
      rw [chomp_newline]
      unfold chomp
      rw [if_neg hl]
      exact List.append_nil _
    unfold texts
    rw [if_pos (by simp), if_pos hs, List.map_append, List.map_append, List.map_singleton,
      List.map_singleton, hchomp]

end Separator

/-! ## The scripts with and without -/

variable {g : Locals} {u d v : Text}

theorem after_append (u v : Text) : after g (u ++ v) = (after g u).read g.preCh v :=
  Separator.read_append _ u v

theorem sane_after (u : Text) : (after g u).Sane := (Separator.sane_start _).read u

theorem lined_after (hg : ∀ i, 0 ≤ g.atLine i) (u : Text) : (after g u).Lined :=
  (Separator.lined_start hg).read u

/-- Blanks at the end of a line. -/
theorem separations_blanks (hg : ∀ i, 0 ≤ g.atLine i) (hd : IsTrailing g u d v)
    (h : HarmlessBlanks g u v) : List.Forall₂ AlikeSeparation (makeSeparation g (u ++ d ++ v))
      (makeSeparation g (u ++ v)) := by
  unfold makeSeparation
  show List.Forall₂ _ (mergeLoop none ((after g (u ++ d ++ v)).finish g.preCh).lines)
    (mergeLoop none ((after g (u ++ v)).finish g.preCh).lines)
  have hl := lined_after hg (u ++ d ++ v)
  have hl' := lined_after hg (u ++ v)
  have hv : ∃ w, v = '\n' :: w := by
    rcases v with _ | ⟨c, w⟩
    · cases hd.stop
    · exact ⟨w, by rw [Option.some_inj.1 hd.stop]⟩
  obtain ⟨w, rfl⟩ := hv
  have hnone (he : (after g u).read g.preCh d = after g u) :
      after g (u ++ d ++ '\n' :: w) = after g (u ++ '\n' :: w) := by
    rw [after_append, after_append, after_append, he]
  have hn : '\n' ∉ d := fun hm => (Separator.isBlank_ne (hd.blanks _ hm)).1 rfl
  have he : eof ∉ d := fun hm => (Separator.isBlank_ne (hd.blanks _ hm)).2.1 rfl
  cases hr : (after g u).reading with
  | paren => exact absurd hr hd.reading.1
  | parenComment => exact absurd hr hd.reading.2
  | comment =>
    rw [hnone (Separator.read_comment (.inl hr) hn he)] at hl ⊢
    exact separations_same hl hl' rfl
  | stopped =>
    rw [hnone (Separator.read_comment (.inr (.inr hr)) hn he)] at hl ⊢
    exact separations_same hl hl' rfl
  | behind =>
    apply separations_near hl hl'
    rw [List.append_assoc, after_append, after_append]
    exact Separator.blanks_near (sane_after u) hd.blanks hd.ne hd.closed (.inl ⟨hr, h.subshell hr⟩)
  | top =>
    cases hf : (after g u).newLineFlag with
    | true =>
      rw [hnone (Separator.read_skip hr hf hd.blanks)] at hl ⊢
      exact separations_same hl hl' rfl
    | false =>
      apply separations_near hl hl'
      rw [List.append_assoc, after_append, after_append]
      exact Separator.blanks_near (sane_after u) hd.blanks hd.ne hd.closed
        (.inr ⟨hr, hf, h.operator hr hf⟩)

theorem after_newline (hr : (after g u).reading = .top) (w : Text) :
    after g (u ++ '\n' :: w) = ((after g u).newline g.preCh).read g.preCh w := by
  rw [after_append, Separator.read_cons, Separator.step_newline (.inl hr)]

/-- The newline behind a comment is skipped. -/
theorem after_comment (hd : IsComment u d v) (he : eof ∉ d) (hr : (after g u).reading = .top)
    (w : Text) :
    after g (u ++ d ++ '\n' :: w) = (after g u).skipLine.read g.preCh w := by
  have hash := hd.hash
  have hn := hd.line
  rcases d with _ | ⟨c, com⟩
  · cases hash
  obtain rfl := Option.some_inj.1 hash
  rw [List.mem_cons, not_or] at hn he
  rw [after_append, after_append, Separator.read_cons _ '#', Separator.step_hash hr,
    Separator.read_comment (.inl rfl) hn.2 he.2, Separator.read_cons]
  rfl

theorem endsText_newlines {w : Text} (h : ∀ c ∈ w, c = '\n') : endsText false w = true := by
  rcases w with _ | ⟨c, w⟩
  · rfl
  · rw [h c List.mem_cons_self]
    rfl

/-- The texts of the two runs behind a comment. -/
theorem texts_skipLine {w : Text} (hd : IsComment u d ('\n' :: w)) (he : eof ∉ d)
    (hr : (after g u).reading = .top)
    (hempty : (after g u).str = [] → (after g u).preCh = none →
      ¬ ReadsUnset g (u ++ d ++ '\n' :: w))
    (hstr : (after g u).str ≠ [] →
      (after g u).newLineFlag = true ∧ endsText false w = true ∨ ∀ c ∈ w, c = '\n') :
    (((after g u).skipLine.read g.preCh w).read g.preCh [eof, eof]).texts.map chomp =
      ((((after g u).newline g.preCh).read g.preCh w).read g.preCh [eof, eof]).texts.map chomp := by
  have hsane := sane_after (g := g) u
  have hcomment := after_comment hd he hr
  generalize after g u = s at hr hempty hstr hsane hcomment
  by_cases hs : s.str = []
  · -- nothing is collected
    have hf : s.newLineFlag = true := by
      by_contra hf
      obtain ⟨c, hc, -⟩ := hsane.line (.inl hr) (Bool.not_eq_true _ ▸ hf)
      rw [hs] at hc
      cases hc
    have hnew : s.newline g.preCh = s.skipLine.setPreCh (some '\n') := by
      rw [Separator.newline_nil hs, ← hf]
      rfl
    rw [hnew]
    rcases hsane.fresh hf with hnone | hsome
    · have hread := Separator.read_setPreCh (s := s.skipLine) (some '\n') w hnone hf
        (fun _ => hs) fun x y hw hx => by
          apply hempty hs hnone
          refine ⟨u ++ d ++ '\n' :: x, y, by rw [hw]; simp, ?_⟩
          rw [hcomment]
          exact hx
      rcases hread with hread | hread
      · rw [hread]
      · rw [hread, Separator.texts_setPreCh]
    · have hsame : s.skipLine.setPreCh (some '\n') = s.skipLine := by
        rw [← hsome]
        rfl
      rw [hsame]
  by_cases hf : s.newLineFlag = true
  · -- the comment is alone on its line
    have hpre : s.preCh = some '\n' := (hsane.fresh hf).resolve_left (hsane.set (.inl hr) hs)
    have hends : endsText false w = true := by
      rcases hstr hs with h | h
      · exact h.2
      · exact endsText_newlines h
    have hearly : s.skipLine.Early (s.newline g.preCh) := by
      refine ⟨?_, hs, hpre, hf⟩
      rw [Separator.newline_push (by rw [hpre]; rfl) hs, ← hf, ← hpre]
      rfl
    rcases hearly.read w (.inl ⟨rfl, hends⟩) with hread | ⟨hread, hmode⟩
    · rw [hread]
    · have hend : endsText false [eof, eof] = true ∧ endsText true [eof, eof] = true := by decide
      rcases hread.read [eof, eof] (hmode.imp (⟨·, hend.1⟩) (.imp_left (⟨·, hend.2⟩))) with
        hread | ⟨hread, -⟩
      · rw [hread]
      · rw [hread.texts]
  · -- only blank lines follow
    have hw : ∀ c ∈ w, c = '\n' := (hstr hs).resolve_left fun h => hf h.1
    obtain ⟨c, hc, hcn⟩ := hsane.line (.inl hr) (Bool.not_eq_true _ ▸ hf)
    obtain ⟨b, hb, hbn⟩ := hsane.pre (Bool.not_eq_true _ ▸ hf)
    have hpre : s.preCh.getD g.preCh ≠ '\n' := by
      rw [hb]
      exact hbn
    have hlast : s.str.getLast? ≠ some '\n' := by
      rw [hc]
      exact fun h => hcn (Option.some_inj.1 h)
    have hnew : (s.newline g.preCh).read g.preCh w = s.read g.preCh ('\n' :: w) := by
      rw [Separator.read_cons, Separator.step_newline (.inl hr)]
    have hskip := Separator.texts_open (s := s.skipLine) rfl hs hlast hpre hw
    have hread := Separator.texts_open hr hs hlast hpre (w := '\n' :: w) (by simpa using hw)
    rw [hnew, hskip, hread]
    rfl

/-- A comment. -/
theorem separations_comment (hg : ∀ i, 0 ≤ g.atLine i) (hd : IsComment u d v)
    (h : HarmlessComment g u d v) : List.Forall₂ AlikeSeparation (makeSeparation g (u ++ d ++ v))
      (makeSeparation g (u ++ v)) := by
  apply separations_same (lined_after hg (u ++ d ++ v)) (lined_after hg (u ++ v))
  rcases v with _ | ⟨c, w⟩
  · have hbehind : (after g u).reading ≠ .behind := by
      intro hr
      rcases List.eq_nil_or_concat u with rfl | ⟨u, c, rfl⟩
      · cases hr
      · rw [List.concat_eq_append, after_append] at hr
        have hc := (sane_after u).last hr
        have hstart := hd.start c (by simp)
        rw [hc] at hstart
        rcases hstart with h | h <;> cases h
    rw [List.append_nil, List.append_nil, after_append]
    exact congrArg (List.map chomp) (Separator.texts_comment hbehind hd.hash hd.line h.eof)
  · obtain rfl : c = '\n' := Option.some_inj.1 (hd.stop.resolve_left nofun)
    rcases h.newline with hv | hr | ⟨hr, hempty, hstr⟩
    · cases hv
    · rw [after_append, after_append, after_append, Separator.read_comment hr hd.line h.eof]
    · rw [after_comment hd h.eof hr, after_newline hr]
      refine texts_skipLine hd h.eof hr hempty fun hs => ?_
      exact (hstr hs).imp_right fun h c hc => h c (List.mem_cons_of_mem _ hc)

end OsLabs.Shell
