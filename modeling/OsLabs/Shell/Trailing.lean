import OsLabs.Shell.Alike

/-!
# Shell scripts: blanks at the end of a line

Outside subshells `tokenize` puts the blanks of a line's end into the word in front of them or
drops them, so texts that differ in such blanks have like arrays.
-/

namespace OsLabs.Shell

namespace Tokenizer

variable {lineNum : Int}

/-- A word that is being collected has a character that no operator has, and outside a subshell
no text of one is expected. -/
structure Steady (s : Tokenizer) : Prop where
  plain : s.inSimpleComman = true → ∃ c ∈ s.buffer, isPlain c = true
  last : s.inSubshell = false → ∀ t ∈ s.tokenArray.getLast?, t.word ≠ ['(']
  buffer : s.inSubshell = false → '(' ∉ s.buffer

theorem steady_start : Steady {} := ⟨nofun, fun _ => nofun, fun _ => nofun⟩

theorem Steady.flush {s : Tokenizer} (h : Steady s) : Steady (s.flush lineNum) := by
  unfold Tokenizer.flush
  split
  · refine ⟨nofun, fun hs t ht => ?_, fun _ => nofun⟩
    have hb := h.buffer hs
    simp only [Tokenizer.makeToken, List.getLast?_concat, Option.mem_some_iff] at ht
    subst ht
    intro he
    dsimp only at he
    rw [he] at hb
    exact hb (by decide)
  · exact h

theorem Steady.strcat {s : Tokenizer} (h : Steady s) {c : Char}
    (hc : c ≠ '(' ∨ s.inSubshell = true) : Steady (s.strcat c) := by
  refine ⟨fun hs => ?_, h.last, fun hs hm => ?_⟩
  · obtain ⟨d, hd, hp⟩ := h.plain hs
    exact ⟨d, List.mem_append_left _ hd, hp⟩
  · rcases List.mem_append.1 hm with hm | hm
    · exact h.buffer hs hm
    · rcases hc with hc | hc
      · exact hc (List.mem_singleton.1 hm).symm
      · rw [show s.inSubshell = false from hs] at hc
        cases hc

theorem steady_makeToken (s : Tokenizer) (hb : '(' ∉ s.buffer) {word : Text}
    (hw : word ≠ ['(']) : Steady (s.makeToken lineNum word) := by
  refine ⟨nofun, fun _ t ht => ?_, fun _ => hb⟩
  simp only [Tokenizer.makeToken, List.getLast?_concat, Option.mem_some_iff] at ht
  rw [← ht]
  exact hw

theorem Steady.iter {s : Tokenizer} (h : Steady s) (c1 c2 : Char) :
    Steady (s.iter lineNum c1 c2).1 := by
  have hf : Steady (s.flush lineNum) := h.flush
  have hfb : '(' ∉ (s.flush lineNum).buffer := by
    rw [flush_buffer]
    exact List.not_mem_nil
  have hempty (hb : s.buffer = []) : '(' ∉ s.buffer := by
    rw [hb]
    exact List.not_mem_nil
  have htoken (word : Text) (hw : word ≠ ['(']) :
      Steady ((s.flush lineNum).makeToken lineNum word) :=
    steady_makeToken (s.flush lineNum) hfb hw
  unfold Tokenizer.iter
  dsimp only
  repeat' split
  case isFalse.isTrue.isTrue hin _ | isFalse.isTrue.isFalse hin _ =>
    have hcat := h.strcat (c := c1) (.inr (Bool.and_eq_true _ _ ▸ hin).1)
    exact ⟨hcat.plain, hcat.last, hcat.buffer⟩
  case h_7.isFalse =>
    have hcat := h.strcat (c := '&') (.inl (by decide))
    exact ⟨hcat.plain, hcat.last, hcat.buffer⟩
  case h_8 =>
    exact ⟨fun hs => absurd hs Bool.false_ne_true, fun hs => absurd hs.symm Bool.false_ne_true,
      fun hs => absurd hs.symm Bool.false_ne_true⟩
  case h_9.isTrue | h_9.isFalse =>
    refine ⟨fun hs => absurd hs Bool.false_ne_true, fun _ t ht => ?_, fun _ => ?_⟩
    · simp only [Tokenizer.makeToken, List.getLast?_concat, Option.mem_some_iff] at ht
      rw [← ht]
      intro hw
      cases hw
    · first
        | exact hfb
        | exact hempty (List.length_eq_zero_iff.1 (Nat.eq_zero_of_not_pos ‹_›))
  case h_12 =>
    have hcat := h.strcat (c := c1) (.inl ‹_›)
    refine ⟨fun _ => ⟨c1, List.mem_append_right _ (List.mem_singleton_self c1), ?_⟩, hcat.last,
      hcat.buffer⟩
    simp only [isPlain, List.contains_eq_mem, List.mem_cons, List.not_mem_nil, or_false,
      Bool.not_eq_true', decide_eq_false_iff_not, not_or]
    refine ⟨?_, ?_, ?_, ?_, ?_, ?_, ?_⟩ <;> assumption
  all_goals first
    | exact ⟨h.plain, h.last, h.buffer⟩
    | exact ⟨hf.plain, hf.last, hf.buffer⟩
    | exact h.strcat (.inl (by decide))
    | refine ⟨fun hs => absurd hs Bool.false_ne_true, (htoken _ ?_).last, fun _ => hfb⟩
      decide

theorem Steady.loop {s : Tokenizer} (h : Steady s) (text : Text) :
    Steady (s.loop lineNum text) := by
  fun_induction Tokenizer.loop lineNum s text with
  | case1 s => exact h
  | case2 s c1 => exact h.iter c1 ' '
  | case3 s c1 c2 text r hr ih => exact ih (h.iter c1 c2)
  | case4 s c1 c2 text r hr ih => exact ih (h.iter c1 c2)

/-! ## Blanks in a run -/

/-- The tokenizer puts a blank into the buffer. -/
def takesBlank (s : Tokenizer) : Bool := !s.inComment && (s.inSubshell || s.inSimpleComman)

theorem iter_takesBlank (s : Tokenizer) {c1 : Char} (h : isBlank c1 = true) (c2 : Char) :
    s.iter lineNum c1 c2 = (if s.takesBlank then s.strcat c1 else s, false) := by
  unfold Tokenizer.iter takesBlank
  rcases isBlank_iff.1 h with rfl | rfl
  all_goals
    rcases s with ⟨_, _, _, _ | _, _ | _, _, _, _ | _, _⟩ <;> simp [Tokenizer.strcat]

theorem loop_blanks_append (bs : Text) (hbs : ∀ c ∈ bs, isBlank c) (v : Text) :
    ∀ s : Tokenizer, s.loop lineNum (bs ++ v) =
      Tokenizer.loop lineNum { s with buffer := s.buffer ++ if s.takesBlank then bs else [] } v := by
  induction bs with
  | nil =>
    intro s
    rw [List.nil_append, ite_self, List.append_nil]
  | cons c bs ih =>
    intro s
    have hstep : s.loop lineNum (c :: (bs ++ v)) =
        Tokenizer.loop lineNum (if s.takesBlank then s.strcat c else s) (bs ++ v) := by
      have hi (d : Char) : s.iter lineNum c d = (if s.takesBlank then s.strcat c else s, false) :=
        iter_takesBlank s (hbs c List.mem_cons_self) d
      rcases bs ++ v with _ | ⟨d, w⟩
      · exact congrArg Prod.fst (hi ' ')
      · rw [loop_cons, hi]
        rfl
    rw [List.cons_append, hstep, ih fun d hd => hbs d (List.mem_cons_of_mem _ hd)]
    by_cases ht : s.takesBlank = true
    · rw [if_pos ht, if_pos (show (s.strcat c).takesBlank = true from ht), if_pos ht]
      unfold Tokenizer.strcat
      rw [List.append_assoc]
      rfl
    · rw [if_neg ht, if_neg ht, if_neg ht]

theorem iter_newline (s : Tokenizer) {c1 : Char} (h : c1 ≠ '\n') :
    s.iter lineNum c1 '\n' = s.iter lineNum c1 ' ' := by
  unfold Tokenizer.iter
  dsimp only
  repeat' split
  all_goals first
    | rfl
    | contradiction

/-- Reading up to the end of a line does not depend on what the next one is. -/
theorem loop_append_newline (u v : Text) : ∀ s : Tokenizer, u.getLast? ≠ some '\n' →
    s.loop lineNum (u ++ '\n' :: v) = Tokenizer.loop lineNum (s.loop lineNum u) ('\n' :: v) := by
  intro s hu
  fun_induction Tokenizer.loop lineNum s u with
  | case1 s => rfl
  | case2 s c1 =>
    have hc : c1 ≠ '\n' := fun h => hu (by rw [h]; rfl)
    rw [List.singleton_append, loop_cons, iter_newline s hc,
      iter_flag lineNum s (show ' ' ≠ '|' by decide) (show ' ' ≠ '&' by decide)]
    rfl
  | case3 s c1 c2 text r hr ih =>
    rw [List.cons_append, List.cons_append, loop_cons, if_pos hr]
    apply ih
    rcases text with _ | ⟨d, text⟩
    · exact (Option.some_ne_none '\n').symm
    · rwa [List.getLast?_cons_cons, List.getLast?_cons_cons] at hu
  | case4 s c1 c2 text r hr ih =>
    rw [List.cons_append, List.cons_append, loop_cons, if_neg hr]
    apply ih
    rwa [List.getLast?_cons_cons] at hu

/-! ## Where the text of a subshell is read -/

/-- The text of a subshell begins behind an opening parenthesis, and a closing one ends it. -/
theorem iter_inSubshell {s : Tokenizer} (h : s.inSubshell = true → s.inComment = false)
    (c1 c2 : Char) (hr : (s.iter lineNum c1 c2).1.inSubshell = true) :
    (s.iter lineNum c1 c2).1.inComment = false ∧
      (c1 = '(' ∨ c1 ≠ ')' ∧ s.inSubshell = true) := by
  have hfs : (s.flush lineNum).inSubshell = s.inSubshell := flush_inSubshell s
  have hfc : (s.flush lineNum).inComment = s.inComment := by
    unfold flush
    split <;> rfl
  cases hs : s.inSubshell with
  | true =>
    have hc := h hs
    by_cases h1 : c1 = ')'
    · rw [h1] at hr
      unfold iter at hr
      simp only [hc, hs, Bool.false_and, Bool.true_and, bne_self_eq_false, Bool.false_eq_true,
        if_false] at hr
    · refine ⟨?_, .inr ⟨h1, rfl⟩⟩
      unfold iter
      simp only [hc, hs, Bool.false_and, Bool.true_and, bne_iff_ne, ne_eq, h1, not_false_eq_true,
        if_true, Bool.false_eq_true, if_false, strcat]
  | false =>
    rw [hs] at hfs
    revert hr
    unfold iter
    dsimp only
    repeat' split
    case h_8 hc _ =>
      intro _
      refine ⟨?_, .inl rfl⟩
      rw [show '(' != '\n' from rfl, Bool.and_true, Bool.not_eq_true] at hc
      exact hfc.trans hc
    all_goals
      intro hr
      simp only [makeToken, strcat, hfs, hs, Bool.false_eq_true] at hr

/-- What is read ahead belongs to an operator. -/
theorem iter_ahead {s : Tokenizer} {c1 c2 : Char} (h : (s.iter lineNum c1 c2).2 = true) :
    c1 = c2 ∧ (c1 = '|' ∨ c1 = '&') := by
  unfold iter at h
  dsimp only at h
  split at h
  · cases h
  split at h
  · cases h
  split at h
  case h_6 =>
    split at h
    · exact ⟨‹c2 = '|'›.symm, .inl rfl⟩
    · cases h
  case h_7 =>
    split at h
    · exact ⟨‹c2 = '&'›.symm, .inr rfl⟩
    · cases h
  case h_5 =>
    repeat' split at h
    all_goals cases h
  all_goals cases h

/-! ## A newline ends the word -/

theorem flush_flush (s : Tokenizer) : (s.flush lineNum).flush lineNum = s.flush lineNum := by
  have hb : (s.flush lineNum).buffer = [] := flush_buffer s
  rw [flush.eq_1 lineNum (s.flush lineNum), hb]
  rfl

theorem loop_newline {s : Tokenizer} (hc : s.inComment = false) (hs : s.inSubshell = false)
    (text : Text) :
    s.loop lineNum ('\n' :: text) = (s.flush lineNum).loop lineNum ('\n' :: text) := by
  have hc' : (s.flush lineNum).inComment = false := by
    unfold flush
    split <;> exact hc
  have hs' : (s.flush lineNum).inSubshell = false := by
    rw [flush_inSubshell, hs]
  have hi (c2 : Char) : s.iter lineNum '\n' c2 = (s.flush lineNum).iter lineNum '\n' c2 := by
    unfold iter
    simp only [hc, hs, hc', hs', Bool.false_and, Bool.false_eq_true, if_false, flush_flush]
  rcases text with _ | ⟨c2, text⟩
  · exact congrArg Prod.fst (hi ' ')
  · rw [loop_cons, loop_cons, hi]

end Tokenizer

open Tokenizer in
/-- Blanks at the end of a line outside subshells stay behind the word they follow. -/
theorem tokenize_trailing {u bs v : Text} {lineNum lineNum' : Int} (hl : 0 ≤ lineNum)
    (hl' : 0 ≤ lineNum') (hbs : ∀ c ∈ bs, isBlank c) (hv : v = [] ∨ v.head? = some '\n')
    (hu : u.getLast? ≠ some '\n') (hsub : (loop lineNum {} u).inSubshell = false) :
    Alike false (tokenize (u ++ bs ++ v) lineNum) (tokenize (u ++ v) lineNum') := by
  rcases bs with _ | ⟨c, bs⟩
  · rw [List.append_nil]
    exact tokenize_alike _ hl hl'
  have hstart : AlikeState {} {} := ⟨.nil, rfl, Int.le_refl 0, Int.le_refl 0⟩
  have hs := hstart.loop hl hl' u
  have hsteady : Steady (loop lineNum' {} u) := steady_start.loop u
  have hleft : loop lineNum {} (u ++ c :: bs ++ v) = loop lineNum
      { loop lineNum {} u with
        buffer := (loop lineNum {} u).buffer ++
          if (loop lineNum {} u).takesBlank then c :: bs else [] } v := by
    rw [List.append_assoc, List.cons_append,
      loop_append_blank lineNum {} u (hbs c List.mem_cons_self), ← List.cons_append,
      loop_blanks_append (c :: bs) hbs]
  have hright : loop lineNum' {} (u ++ v) = loop lineNum' (loop lineNum' {} u) v := by
    rcases v with _ | ⟨d, v⟩
    · rw [List.append_nil]
      rfl
    · obtain rfl : d = '\n' := Option.some_inj.1 (hv.resolve_left nofun)
      exact loop_append_newline u v {} hu
  unfold tokenize
  rw [hleft, hright]
  generalize loop lineNum {} u = s at hs hsub
  generalize loop lineNum' {} u = s' at hs hsteady
  by_cases ht : s.takesBlank = true
  · -- the blanks are in the word
    rw [if_pos ht]
    unfold takesBlank at ht
    rw [hsub, Bool.false_or, Bool.and_eq_true, Bool.not_eq_true'] at ht
    obtain ⟨hc, hin⟩ := ht
    have hsub' : s'.inSubshell = false := by
      rw [hs.same]
      exact hsub
    have hc' : s'.inComment = false := by
      rw [hs.same]
      exact hc
    have hbuf : s'.buffer = s.buffer := by rw [hs.same]
    obtain ⟨d, hd, hp⟩ := hsteady.plain (by rw [hs.same]; exact hin)
    have hpos : 0 < s.buffer.length := by
      rw [← hbuf]
      exact List.length_pos_of_mem hd
    have hf : AlikeState (flush lineNum { s with buffer := s.buffer ++ c :: bs })
        (flush lineNum' s') := by
      have h1 := hs.lineOffset
      unfold flush
      rw [if_pos (by rw [List.length_append]; omega), if_pos (by rw [hbuf]; exact hpos)]
      refine ⟨hs.tokens.snoc_longer (fun _ => rfl) (hsteady.last hsub') ?_ ?_ ?_, ?_, h1,
        hs.lineOffsetInSubshell⟩
      · dsimp only
        omega
      · rw [hs.same]
        dsimp only
        omega
      · exact ⟨⟨d, hd, hp⟩, c :: bs, hbs, by rw [hbuf]⟩
      · rw [hs.same]
        rfl
    rcases v with _ | ⟨e, v⟩
    · exact hf.tokens
    · obtain rfl : e = '\n' := Option.some_inj.1 (hv.resolve_left nofun)
      rw [loop_newline (s := { s with buffer := s.buffer ++ c :: bs }) hc hsub,
        loop_newline hc' hsub']
      exact ((hf.loop hl hl' _).flush hl hl').tokens
  · rw [if_neg ht, List.append_nil]
    exact ((hs.loop hl hl' v).flush hl hl').tokens

end OsLabs.Shell
