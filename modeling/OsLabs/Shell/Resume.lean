import OsLabs.Shell.Trailing

/-!
# Shell scripts: tokens of a line within a text

On a text without newlines the tokenizer makes the same words from any state in which it is
between two words (`Resumed`), and its flags `after_operator` and `in_first_line` depend on the
characters outside subshells only (`loop_flags`).
-/

namespace OsLabs.Shell

namespace Tokenizer

variable {lineNum lineNum' : Int}

/-! ## Resuming -/

/-- `s` has the words `pre` and then those of `s'`, and goes on like it until the next newline. -/
structure Resumed (pre : List Text) (s s' : Tokenizer) : Prop where
  tokens : s.tokenArray.map Token.word = pre ++ s'.tokenArray.map Token.word
  buffer : s.buffer = s'.buffer
  inSimpleComman : s.inSimpleComman = s'.inSimpleComman
  inSubshell : s.inSubshell = s'.inSubshell
  inComment : s.inComment = s'.inComment

theorem Resumed.flush (lineNum lineNum' : Int) {pre : List Text} {s s' : Tokenizer}
    (h : Resumed pre s s') :
    Resumed pre (s.flush lineNum) (s'.flush lineNum') := by
  unfold Tokenizer.flush makeToken
  rw [h.buffer]
  split
  · refine ⟨?_, rfl, rfl, h.inSubshell, h.inComment⟩
    simp [h.tokens]
  · exact h

theorem Resumed.iter (lineNum lineNum' : Int) {pre : List Text} {s s' : Tokenizer}
    (h : Resumed pre s s') {c1 : Char} (hc : c1 ≠ '\n') (c2 : Char) :
    Resumed pre (s.iter lineNum c1 c2).1 (s'.iter lineNum' c1 c2).1 ∧
      (s.iter lineNum c1 c2).2 = (s'.iter lineNum' c1 c2).2 := by
  have hf : Resumed pre (s.flush lineNum) (s'.flush lineNum') := h.flush _ _
  have hsnoc {ts ts' : List Token} (ht : ts.map Token.word = pre ++ ts'.map Token.word)
      (word : Text) (l l' : Int) : (ts ++ [Token.mk word l]).map Token.word =
        pre ++ (ts' ++ [Token.mk word l']).map Token.word := by
    simp [ht]
  have hcat : s.buffer ++ [c1] = s'.buffer ++ [c1] := by rw [h.buffer]
  unfold Tokenizer.iter
  simp only [h.inComment, h.inSubshell, h.inSimpleComman, h.buffer]
  repeat' split
  all_goals first
    | contradiction
    | exact ⟨h, rfl⟩
    | refine ⟨⟨?_, ?_, ?_, ?_, ?_⟩, rfl⟩
      · first | exact h.tokens | exact hsnoc hf.tokens _ _ _ | exact hsnoc h.tokens _ _ _
      · first | rfl | exact h.buffer | exact hf.buffer | exact hcat
      · first | rfl | exact h.inSimpleComman
      · first | rfl | exact h.inSubshell | exact hf.inSubshell
      · first | rfl | exact h.inComment | exact hf.inComment

theorem Resumed.loop {pre : List Text} {s s' : Tokenizer} (h : Resumed pre s s') (text : Text)
    (ht : '\n' ∉ text) : Resumed pre (s.loop lineNum text) (s'.loop lineNum' text) := by
  fun_induction Tokenizer.loop lineNum s text generalizing s' with
  | case1 s => exact h
  | case2 s c1 => exact (h.iter _ _ (List.ne_of_not_mem_cons ht).symm ' ').1
  | case3 s c1 c2 text r hr =>
    rename_i ih
    obtain ⟨hi, hflag⟩ := h.iter lineNum lineNum' (List.ne_of_not_mem_cons ht).symm c2
    rw [loop_cons, if_pos (hflag ▸ hr)]
    exact ih hi fun hm => ht (List.mem_cons_of_mem _ (List.mem_cons_of_mem _ hm))
  | case4 s c1 c2 text r hr =>
    rename_i ih
    obtain ⟨hi, hflag⟩ := h.iter lineNum lineNum' (List.ne_of_not_mem_cons ht).symm c2
    rw [loop_cons, if_neg (hflag ▸ hr)]
    exact ih hi fun hm => ht (List.mem_cons_of_mem _ hm)

/-! ## The flags -/

/-- Behind `c` the tokenizer is in a subshell; `b` says whether it was in front of it. -/
def opened (b : Bool) (c : Char) : Bool := if b then c != ')' else c == '('

/-- Outside subshells every character but blanks, semicolons and parentheses sets the flags. -/
def isMark (b : Bool) (c : Char) : Bool := !b && !(['(', ')', ';', ' ', '\t'].contains c)

/-- The characters of a text that set the flags. -/
def marks : Bool → Text → Text
  | _, [] => []
  | b, c :: text => if isMark b c then c :: marks (opened b c) text else marks (opened b c) text

/-- `after_operator` behind a character that sets it. -/
def setsOperator (c : Char) : Bool := c == '|' || c == '&'

/-- What a character of a line does to the flags. -/
structure Marked (s : Tokenizer) (c : Char) (r : Tokenizer) : Prop where
  inComment : r.inComment = false
  inSubshell : r.inSubshell = opened s.inSubshell c
  afterOperator : r.afterOperator =
    if isMark s.inSubshell c then setsOperator c else s.afterOperator
  inFirstLine : r.inFirstLine = if isMark s.inSubshell c then false else s.inFirstLine

theorem iter_marked {s : Tokenizer} (hc : s.inComment = false) {c1 : Char} (hn : c1 ≠ '\n')
    (hh : c1 ≠ '#') (c2 : Char) : Marked s c1 (s.iter lineNum c1 c2).1 := by
  obtain ⟨hfc, hfo, hff⟩ := flush_flags lineNum s
  have hfs : (s.flush lineNum).inSubshell = s.inSubshell := flush_inSubshell s
  unfold iter
  rw [hc, Bool.false_and, if_neg Bool.false_ne_true]
  repeat' split
  all_goals first
    | contradiction
    | refine ⟨?_, ?_, ?_, ?_⟩ <;>
        simp_all [makeToken, strcat, isMark, opened, setsOperator]

/-- What is read ahead stands outside subshells. -/
theorem iter_ahead_inSubshell {s : Tokenizer} {c1 c2 : Char}
    (h : (s.iter lineNum c1 c2).2 = true) : s.inSubshell = false := by
  obtain ⟨-, hc⟩ := iter_ahead h
  by_contra hs
  have hne : c1 ≠ ')' := by rcases hc with rfl | rfl <;> decide
  rw [Bool.not_eq_false] at hs
  unfold iter at h
  rw [hs, Bool.true_and] at h
  split at h
  · cases h
  · rw [if_pos (bne_iff_ne.2 hne)] at h
    cases h

/-- The flags behind a text are those of its last mark. -/
structure Flags (s : Tokenizer) (m : Text) (r : Tokenizer) : Prop where
  inComment : r.inComment = false
  afterOperator : r.afterOperator = (m.getLast?.map setsOperator).getD s.afterOperator
  inFirstLine : r.inFirstLine = (s.inFirstLine && m.isEmpty)

theorem Marked.flags {s r t : Tokenizer} {c : Char} (h : Marked s c r) {text : Text}
    (ht : Flags r (marks r.inSubshell text) t) : Flags s (marks s.inSubshell (c :: text)) t := by
  obtain ⟨-, hs, ho, hf⟩ := h
  refine ⟨ht.inComment, ?_, ?_⟩
  · rw [ht.afterOperator, ho, hs, marks]
    split
    · rw [List.getLast?_cons]
      cases (marks (opened s.inSubshell c) text).getLast? <;> rfl
    · rfl
  · rw [ht.inFirstLine, hf, hs, marks]
    split
    · rw [List.isEmpty_cons, Bool.and_false, Bool.false_and]
    · rfl

theorem loop_flags (lineNum : Int) {s : Tokenizer} (hc : s.inComment = false) (text : Text)
    (hn : '\n' ∉ text) (hh : '#' ∉ text) :
    Flags s (marks s.inSubshell text) (s.loop lineNum text) := by
  have hnil (s : Tokenizer) (hc : s.inComment = false) (b : Bool) : Flags s (marks b []) s :=
    ⟨hc, rfl, (Bool.and_true _).symm⟩
  fun_induction Tokenizer.loop lineNum s text with
  | case1 s => exact hnil s hc _
  | case2 s c1 =>
    have hm : Marked s c1 (s.iter lineNum c1 ' ').1 :=
      iter_marked hc (List.ne_of_not_mem_cons hn).symm (List.ne_of_not_mem_cons hh).symm ' '
    exact hm.flags (hnil _ hm.inComment _)
  | case3 s c1 c2 text r hr =>
    rename_i ih
    have hm : Marked s c1 r.1 :=
      iter_marked hc (List.ne_of_not_mem_cons hn).symm (List.ne_of_not_mem_cons hh).symm c2
    have hin := iter_ahead_inSubshell hr
    obtain ⟨rfl, hbar⟩ := iter_ahead hr
    have ht := ih hm.inComment (fun h => hn (List.mem_cons_of_mem _ (List.mem_cons_of_mem _ h)))
      fun h => hh (List.mem_cons_of_mem _ (List.mem_cons_of_mem _ h))
    -- the second character sets the flags as the first one did
    have hmark : isMark false c1 = true ∧ opened false c1 = false := by
      rcases hbar with rfl | rfl <;> decide
    have hself : Marked r.1 c1 r.1 := by
      have h1 := hm.inSubshell
      have h2 := hm.afterOperator
      have h3 := hm.inFirstLine
      rw [hin] at h1 h2 h3
      rw [hmark.1, if_pos rfl] at h2 h3
      rw [hmark.2] at h1
      refine ⟨hm.inComment, ?_, ?_, ?_⟩ <;> rw [h1]
      · exact hmark.2.symm
      · rw [hmark.1, if_pos rfl, h2]
      · rw [hmark.1, if_pos rfl, h3]
    exact hm.flags (hself.flags ht)
  | case4 s c1 c2 text r hr =>
    rename_i ih
    have hm : Marked s c1 r.1 :=
      iter_marked hc (List.ne_of_not_mem_cons hn).symm (List.ne_of_not_mem_cons hh).symm c2
    exact hm.flags (ih hm.inComment (fun h => hn (List.mem_cons_of_mem _ h))
      fun h => hh (List.mem_cons_of_mem _ h))

/-! ## An open subshell -/

/-- In a subshell the last token is the opening parenthesis, and no comment is read. -/
structure Opens (s : Tokenizer) : Prop where
  last : s.inSubshell = true → ∃ t ∈ s.tokenArray.getLast?, t.word = ['(']
  inComment : s.inSubshell = true → s.inComment = false

theorem Opens.iter {s : Tokenizer} (h : Opens s) (c1 c2 : Char) :
    Opens (s.iter lineNum c1 c2).1 := by
  refine ⟨fun hr => ?_, fun hr => (iter_inSubshell h.inComment c1 c2 hr).1⟩
  have hstep := (iter_inSubshell h.inComment c1 c2 hr).2
  cases hs : s.inSubshell with
  | true =>
    -- the character belongs to the text
    have hne : c1 ≠ ')' := by
      rcases hstep with rfl | ⟨hne, -⟩
      · decide
      · exact hne
    have ht : (s.iter lineNum c1 c2).1.tokenArray = s.tokenArray := by
      unfold Tokenizer.iter
      rw [h.inComment hs, hs, Bool.false_and, Bool.true_and, if_neg Bool.false_ne_true,
        if_pos (bne_iff_ne.2 hne)]
      rfl
    rw [ht]
    exact h.last hs
  | false =>
    obtain rfl := hstep.resolve_right fun h => Bool.false_ne_true (hs.symm.trans h.2)
    cases hc : s.inComment with
    | true =>
      unfold Tokenizer.iter at hr
      rw [hc, Bool.true_and, if_pos (by decide), hs] at hr
      cases hr
    | false =>
      unfold Tokenizer.iter
      rw [hc, hs, Bool.false_and, Bool.false_and, if_neg Bool.false_ne_true,
        if_neg Bool.false_ne_true]
      refine ⟨_, List.getLast?_concat, rfl⟩

theorem Opens.loop {s : Tokenizer} (h : Opens s) (text : Text) : Opens (s.loop lineNum text) := by
  fun_induction Tokenizer.loop lineNum s text with
  | case1 s => exact h
  | case2 s c1 => exact h.iter c1 ' '
  | case3 s c1 c2 text r hr ih => exact ih (h.iter c1 c2)
  | case4 s c1 c2 text r hr ih => exact ih (h.iter c1 c2)

theorem opens_start : Opens {} := ⟨nofun, nofun⟩

/-! ## Two lines -/

/-- The state behind a newline: the words of the line, and the semicolon unless a flag keeps it
off. -/
theorem iter_newline_words (lineNum : Int) {s : Tokenizer} (hst : Steady s)
    (hc : s.inComment = false) (hs : s.inSubshell = false) {c2 : Char} (h2 : c2 ≠ '\n') :
    (s.iter lineNum '\n' c2).2 = false ∧
      Resumed ((s.flush lineNum).tokenArray.map Token.word ++
        if s.afterOperator = false ∧ s.inFirstLine = false then [[';']] else [])
        (s.iter lineNum '\n' c2).1 {} := by
  have hfs : (s.flush lineNum).inSubshell = s.inSubshell := flush_inSubshell s
  obtain ⟨hfc, hfo, hff⟩ := flush_flags lineNum s
  have hfb : (s.flush lineNum).buffer = [] := flush_buffer s
  have hfi : (s.flush lineNum).inSimpleComman = false := by
    by_contra hi
    rw [Bool.not_eq_false] at hi
    obtain ⟨c, hm, -⟩ := (show Steady (s.flush lineNum) from hst.flush).plain hi
    rw [hfb] at hm
    cases hm
  have hi : s.iter lineNum '\n' c2 =
      if !(s.flush lineNum).afterOperator && !(s.flush lineNum).inFirstLine then
        ({ (s.flush lineNum).makeToken lineNum [';'] with
            inFirstLine := false, lineOffset := (s.flush lineNum).lineOffset + 1 }, false)
      else if c2 = '\n' then (s.flush lineNum, false)
      else ({ s.flush lineNum with
        afterOperator := false, lineOffset := (s.flush lineNum).lineOffset + 1 }, false) := by
    unfold iter
    rw [hc, hs, Bool.false_and, Bool.false_and, if_neg Bool.false_ne_true,
      if_neg Bool.false_ne_true]
    rfl
  rw [hi, hfo, hff]
  by_cases hflags : s.afterOperator = false ∧ s.inFirstLine = false
  · rw [if_pos (by rw [hflags.1, hflags.2]; rfl), if_pos hflags]
    refine ⟨rfl, ?_, hfb, rfl, hfs.trans hs, hfc.trans hc⟩
    simp [makeToken]
  · rw [if_neg (by simpa [Bool.and_eq_true] using hflags), if_neg h2, if_neg hflags]
    refine ⟨rfl, ?_, hfb, hfi, hfs.trans hs, hfc.trans hc⟩
    simp

end Tokenizer

open Tokenizer

theorem Tokenizer.Resumed.tokenize {pre : List Text} {s : Tokenizer} {lineNum : Int}
    (h : Resumed pre s {}) {text : Text} (ht : '\n' ∉ text) (line : Int) :
    ((s.loop lineNum text).flush lineNum).tokenArray.map Token.word =
      pre ++ (OsLabs.Shell.tokenize text line).map Token.word :=
  ((h.loop text ht).flush lineNum line).tokens

/-- What the tokenizer knows behind a closed line. -/
structure LineEnd (s : Tokenizer) : Prop where
  steady : Steady s
  inComment : s.inComment = false
  inSubshell : s.inSubshell = false

/-- **The words of two lines**: between those of the lines stands a semicolon if the flags allow
it. -/
theorem tokenize_newline {u v : Text} {lineNum : Int} (hu : '\n' ∉ u) (hv : '\n' ∉ v)
    (h : LineEnd (loop lineNum {} u)) (line : Int) :
    (tokenize (u ++ '\n' :: v) lineNum).map Token.word =
      (tokenize u lineNum).map Token.word ++
        (if (loop lineNum {} u).afterOperator = false ∧ (loop lineNum {} u).inFirstLine = false
          then [[';']] else []) ++ (tokenize v line).map Token.word := by
  have hlast : u.getLast? ≠ some '\n' := fun he => hu (List.mem_of_getLast? he)
  unfold tokenize
  rw [loop_append_newline u v {} hlast]
  generalize loop lineNum {} u = s at h ⊢
  rcases v with _ | ⟨c2, v⟩
  · have hi := iter_newline_words lineNum h.steady h.inComment h.inSubshell
      (show ' ' ≠ '\n' by decide)
    exact hi.2.tokenize hv line
  · have hi := iter_newline_words lineNum h.steady h.inComment h.inSubshell
      (List.ne_of_not_mem_cons hv).symm
    rw [loop_cons, hi.1, if_neg Bool.false_ne_true]
    exact hi.2.tokenize hv line

theorem tokenize_semicolon {u v : Text} {lineNum : Int} (hv : '\n' ∉ v)
    (h : LineEnd (loop lineNum {} u)) (line : Int) :
    (tokenize (u ++ [' ', ';', ' '] ++ v) lineNum).map Token.word =
      (tokenize (u ++ [' ']) lineNum).map Token.word ++ [[';']] ++
        (tokenize v line).map Token.word := by
  have hblank : ∀ c ∈ [' '], isBlank c = true := by simp [isBlank]
  have he : u ++ [' ', ';', ' '] ++ v = u ++ ' ' :: ';' :: ([' '] ++ v) := by simp
  unfold tokenize
  rw [he, loop_append_blank lineNum {} u (by decide), loop_append_blank lineNum {} u (by decide)]
  generalize loop lineNum {} u = s at h ⊢
  have h1 : s.loop lineNum ([' '] ++ ';' :: ([' '] ++ v)) = _ := loop_blanks_append [' '] hblank _ s
  have h2 : s.loop lineNum ([' '] ++ []) = _ := loop_blanks_append [' '] hblank [] s
  rw [List.singleton_append] at h1 h2
  rw [h1, h2]
  -- the state behind the first blank
  generalize hs1 : ({ s with buffer := s.buffer ++ if s.takesBlank then [' '] else [] } :
    Tokenizer) = s1
  have hc : s1.inComment = false := hs1 ▸ h.inComment
  have hs : s1.inSubshell = false := hs1 ▸ h.inSubshell
  have hfs : (s1.flush lineNum).inSubshell = s1.inSubshell := flush_inSubshell s1
  have hfc := (flush_flags lineNum s1).1
  have hi (c2 : Char) :
      s1.iter lineNum ';' c2 = ((s1.flush lineNum).makeToken lineNum [';'], false) := by
    unfold iter
    rw [hc, hs, Bool.false_and, Bool.false_and, if_neg Bool.false_ne_true,
      if_neg Bool.false_ne_true]
    rfl
  have hblanks : ((s1.flush lineNum).makeToken lineNum [';']).takesBlank = false := by
    unfold takesBlank
    rw [show ((s1.flush lineNum).makeToken lineNum [';']).inSubshell = false from hfs.trans hs,
      show ((s1.flush lineNum).makeToken lineNum [';']).inSimpleComman = false from rfl]
    exact Bool.and_false _
  have h3 : ((s1.flush lineNum).makeToken lineNum [';']).loop lineNum ([' '] ++ v) = _ :=
    loop_blanks_append [' '] hblank v _
  rw [hblanks, if_neg Bool.false_ne_true, List.append_nil] at h3
  rw [List.singleton_append] at h3 ⊢
  rw [loop_cons, hi, if_neg Bool.false_ne_true, h3]
  have hr : Resumed ((s1.flush lineNum).tokenArray.map Token.word ++ [[';']])
      ((s1.flush lineNum).makeToken lineNum [';']) {} := by
    refine ⟨?_, flush_buffer s1, rfl, hfs.trans hs, hfc.trans hc⟩
    simp [makeToken]
  exact hr.tokenize hv line

end OsLabs.Shell
