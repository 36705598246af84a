import OsLabs.Shell.Token

/-!
# Shell scripts: tokens and the text they come from

`lexemes` cuts a command text at its operators, read from left to right with the
longest match; between `(` and the next `)` nothing is cut. `tokenize_lexemes`: every
operator is a token of its own, and every other lexeme is at most one token, with
nothing but blanks taken out.
-/

namespace OsLabs.Shell

/-- A part of a command text: an operator, text outside parentheses, or text between them. -/
inductive Lexeme where
  | op (w : Text)
  | text (w : Text)
  | inner (w : Text)
  deriving DecidableEq, Repr

namespace Lexeme

def chars : Lexeme → Text
  | op w => w
  | text w => w
  | inner w => w

/-- Text in front of lexemes is part of the first one, if that is text. -/
def addText (w : Text) : List Lexeme → List Lexeme
  | text v :: ps => text (w ++ v) :: ps
  | ps => if w = [] then ps else text w :: ps

def addInner (w : Text) : List Lexeme → List Lexeme
  | inner v :: ps => inner (w ++ v) :: ps
  | ps => inner w :: ps

end Lexeme

/-- The lexemes of a text; the flag says that it is the text behind a `(`. -/
def lexemes : Bool → Text → List Lexeme
  | true, [] => [.inner []]
  | true, ')' :: t => .inner [] :: .op [')'] :: lexemes false t
  | true, c :: t => Lexeme.addInner [c] (lexemes true t)
  | false, [] => []
  | false, '|' :: '|' :: t => .op ['|', '|'] :: lexemes false t
  | false, '&' :: '&' :: t => .op ['&', '&'] :: lexemes false t
  | false, '|' :: t => .op ['|'] :: lexemes false t
  | false, ';' :: t => .op [';'] :: lexemes false t
  | false, '<' :: t => .op ['<'] :: lexemes false t
  | false, '>' :: t => .op ['>'] :: lexemes false t
  | false, '(' :: t => .op ['('] :: lexemes true t
  | false, ')' :: t => .op [')'] :: lexemes false t
  | false, c :: t => Lexeme.addText [c] (lexemes false t)

/-- The second text is the first one with only blanks removed. -/
inductive Blanked : Text → Text → Prop where
  | nil : Blanked [] []
  | keep (c : Char) {u v : Text} : Blanked u v → Blanked (c :: u) (c :: v)
  | drop {c : Char} {u v : Text} : isBlank c = true → Blanked u v → Blanked (c :: u) v

/-- A token for a text, if there is any. -/
def wordOf (w : Text) : List Text := if w = [] then [] else [w]

/-- The words of the tokens that lexemes become. -/
inductive Cut : List Lexeme → List Text → Prop where
  | nil : Cut [] []
  | op (w : Text) {ps ws} : Cut ps ws → Cut (.op w :: ps) (w :: ws)
  | text {w w' : Text} {ps ws} : Blanked w w' → Cut ps ws → Cut (.text w :: ps) (wordOf w' ++ ws)
  | inner (w : Text) {ps ws} : Cut ps ws → Cut (.inner w :: ps) (wordOf w ++ ws)

variable {t u v w b : Text} {ps : List Lexeme} {ws : List Text} {c : Char}

/-! ## Removing blanks -/

theorem Blanked.refl (t : Text) : Blanked t t := by
  induction t with
  | nil => exact .nil
  | cons c t ih => exact .keep c ih

theorem Blanked.append (h : Blanked t u) (h' : Blanked v w) : Blanked (t ++ v) (u ++ w) := by
  induction h with
  | nil => exact h'
  | keep c _ ih => exact .keep c ih
  | drop hc _ ih => exact .drop hc ih

theorem Blanked.eq_nil (h : Blanked [] u) : u = [] := by
  cases h
  rfl

theorem wordOf_flatten (w : Text) : (wordOf w).flatten = w := by
  unfold wordOf
  split
  next h => exact h.symm
  next => simp

/-- What is left of the lexemes. -/
theorem Cut.blanked (h : Cut ps ws) : Blanked (ps.flatMap Lexeme.chars) ws.flatten := by
  induction h with
  | nil => exact .nil
  | op w _ ih => exact (Blanked.refl w).append ih
  | text hw _ ih =>
    rw [List.flatten_append, wordOf_flatten]
    exact hw.append ih
  | inner w _ ih =>
    rw [List.flatten_append, wordOf_flatten]
    exact (Blanked.refl w).append ih

/-! ## Lexemes -/

namespace Lexeme

theorem chars_addText (w : Text) (ps : List Lexeme) :
    (addText w ps).flatMap chars = w ++ ps.flatMap chars := by
  unfold addText
  split
  · simp [chars]
  · split <;> simp_all [chars]

theorem chars_addInner (w : Text) (ps : List Lexeme) :
    (addInner w ps).flatMap chars = w ++ ps.flatMap chars := by
  unfold addInner
  split <;> simp [chars]

@[simp] theorem addText_nil (ps : List Lexeme) : addText [] ps = ps := by
  unfold addText
  split <;> rfl

theorem addText_addText (u w : Text) (ps : List Lexeme) :
    addText u (addText w ps) = addText (u ++ w) ps := by
  by_cases hw : w = []
  · rw [hw, addText_nil, List.append_nil]
  · cases ps with
    | nil => simp [addText, hw]
    | cons p ps => cases p <;> simp [addText, hw]

theorem addInner_addInner (u w : Text) (ps : List Lexeme) :
    addInner u (addInner w ps) = addInner (u ++ w) ps := by
  cases ps with
  | nil => simp [addInner]
  | cons p ps => cases p <;> simp [addInner]

end Lexeme

/-- Nothing is lost between the lexemes. -/
theorem lexemes_chars (inside : Bool) (t : Text) : (lexemes inside t).flatMap Lexeme.chars = t := by
  fun_induction lexemes inside t <;>
    simp_all [Lexeme.chars, Lexeme.chars_addText, Lexeme.chars_addInner]

/-- The operators of one character. -/
def operators : List Char := [';', '<', '>', '(', ')', '|']

/-! ## Iterations of `tokenize` -/

namespace Tokenizer

variable (lineNum : Int) (s s' : Tokenizer)

/-- The words of the tokens written so far. -/
def words : List Text := s.tokenArray.map Token.word

/-- A token `w` is written behind one for the collected text. -/
structure Emits (w : Text) (inside : Bool) : Prop where
  words : s'.words = s.words ++ wordOf s.buffer ++ [w]
  buffer : s'.buffer = []
  inSubshell : s'.inSubshell = inside
  inComment : s'.inComment = false

/-- `w` is added to the collected text. -/
structure Collects (w : Text) : Prop where
  words : s'.words = s.words
  buffer : s'.buffer = s.buffer ++ w
  inSubshell : s'.inSubshell = s.inSubshell
  inComment : s'.inComment = false

variable {lineNum s s'}

theorem words_flush : (s.flush lineNum).words = s.words ++ wordOf s.buffer := by
  unfold flush wordOf words
  rcases s.buffer with _ | ⟨c, b⟩
  · simp
  · simp [makeToken]

theorem words_makeToken (w : Text) : (s.makeToken lineNum w).words = s.words ++ [w] := by
  simp [words, makeToken]

/-- Behind a `(` everything but `)` is collected. -/
theorem iter_inside (lineNum : Int) (c2 : Char) (hcom : s.inComment = false)
    (hin : s.inSubshell = true) (hc : c ≠ ')') :
    s.Collects (s.iter lineNum c c2).1 [c] ∧ (s.iter lineNum c c2).2 = false := by
  unfold iter
  simp only [hcom, hin, hc, Bool.false_and, Bool.true_and, bne_iff_ne, ne_eq, not_false_eq_true,
    if_true, Bool.false_eq_true, if_false]
  exact ⟨⟨rfl, rfl, rfl, hcom⟩, trivial⟩

/-- The fields that a token needs, after `flush` and `make_token`. -/
theorem Emits.of_fields {w : Text} {inside : Bool} (hcom : s.inComment = false)
    (hwords : s'.words = ((s.flush lineNum).makeToken lineNum w).words)
    (hbuf : s'.buffer = (s.flush lineNum).buffer) (hin : s'.inSubshell = inside)
    (hflag : s'.inComment = (s.flush lineNum).inComment) : s.Emits s' w inside := by
  refine ⟨?_, hbuf.trans (flush_buffer s), hin, hflag.trans ((flush_flags lineNum s).1.trans hcom)⟩
  rw [hwords, words_makeToken, words_flush]

theorem iter_close (lineNum : Int) (c2 : Char) (hcom : s.inComment = false) :
    s.Emits (s.iter lineNum ')' c2).1 [')'] false ∧ (s.iter lineNum ')' c2).2 = false := by
  unfold iter
  simp only [hcom, Bool.false_and, Bool.false_eq_true, if_false, bne_self_eq_false, Bool.and_false]
  refine ⟨?_, trivial⟩
  by_cases hb : 0 < s.buffer.length
  · simp only [hb, if_true]
    exact .of_fields hcom (by simp [Tokenizer.words, makeToken]) rfl rfl rfl
  · have hflush : s.flush lineNum = s := if_neg hb
    simp only [hb, if_false]
    exact .of_fields hcom (by rw [hflush]; rfl) (by rw [hflush]; rfl) rfl (by rw [hflush]; rfl)

/-- Outside parentheses an operator is a token. -/
theorem iter_op (lineNum : Int) (c2 : Char) (hcom : s.inComment = false)
    (hin : s.inSubshell = false) (hc : c = ';' ∨ c = '<' ∨ c = '>' ∨ c = '(' ∨ c = '|' ∧ c2 ≠ '|') :
    s.Emits (s.iter lineNum c c2).1 [c] (c == '(') ∧ (s.iter lineNum c c2).2 = false := by
  have hout : (s.flush lineNum).inSubshell = false := (flush_inSubshell s).trans hin
  unfold iter
  rcases hc with rfl | rfl | rfl | rfl | ⟨rfl, hc2⟩
  all_goals simp only [hcom, hin, Bool.false_and, Bool.false_eq_true, if_false]
  · exact ⟨.of_fields hcom rfl rfl hout rfl, trivial⟩
  · exact ⟨.of_fields hcom rfl rfl hout rfl, trivial⟩
  · exact ⟨.of_fields hcom rfl rfl hout rfl, trivial⟩
  · exact ⟨.of_fields hcom rfl rfl rfl rfl, trivial⟩
  · simp only [hc2, if_false]
    exact ⟨.of_fields hcom rfl rfl hout rfl, trivial⟩

theorem iter_op2 (lineNum : Int) (hcom : s.inComment = false) (hin : s.inSubshell = false)
    (hc : c = '|' ∨ c = '&') :
    s.Emits (s.iter lineNum c c).1 [c, c] false ∧ (s.iter lineNum c c).2 = true := by
  have hout : (s.flush lineNum).inSubshell = false := (flush_inSubshell s).trans hin
  unfold iter
  rcases hc with rfl | rfl
  all_goals simp only [hcom, hin, Bool.false_and, Bool.false_eq_true, if_false, if_true]
  · exact ⟨.of_fields hcom rfl rfl hout rfl, trivial⟩
  · exact ⟨.of_fields hcom rfl rfl hout rfl, trivial⟩

/-- Other characters are collected, except for blanks in front of a word. -/
theorem iter_text (lineNum : Int) {c2 : Char} (hcom : s.inComment = false)
    (hin : s.inSubshell = false) (hhash : c ≠ '#') (hline : c ≠ '\n') (hc : c ∉ operators)
    (hand : c = '&' → c2 ≠ '&') :
    (∃ w, Blanked [c] w ∧ s.Collects (s.iter lineNum c c2).1 w) ∧
      (s.iter lineNum c c2).2 = false := by
  simp only [operators, List.mem_cons, List.not_mem_nil, or_false, not_or] at hc
  obtain ⟨h1, h2, h3, h4, h5, h6⟩ := hc
  have hkeep {r : Tokenizer} (htok : r.tokenArray = s.tokenArray)
      (hbuf : r.buffer = s.buffer ++ [c]) (hin' : r.inSubshell = s.inSubshell)
      (hcom' : r.inComment = s.inComment) : ∃ w, Blanked [c] w ∧ s.Collects r w :=
    ⟨[c], .refl _, congrArg (List.map Token.word) htok, hbuf, hin', hcom'.trans hcom⟩
  by_cases hb : isBlank c = true
  · rcases iter_blank lineNum s hb c2 with h | h
    · rw [h]
      exact ⟨⟨[], .drop hb .nil, rfl, (List.append_nil _).symm, rfl, hcom⟩, rfl⟩
    · rw [h]
      exact ⟨hkeep rfl rfl rfl rfl, rfl⟩
  · have hs : c ≠ ' ' := fun h => hb (isBlank_iff.2 (.inl h))
    have ht : c ≠ '\t' := fun h => hb (isBlank_iff.2 (.inr h))
    unfold iter
    simp only [hcom, hin, Bool.false_and, Bool.false_eq_true, if_false]
    split
    all_goals try contradiction
    · rw [if_neg (hand rfl)]
      exact ⟨hkeep rfl rfl rfl rfl, rfl⟩
    · exact ⟨hkeep rfl rfl rfl rfl, rfl⟩

/-! ## The loop of `tokenize` -/

theorem loop_char (lineNum : Int) (s : Tokenizer) (c : Char) (t : Text) :
    loop lineNum s (c :: t) =
      if (s.iter lineNum c (t.headD ' ')).2 then
        loop lineNum (s.iter lineNum c (t.headD ' ')).1 t.tail
      else loop lineNum (s.iter lineNum c (t.headD ' ')).1 t := by
  rcases t with _ | ⟨d, t⟩
  · show (s.iter lineNum c ' ').1 = if (s.iter lineNum c ' ').2 then _ else _
    rw [iter_flag lineNum s (by decide) (by decide)]
    rfl
  · rfl

end Tokenizer

theorem lexemes_op {t : Text}
    (hc : c = ';' ∨ c = '<' ∨ c = '>' ∨ c = '(' ∨ c = ')' ∨ c = '|' ∧ t.headD ' ' ≠ '|') :
    lexemes false (c :: t) = .op [c] :: lexemes (c == '(') t := by
  rcases hc with rfl | rfl | rfl | rfl | rfl | ⟨rfl, hd⟩
  iterate 5 rfl
  rcases t with _ | ⟨d, t⟩
  · rfl
  · rw [lexemes]
    · rfl
    · rintro t' he
      cases he
      exact hd rfl

theorem lexemes_text {t : Text} (hc : c ∉ operators)
    (hand : c = '&' → t.headD ' ' ≠ '&') :
    lexemes false (c :: t) = Lexeme.addText [c] (lexemes false t) := by
  simp only [operators, List.mem_cons, List.not_mem_nil, or_false, not_or] at hc
  rw [lexemes]
  all_goals simp_all
  intro t' hamp ht
  rw [ht] at hand
  exact hand hamp rfl

theorem lexemes_inner (hc : c ≠ ')') (t : Text) :
    lexemes true (c :: t) = Lexeme.addInner [c] (lexemes true t) := by
  rw [lexemes]
  exact hc

/-- Collected text goes on with the lexemes behind it. -/
def resume (inside : Bool) (w : Text) (ps : List Lexeme) : List Lexeme :=
  if inside then Lexeme.addInner w ps else Lexeme.addText w ps

theorem Cut.before_op (hw : Blanked b w) (h : Cut ps ws) (v : Text) :
    Cut (Lexeme.addText b (.op v :: ps)) (wordOf w ++ v :: ws) := by
  have haddText : Lexeme.addText b (.op v :: ps) =
      if b = [] then .op v :: ps else .text b :: .op v :: ps := rfl
  rw [haddText]
  by_cases hb : b = []
  · rw [hb] at hw
    rw [if_pos hb, hw.eq_nil]
    exact .op v h
  · rw [if_neg hb]
    exact .text hw (.op v h)

namespace Tokenizer

variable {lineNum : Int} {s s' : Tokenizer}

/-- What has been collected, and what is in the buffer for it. -/
def Holds (s : Tokenizer) (b : Text) : Prop :=
  if s.inSubshell then b = s.buffer else Blanked b s.buffer

theorem Holds.outside (hb : s.Holds b) (hin : s.inSubshell = false) : Blanked b s.buffer := by
  unfold Holds at hb
  rwa [hin] at hb

theorem Holds.inside (hb : s.Holds b) (hin : s.inSubshell = true) : b = s.buffer := by
  unfold Holds at hb
  rwa [hin] at hb

theorem holds_nil (h : s.buffer = []) : s.Holds [] := by
  unfold Holds
  rw [h]
  split
  · rfl
  · exact .nil

/-- From `s` on, where `b` has been collected, the tokens of the lexemes of `t` are written. -/
def Tokenized (lineNum : Int) (s : Tokenizer) (b t : Text) : Prop :=
  ∃ ws, ((loop lineNum s t).flush lineNum).words = s.words ++ ws ∧
    Cut (resume s.inSubshell b (lexemes s.inSubshell t)) ws

theorem resume_nil (inside : Bool) (t : Text) :
    resume inside [] (lexemes inside t) = lexemes inside t := by
  unfold resume
  cases inside with
  | false => exact Lexeme.addText_nil _
  | true =>
    obtain ⟨w, ps, he⟩ : ∃ w ps, lexemes true t = .inner w :: ps := by
      rcases t with _ | ⟨c, t⟩
      · exact ⟨_, _, rfl⟩
      · by_cases hc : c = ')'
        · rw [hc]
          exact ⟨_, _, rfl⟩
        · rw [lexemes_inner hc]
          unfold Lexeme.addInner
          split <;> exact ⟨_, _, rfl⟩
    rw [he]
    rfl

theorem Tokenized.of_nil (hb : s.Holds b) : Tokenized lineNum s b [] := by
  refine ⟨wordOf s.buffer, words_flush, ?_⟩
  have hcut : Cut [] [] := .nil
  unfold resume
  rw [← List.append_nil (wordOf s.buffer)]
  cases hin : s.inSubshell with
  | false =>
    have hw := hb.outside hin
    show Cut (if b = [] then [] else [.text b]) _
    by_cases h : b = []
    · rw [h] at hw
      rw [if_pos h, hw.eq_nil]
      exact .nil
    · rw [if_neg h]
      exact .text hw .nil
  | true =>
    have hinner : Lexeme.addInner b (lexemes true []) = [.inner b] := by
      show [Lexeme.inner (b ++ [])] = _
      rw [List.append_nil]
    rw [if_pos rfl, hinner, hb.inside hin]
    exact .inner _ .nil

/-- An operator outside parentheses. -/
theorem Tokenized.of_op {inside : Bool} {rest : Text} (h : Tokenized lineNum s' [] rest)
    (hin : s.inSubshell = false) (hb : s.Holds b) (hr : s.Emits s' w inside)
    (hp : lexemes false t = .op w :: lexemes inside rest)
    (hloop : loop lineNum s t = loop lineNum s' rest) : Tokenized lineNum s b t := by
  obtain ⟨ws, hws, hcut⟩ := h
  rw [hr.inSubshell, resume_nil] at hcut
  refine ⟨wordOf s.buffer ++ w :: ws, ?_, ?_⟩
  · rw [hloop, hws, hr.words]
    simp
  · rw [hin, hp]
    exact hcut.before_op (hb.outside hin) w

/-- The `)` behind text between parentheses. -/
theorem Tokenized.of_close (h : Tokenized lineNum s' [] t) (hin : s.inSubshell = true)
    (hb : s.Holds b) (hr : s.Emits s' [')'] false)
    (hloop : loop lineNum s (')' :: t) = loop lineNum s' t) :
    Tokenized lineNum s b (')' :: t) := by
  obtain ⟨ws, hws, hcut⟩ := h
  rw [hr.inSubshell, resume_nil] at hcut
  refine ⟨wordOf s.buffer ++ [')'] :: ws, ?_, ?_⟩
  · rw [hloop, hws, hr.words]
    simp
  · have hlexemes : resume true b (lexemes true (')' :: t)) =
        .inner b :: .op [')'] :: lexemes false t := by
      show Lexeme.inner (b ++ []) :: _ = _
      rw [List.append_nil]
    rw [hin, hlexemes, hb.inside hin]
    exact .inner _ (.op _ hcut)

/-- A character that is collected, or a blank that is not. -/
theorem Tokenized.of_text (h : Tokenized lineNum s' (b ++ [c]) t) (hin : s.inSubshell = false)
    (hr : s.Collects s' w) (hp : lexemes false (c :: t) = Lexeme.addText [c] (lexemes false t))
    (hloop : loop lineNum s (c :: t) = loop lineNum s' t) : Tokenized lineNum s b (c :: t) := by
  obtain ⟨ws, hws, hcut⟩ := h
  refine ⟨ws, by rw [hloop, hws, hr.words], ?_⟩
  rw [hr.inSubshell, hin] at hcut
  rw [hin, hp]
  show Cut (Lexeme.addText b (Lexeme.addText [c] (lexemes false t))) ws
  rw [Lexeme.addText_addText]
  exact hcut

theorem Tokenized.of_inner (h : Tokenized lineNum s' (b ++ [c]) t) (hin : s.inSubshell = true)
    (hr : s.Collects s' [c]) (hc : c ≠ ')')
    (hloop : loop lineNum s (c :: t) = loop lineNum s' t) : Tokenized lineNum s b (c :: t) := by
  obtain ⟨ws, hws, hcut⟩ := h
  refine ⟨ws, by rw [hloop, hws, hr.words], ?_⟩
  rw [hr.inSubshell, hin] at hcut
  rw [hin, lexemes_inner hc]
  show Cut (Lexeme.addInner b (Lexeme.addInner [c] (lexemes true t))) ws
  rw [Lexeme.addInner_addInner]
  exact hcut

/-- **The run**: the tokens written from a state on are those of the lexemes. The induction is
on the length of the text, of which an operator takes one character or two. -/
theorem loop_tokenized (lineNum : Int) (s : Tokenizer) (n : Nat) (t : Text) (hn : t.length ≤ n)
    (hcom : s.inComment = false) (hhash : '#' ∉ t) (hline : '\n' ∉ t) (hb : s.Holds b) :
    Tokenized lineNum s b t := by
  induction n generalizing s t b with
  | zero =>
    rw [List.length_eq_zero_iff.1 (Nat.le_zero.1 hn)]
    exact .of_nil hb
  | succ n ih =>
    rcases t with _ | ⟨c, t⟩
    · exact .of_nil hb
    rw [List.mem_cons, not_or] at hhash hline
    rw [List.length_cons, Nat.add_le_add_iff_right] at hn
    have hloop := loop_char lineNum s c t
    have hnext {s' : Tokenizer} {b' : Text} (hcom : s'.inComment = false) (hb : s'.Holds b') :
        Tokenized lineNum s' b' t := ih s' t hn hcom hhash.2 hline.2 hb
    cases hin : s.inSubshell with
    | true =>
      have hb' := hb.inside hin
      by_cases hc : c = ')'
      · subst hc
        obtain ⟨hr, hflag⟩ := iter_close lineNum (t.headD ' ') hcom
        rw [hflag] at hloop
        exact (hnext hr.inComment (holds_nil hr.buffer)).of_close hin hb hr hloop
      · obtain ⟨hr, hflag⟩ := iter_inside lineNum (t.headD ' ') hcom hin hc
        rw [hflag] at hloop
        refine (hnext hr.inComment ?_).of_inner hin hr hc hloop
        unfold Holds
        rw [hr.inSubshell, hin, if_pos rfl, hr.buffer, hb']
    | false =>
      have hb' := hb.outside hin
      by_cases hdouble : (c = '|' ∨ c = '&') ∧ t.headD ' ' = c
      · obtain ⟨hc, hd⟩ := hdouble
        obtain ⟨hr, hflag⟩ := iter_op2 lineNum hcom hin hc
        rw [hd, hflag] at hloop
        rcases t with _ | ⟨d, t⟩
        · rw [← hd] at hc
          exact absurd hc (by decide)
        · obtain rfl : d = c := hd
          have hp : lexemes false (d :: d :: t) = .op [d, d] :: lexemes false t := by
            rcases hc with rfl | rfl <;> rfl
          rw [List.length_cons] at hn
          exact (ih _ t (by omega) hr.inComment (fun h => hhash.2 (List.mem_cons_of_mem _ h))
            (fun h => hline.2 (List.mem_cons_of_mem _ h)) (holds_nil hr.buffer)).of_op hin hb hr hp
            hloop
      by_cases hop : c ∈ operators
      · simp only [operators, List.mem_cons, List.not_mem_nil, or_false] at hop
        have hbar (h : c = '|') : t.headD ' ' ≠ '|' := fun hd => hdouble ⟨.inl h, hd.trans h.symm⟩
        have hp := lexemes_op (c := c) (t := t) (by grind)
        by_cases hc : c = ')'
        · subst hc
          obtain ⟨hr, hflag⟩ := iter_close lineNum (t.headD ' ') hcom
          rw [hflag] at hloop
          exact (hnext hr.inComment (holds_nil hr.buffer)).of_op hin hb hr hp hloop
        · obtain ⟨hr, hflag⟩ := iter_op (c := c) lineNum (t.headD ' ') hcom hin (by grind)
          rw [hflag] at hloop
          exact (hnext hr.inComment (holds_nil hr.buffer)).of_op hin hb hr hp hloop
      · have hand (h : c = '&') : t.headD ' ' ≠ '&' := fun hd => hdouble ⟨.inr h, hd.trans h.symm⟩
        obtain ⟨⟨w, hw, hr⟩, hflag⟩ := iter_text lineNum hcom hin (Ne.symm hhash.1)
          (Ne.symm hline.1) hop hand
        rw [hflag] at hloop
        refine (hnext hr.inComment ?_).of_text hin hr (lexemes_text hop hand) hloop
        unfold Holds
        rw [hr.inSubshell, hin, hr.buffer]
        exact hb'.append hw

end Tokenizer

/-- **Tokenizing loses nothing**: the words of the tokens are the text with only blanks removed,
and they are the words of its lexemes. -/
theorem tokenize_lexemes (text : Text) (lineNum : Int) (hhash : '#' ∉ text) (hline : '\n' ∉ text) :
    Blanked text ((tokenize text lineNum).map Token.word).flatten ∧
      Cut (lexemes false text) ((tokenize text lineNum).map Token.word) := by
  obtain ⟨ws, hws, hcut⟩ := Tokenizer.loop_tokenized lineNum {} text.length text (Nat.le_refl _)
    rfl hhash hline (Tokenizer.holds_nil rfl)
  have hwords : (tokenize text lineNum).map Token.word = ws := hws
  have hcut : Cut (lexemes false text) ws := by
    rwa [Tokenizer.resume_nil] at hcut
  rw [hwords]
  refine ⟨?_, hcut⟩
  have hblanked := hcut.blanked
  rwa [lexemes_chars] at hblanked

/-- Blanks in front of a word and between parentheses. -/
theorem pipeText_lexemes : Cut (lexemes false " ls -l|| (a  b);".toList)
    [['l', 's', ' ', '-', 'l'], ['|', '|'], ['('], ['a', ' ', ' ', 'b'], [')'], [';']] :=
  (tokenize_lexemes " ls -l|| (a  b);".toList 1 (by decide) (by decide)).2

end OsLabs.Shell
