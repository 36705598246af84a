import OsLabs.Shell.Validate
import OsLabs.Shell.Grammar
import Mathlib.Data.List.Forall2

/-!
# Shell scripts: arrays that differ in lines and trailing blanks

`validate` and `make_command` treat two token arrays alike whose words differ in blanks at the
end and whose line numbers differ. The text of a subshell has to be the same: `validate`
tokenizes it as it stands.
-/

namespace OsLabs.Shell

/-- A character that no operator has. -/
def isPlain (c : Char) : Bool := !(['&', '|', ';', '<', '>', '(', ')'].contains c)

/-- The second word, which is no operator, with blanks behind it. -/
def Longer (word word' : Text) : Prop :=
  (∃ c ∈ word', isPlain c = true) ∧ ∃ b : Text, (∀ c ∈ b, isBlank c) ∧ word = word' ++ b

/-- Arrays with the same words up to trailing blanks; the flag says that they stand behind an
opening parenthesis. -/
inductive Alike : Bool → List Token → List Token → Prop where
  | nil {b : Bool} : Alike b [] []
  | cons {b : Bool} {t t' : Token} {ts ts' : List Token} : 0 ≤ t.lineNum → 0 ≤ t'.lineNum →
      t.word = t'.word ∨ b = false ∧ Longer t.word t'.word →
      Alike (t'.word == ['(']) ts ts' → Alike b (t :: ts) (t' :: ts')

/-! ## Words -/

section Words

variable {word word' : Text}

theorem isPlain_of_mem {oper : Text} {c : Char} (h : isPlain c = true) (hc : c ∈ oper) :
    oper ≠ ['&', '&'] ∧ oper ≠ ['|', '|'] ∧ oper ≠ ['|'] ∧ oper ≠ [';'] ∧ oper ≠ ['<'] ∧
      oper ≠ ['>'] ∧ oper ≠ ['('] ∧ oper ≠ [')'] := by
  refine ⟨?_, ?_, ?_, ?_, ?_, ?_, ?_, ?_⟩
  all_goals
    rintro rfl
    simp only [List.mem_cons, List.not_mem_nil, or_false, or_self] at hc
    rw [hc] at h
    cases h

theorem Longer.plain (h : Longer word word') :
    (∃ c ∈ word, isPlain c = true) ∧ ∃ c ∈ word', isPlain c = true := by
  obtain ⟨⟨c, hc, hp⟩, b, -, rfl⟩ := h
  exact ⟨⟨c, List.mem_append_left _ hc, hp⟩, c, hc, hp⟩

theorem Longer.eatTailWhiteSpace (h : Longer word word') :
    OsLabs.Shell.eatTailWhiteSpace word = OsLabs.Shell.eatTailWhiteSpace word' := by
  obtain ⟨-, b, hb, rfl⟩ := h
  exact eatTailWhiteSpace_append hb _

theorem Longer.head (h : Longer word word') : word.head? = word'.head? := by
  obtain ⟨⟨c, hc, -⟩, b, -, rfl⟩ := h
  rcases word' with _ | ⟨d, v⟩
  · cases hc
  · rfl

theorem Longer.any_isAngle (h : Longer word word') : word.any isAngle = word'.any isAngle := by
  obtain ⟨-, b, hb, rfl⟩ := h
  have hnone : b.any isAngle = false := by
    rw [List.any_eq_false]
    intro c hc
    rcases Tokenizer.isBlank_iff.1 (hb c hc) with rfl | rfl <;> decide
  rw [List.any_append, hnone, Bool.or_false]

theorem isWordChar_of_blank {c : Char} (h : isBlank c = true) : isWordChar c = true := by
  rcases Tokenizer.isBlank_iff.1 h with rfl | rfl <;> decide

theorem Longer.isValidWord (h : Longer word word') :
    OsLabs.Shell.isValidWord word = OsLabs.Shell.isValidWord word' := by
  obtain ⟨-, b, hb, rfl⟩ := h
  have hblank : ∀ b : Text, (∀ c ∈ b, isBlank c) → OsLabs.Shell.isValidWord b = true := by
    intro b hb
    fun_induction OsLabs.Shell.isValidWord b with
    | case1 => rfl
    | case2 c => exact isWordChar_of_blank (hb c (List.mem_singleton_self c))
    | case3 c d b ih =>
      rw [isWordChar_of_blank (hb c List.mem_cons_self), Bool.true_and]
      exact ih fun e he => hb e (List.mem_cons_of_mem _ (List.mem_cons_of_mem _ he))
  fun_induction OsLabs.Shell.isValidWord word' with
  | case1 => exact hblank b hb
  | case2 c =>
    rcases b with _ | ⟨d, b⟩
    · rfl
    · rw [List.singleton_append, OsLabs.Shell.isValidWord,
        hblank b fun e he => hb e (List.mem_cons_of_mem _ he), Bool.and_true]
  | case3 c d word ih => rw [List.cons_append, List.cons_append, OsLabs.Shell.isValidWord, ih]

end Words

/-! ## `make_command` -/

section MakeCommand

/-- The words of two tokens in like places. -/
def AlikeWord (b : Bool) (t t' : Token) : Prop :=
  t.word = t'.word ∨ b = false ∧ Longer t.word t'.word

theorem AlikeWord.eatTailWhiteSpace {b : Bool} {t t' : Token} (h : AlikeWord b t t') :
    OsLabs.Shell.eatTailWhiteSpace t.word = OsLabs.Shell.eatTailWhiteSpace t'.word := by
  rcases h with h | ⟨-, h⟩
  · rw [h]
  · exact h.eatTailWhiteSpace

theorem AlikeWord.parenthesis {b : Bool} {t t' : Token} (h : AlikeWord b t t') :
    t.word = ['('] ↔ t'.word = ['('] := by
  rcases h with h | ⟨-, h⟩
  · rw [h]
  · obtain ⟨⟨c, hc, hp⟩, d, hd, hp'⟩ := h.plain
    exact iff_of_false (isPlain_of_mem hp hc).2.2.2.2.2.2.1
      (isPlain_of_mem hp' hd).2.2.2.2.2.2.1

variable {line line' : Int}

/-- The results of two runs up to line numbers. -/
def SameTrees (cmds cmds' : List Command) : Prop :=
  cmds.map Command.tree = cmds'.map Command.tree

theorem SameTrees.cons_iff {c : Command} {cmds cmds' : List Command}
    (h : SameTrees (c :: cmds) cmds') :
    ∃ c' rest, cmds' = c' :: rest ∧ c.tree = c'.tree ∧ SameTrees cmds rest := by
  unfold SameTrees at h
  rcases cmds' with _ | ⟨c', rest⟩
  · cases h
  · rw [List.map_cons, List.map_cons, List.cons.injEq] at h
    exact ⟨c', rest, rfl, h.1, h.2⟩

theorem SameTrees.nil_iff {cmds' : List Command} (h : SameTrees [] cmds') : cmds' = [] := by
  unfold SameTrees at h
  exact List.map_eq_nil_iff.1 h.symm

theorem SameTrees.cons {c c' : Command} {cmds cmds' : List Command} (hc : c.tree = c'.tree)
    (h : SameTrees cmds cmds') : SameTrees (c :: cmds) (c' :: cmds') := by
  unfold SameTrees at h ⊢
  rw [List.map_cons, List.map_cons, hc, h]

/-- Results that fail together, or hold related values. -/
def Both {α β : Type} (R : α → β → Prop) : Option α → Option β → Prop
  | none, none => True
  | some x, some y => R x y
  | _, _ => False

theorem combine_sameTrees (oper : Text) {cmds cmds' : List Command} (h : SameTrees cmds cmds') :
    Both SameTrees (combine line oper cmds) (combine line' oper cmds') := by
  rcases cmds with _ | ⟨c, cmds⟩
  · obtain rfl := h.nil_iff
    trivial
  · obtain ⟨c', rest, rfl, hc, h⟩ := h.cons_iff
    rcases cmds with _ | ⟨d, cmds⟩
    · obtain rfl := h.nil_iff
      trivial
    · obtain ⟨d', rest, rfl, hd, h⟩ := h.cons_iff
      apply SameTrees.cons _ h
      unfold makeCompoundCommand
      simp only [Command.tree, hc, hd]

theorem popOperators_sameTrees (token : Text) : ∀ (opers : List Text) {cmds cmds' : List Command},
    SameTrees cmds cmds' →
    Both (fun r r' => r.1 = r'.1 ∧ SameTrees r.2 r'.2) (popOperators line token opers cmds)
      (popOperators line' token opers cmds') := by
  intro opers
  induction opers with
  | nil =>
    intro cmds cmds' h
    exact ⟨rfl, h⟩
  | cons oper opers ih =>
    intro cmds cmds' h
    unfold popOperators
    split
    · have hc : Both SameTrees (combine line oper cmds) (combine line' oper cmds') :=
      combine_sameTrees oper h
      cases hl : combine line oper cmds <;> cases hr : combine line' oper cmds' <;>
        rw [hl, hr] at hc
      · trivial
      · cases hc
      · cases hc
      · exact ih hc
    · exact ⟨rfl, h⟩

theorem popAll_sameTrees : ∀ (opers : List Text) {cmds cmds' : List Command},
    SameTrees cmds cmds' → Both SameTrees (popAll line opers cmds) (popAll line' opers cmds') := by
  intro opers
  induction opers with
  | nil =>
    intro cmds cmds' h
    exact h
  | cons oper opers ih =>
    intro cmds cmds' h
    unfold popAll
    have hc : Both SameTrees (combine line oper cmds) (combine line' oper cmds') :=
      combine_sameTrees oper h
    cases hl : combine line oper cmds <;> cases hr : combine line' oper cmds' <;> rw [hl, hr] at hc
    · trivial
    · cases hc
    · cases hc
    · exact ih hc

/-- One tree, or none. -/
def SameTree (c c' : Option Command) : Prop := c.map Command.tree = c'.map Command.tree

theorem SameTrees.head {cmds cmds' : List Command} (h : SameTrees cmds cmds') :
    SameTree cmds.head? cmds'.head? := by
  rcases cmds with _ | ⟨c, cmds⟩
  · rw [h.nil_iff]
    rfl
  · obtain ⟨c', rest, rfl, hc, -⟩ := h.cons_iff
    exact congrArg some hc

theorem finish_sameTrees (opers : List Text) {cmds cmds' : List Command}
    (h : SameTrees cmds cmds') : SameTree (finish line opers cmds) (finish line' opers cmds') := by
  rcases opers with _ | ⟨oper, opers⟩
  · have hh := h.head
    unfold finish SameTree at *
    simp only [Option.map_map]
    have htree (l : Int) : Command.tree ∘ (fun c => c.setLine l) = Command.tree :=
      funext fun c => tree_setLine c l
    rw [htree, htree, hh]
  · have hp : Both SameTrees (popAll line (oper :: opers) cmds) (popAll line' (oper :: opers) cmds') :=
      popAll_sameTrees (oper :: opers) h
    unfold finish
    dsimp only
    cases hl : popAll line (oper :: opers) cmds <;>
      cases hr : popAll line' (oper :: opers) cmds' <;> rw [hl, hr] at hp
    · rfl
    · cases hp
    · cases hp
    · exact hp.head

/-- The loop builds the same tree from like arrays. -/
theorem makeCommandLoop_alike {sub : List Token → Option Command}
    (hsub : ∀ (w : Text) (l l' : Int), 0 ≤ l → 0 ≤ l' →
      SameTree (sub (tokenize w l)) (sub (tokenize w l'))) (ts : List Token) :
    ∀ {b : Bool} {ts' : List Token}, Alike b ts ts' →
      ∀ {prev prev' : Option Text} (opers : List Text) {cmds cmds' : List Command},
      (prev = some ['('] ↔ prev' = some ['(']) → SameTrees cmds cmds' →
      SameTree (makeCommandLoop sub line prev ts opers cmds)
        (makeCommandLoop sub line' prev' ts' opers cmds') := by
  induction ts using loop_induction with
  | nil =>
    rintro b ts' ⟨⟩ prev prev' opers cmds cmds' - hc
    exact finish_sameTrees opers hc
  | cons t rest ih ih' =>
    rintro b ts' ha prev prev' opers cmds cmds' hp hc
    cases ha with
    | @cons _ t t' rest rest' hl hl' hw ha =>
    have he := AlikeWord.eatTailWhiteSpace hw
    have hprev : some t.word = some ['('] ↔ some t'.word = some ['('] := by
      rw [Option.some_inj, Option.some_inj]
      exact AlikeWord.parenthesis hw
    unfold makeCommandLoop
    rw [if_neg (show t.lineNum ≠ -1 by omega), if_neg (show t'.lineNum ≠ -1 by omega), ← he]
    dsimp only
    generalize eatTailWhiteSpace t.word = token
    by_cases h12 : token = ['<'] ∨ token = ['>']
    · -- a redirection takes the next word
      cases ha with
      | nil => rcases h12 with rfl | rfl <;> rfl
      | @cons _ w w' rest rest' _ _ hw ha =>
        rcases cmds with _ | ⟨c, cmds⟩
        · obtain rfl := hc.nil_iff
          rcases h12 with rfl | rfl <;> rfl
        obtain ⟨c', cmds', rfl, hcc, hc⟩ := hc.cons_iff
        have hnext (f : Redirect → Redirect) :
            SameTree (makeCommandLoop sub line (some w.word) rest opers (c.mapIo f :: cmds))
              (makeCommandLoop sub line' (some w'.word) rest' opers (c'.mapIo f :: cmds')) := by
          apply ih' w rest rfl ha
          · rw [Option.some_inj, Option.some_inj]
            exact AlikeWord.parenthesis hw
          · apply SameTrees.cons _ hc
            rw [tree_mapIo, tree_mapIo, hcc]
        have hword := AlikeWord.eatTailWhiteSpace hw
        rcases h12 with rfl | rfl
        · rw [if_pos rfl, if_pos rfl]
          dsimp only
          rw [← hword]
          exact hnext _
        · rw [if_neg (by decide), if_pos rfl, if_neg (by decide), if_pos rfl]
          dsimp only
          rw [← hword]
          exact hnext _
    obtain ⟨h1, h2⟩ := not_or.1 h12
    rw [if_neg h1, if_neg h2, if_neg h1, if_neg h2]
    by_cases h3 : token = [')']
    · rw [if_pos h3, if_pos h3]
      rcases opers with _ | ⟨oper, opers⟩
      · rfl
      rcases cmds with _ | ⟨c, cmds⟩
      · rw [hc.nil_iff]
        rfl
      obtain ⟨c', cmds', rfl, hcc, hc⟩ := hc.cons_iff
      dsimp only
      by_cases ho : oper = ['(']
      · rw [if_pos ho, if_pos ho]
        apply ih ha opers hprev
        apply SameTrees.cons _ hc
        unfold makeSubshellCommand
        rw [Command.tree, Command.tree, hcc]
      · rw [if_neg ho, if_neg ho]
        rfl
    rw [if_neg h3, if_neg h3]
    by_cases h4 : isOperator token = true
    · rw [if_pos h4, if_pos h4]
      have hpop : Both (fun r r' => r.1 = r'.1 ∧ SameTrees r.2 r'.2)
          (popOperators line token opers cmds) (popOperators line' token opers cmds') :=
        popOperators_sameTrees token opers hc
      cases hl : popOperators line token opers cmds <;>
        cases hr : popOperators line' token opers cmds' <;> rw [hl, hr] at hpop
      · rfl
      · cases hpop
      · cases hpop
      · rename_i r r'
        obtain ⟨hr1, hr2⟩ := hpop
        have hnext := ih ha (token :: r.1) hprev hr2
        rw [hr1] at hnext
        simp only [Option.bind_eq_bind, Option.bind_some, hr1]
        exact hnext
    rw [if_neg h4, if_neg h4]
    by_cases h5 : prev = some ['(']
    · rw [if_pos h5, if_pos (hp.1 h5)]
      have hs := hsub token t.lineNum t'.lineNum hl hl'
      cases hl : sub (tokenize token t.lineNum) <;> cases hr : sub (tokenize token t'.lineNum) <;>
        rw [hl, hr] at hs
      · rfl
      · cases hs
      · cases hs
      · rename_i c c'
        apply ih ha opers hprev
        apply SameTrees.cons _ hc
        rw [tree_setLine, tree_setLine]
        exact Option.some_inj.1 hs
    · rw [if_neg h5, if_neg fun h => h5 (hp.2 h)]
      apply ih ha opers hprev
      exact SameTrees.cons rfl hc

end MakeCommand

/-! ## Tokens of one text on two lines -/

/-- The arrays of two runs of the tokenizer, whose other variables agree. -/
structure AlikeState (s s' : Tokenizer) : Prop where
  tokens : Alike false s.tokenArray s'.tokenArray
  same : s' = { s with tokenArray := s'.tokenArray }
  lineOffset : 0 ≤ s.lineOffset
  lineOffsetInSubshell : 0 ≤ s.lineOffsetInSubshell

theorem Alike.snoc {b : Bool} {ts ts' : List Token} {t t' : Token} (h : Alike b ts ts')
    (ht : 0 ≤ t.lineNum) (ht' : 0 ≤ t'.lineNum) (hw : t.word = t'.word) :
    Alike b (ts ++ [t]) (ts' ++ [t']) := by
  induction h with
  | nil => exact .cons ht ht' (.inl hw) .nil
  | cons hl hl' hword _ ih => exact .cons hl hl' hword ih

/-- A word with blanks behind it at the end, not behind a parenthesis. -/
theorem Alike.snoc_longer {b : Bool} {ts ts' : List Token} {t t' : Token} (h : Alike b ts ts')
    (hb : ts' = [] → b = false) (hlast : ∀ u ∈ ts'.getLast?, u.word ≠ ['('])
    (ht : 0 ≤ t.lineNum) (ht' : 0 ≤ t'.lineNum) (hw : Longer t.word t'.word) :
    Alike b (ts ++ [t]) (ts' ++ [t']) := by
  induction h with
  | nil => exact .cons ht ht' (.inr ⟨hb rfl, hw⟩) .nil
  | @cons b u u' ts ts' hl hl' hword h ih =>
    refine .cons hl hl' hword (ih ?_ ?_)
    · rintro rfl
      rw [beq_eq_false_iff_ne]
      exact hlast u' rfl
    · intro v hv
      apply hlast v
      rw [List.getLast?_cons, hv]
      rfl

section Lines

variable {lineNum lineNum' : Int}

theorem AlikeState.makeToken {s s' : Tokenizer} (h : AlikeState s s') (hl : 0 ≤ lineNum)
    (hl' : 0 ≤ lineNum') (word : Text) :
    AlikeState (s.makeToken lineNum word) (s'.makeToken lineNum' word) := by
  obtain ⟨ht, hs, h1, h2⟩ := h
  rw [hs]
  refine ⟨ht.snoc ?_ ?_ rfl, rfl, h1, h2⟩
  · dsimp only
    omega
  · dsimp only
    omega

theorem AlikeState.flush {s s' : Tokenizer} (h : AlikeState s s') (hl : 0 ≤ lineNum)
    (hl' : 0 ≤ lineNum') : AlikeState (s.flush lineNum) (s'.flush lineNum') := by
  have hb : s'.buffer = s.buffer := by rw [h.same]
  unfold Tokenizer.flush
  rw [hb]
  split
  · obtain ⟨ht, hs, h1, h2⟩ := h.makeToken hl hl' s.buffer
    refine ⟨ht, ?_, h1, h2⟩
    rw [hs]
  · exact h

theorem AlikeState.iter {s s' : Tokenizer} (h : AlikeState s s') (hl : 0 ≤ lineNum)
    (hl' : 0 ≤ lineNum') (c1 c2 : Char) :
    AlikeState (s.iter lineNum c1 c2).1 (s'.iter lineNum' c1 c2).1 ∧
      (s.iter lineNum c1 c2).2 = (s'.iter lineNum' c1 c2).2 := by
  have hf := h.flush hl hl'
  obtain ⟨ht, hs, h1, h2⟩ := h
  generalize s'.tokenArray = a at ht hs
  subst hs
  obtain ⟨a', ha'⟩ : ∃ a', Tokenizer.flush lineNum' { s with tokenArray := a } =
      { s.flush lineNum with tokenArray := a' } := ⟨_, hf.same⟩
  rw [ha'] at hf
  have h1' : (s.flush lineNum).lineOffset = s.lineOffset := by
    unfold Tokenizer.flush
    split <;> rfl
  have h2' : (s.flush lineNum).lineOffsetInSubshell = s.lineOffsetInSubshell := by
    unfold Tokenizer.flush
    split <;> rfl
  unfold Tokenizer.iter
  dsimp only
  rw [ha']
  repeat' split
  all_goals
    refine ⟨⟨?_, rfl, ?_, ?_⟩, rfl⟩
    · first
        | exact ht
        | exact hf.tokens
        | exact hf.tokens.snoc (by dsimp only; omega) (by dsimp only; omega) rfl
        | exact ht.snoc (by dsimp only; omega) (by dsimp only; omega) rfl
    all_goals
      simp only [Tokenizer.makeToken, Tokenizer.strcat]
      try omega

theorem loop_cons (s : Tokenizer) (c1 c2 : Char) (text : Text) :
    s.loop lineNum (c1 :: c2 :: text) =
      if (s.iter lineNum c1 c2).2 then (s.iter lineNum c1 c2).1.loop lineNum text
      else (s.iter lineNum c1 c2).1.loop lineNum (c2 :: text) :=
  rfl

theorem AlikeState.loop {s s' : Tokenizer} (h : AlikeState s s') (hl : 0 ≤ lineNum)
    (hl' : 0 ≤ lineNum') (text : Text) :
    AlikeState (s.loop lineNum text) (s'.loop lineNum' text) := by
  fun_induction Tokenizer.loop lineNum s text generalizing s' with
  | case1 s => exact h
  | case2 s c1 => exact (h.iter hl hl' c1 ' ').1
  | case3 s c1 c2 text r hr =>
    rename_i ih
    obtain ⟨hi, hflag⟩ := h.iter hl hl' c1 c2
    rw [loop_cons, if_pos (hflag ▸ hr)]
    exact ih hi
  | case4 s c1 c2 text r hr =>
    rename_i ih
    obtain ⟨hi, hflag⟩ := h.iter hl hl' c1 c2
    rw [loop_cons, if_neg (hflag ▸ hr)]
    exact ih hi

/-- Line numbers make no difference to the words. -/
theorem tokenize_alike (text : Text) (hl : 0 ≤ lineNum) (hl' : 0 ≤ lineNum') :
    Alike false (tokenize text lineNum) (tokenize text lineNum') := by
  have hstart : AlikeState {} {} := ⟨.nil, rfl, Int.le_refl 0, Int.le_refl 0⟩
  exact ((hstart.loop hl hl' text).flush hl hl').tokens

/-- `make_command` builds the same tree from like arrays. -/
theorem makeCommandAux_alike (n : Nat) : ∀ {ts ts' : List Token}, Alike false ts ts' →
    SameTree (makeCommandAux n ts) (makeCommandAux n ts') := by
  induction n with
  | zero =>
    intro ts ts' _
    rfl
  | succ n ih =>
    intro ts ts' h
    refine makeCommandLoop_alike (fun w l l' hl hl' => ?_) ts h [] Iff.rfl rfl
    exact ih (tokenize_alike w hl hl')

theorem makeCommand_alike {ts ts' : List Token} (h : Alike false ts ts') :
    SameTree (makeCommand ts) (makeCommand ts') := by
  have hl : arraySize ts < arraySize ts + arraySize ts' + 1 := by omega
  have hr : arraySize ts' < arraySize ts + arraySize ts' + 1 := by omega
  rw [← makeCommandAux_eq hl, ← makeCommandAux_eq hr]
  exact makeCommandAux_alike _ h

end Lines

/-! ## `validate` -/

/-- Pieces of like arrays. -/
structure AlikePiece (x y : Piece) : Prop where
  kind : x.1 = y.1
  line : 0 ≤ x.2.lineNum
  line' : 0 ≤ y.2.lineNum
  word : x.2.word = y.2.word ∨ x.1 ≠ .sub ∧ Longer x.2.word y.2.word

theorem Longer.kindOf {word word' : Text} (h : Longer word word') :
    OsLabs.Shell.kindOf word = .word ∧ OsLabs.Shell.kindOf word' = .word := by
  have hplain {w : Text} (hw : ∃ c ∈ w, isPlain c = true) : OsLabs.Shell.kindOf w = .word := by
    obtain ⟨c, hc, hp⟩ := hw
    obtain ⟨h1, h2, h3, h4, h5, h6, h7, h8⟩ := isPlain_of_mem hp hc
    unfold OsLabs.Shell.kindOf isBinary
    simp [h1, h2, h3, h4, h5, h6, h8]
  exact ⟨hplain h.plain.1, hplain h.plain.2⟩

theorem AlikeWord.kindOf {b : Bool} {t t' : Token} (h : AlikeWord b t t') :
    OsLabs.Shell.kindOf t.word = OsLabs.Shell.kindOf t'.word := by
  rcases h with h | ⟨-, h⟩
  · rw [h]
  · rw [h.kindOf.1, h.kindOf.2]

theorem Alike.pieces {ts : List Token} : ∀ {b : Bool} {ts' : List Token}, Alike b ts ts' →
    List.Forall₂ AlikePiece (pieces ts) (pieces ts') := by
  induction ts using loop_induction with
  | nil =>
    rintro b ts' ⟨⟩
    exact .nil
  | cons t rest ih ih' =>
    rintro b ts' h
    cases h with
    | @cons _ t t' rest rest' hl hl' hw ha =>
    have hopen := AlikeWord.parenthesis hw
    by_cases ho : t.word = ['(']
    · have ho' := hopen.1 ho
      cases ha with
      | nil =>
        rw [OsLabs.Shell.pieces, if_pos ho, OsLabs.Shell.pieces, if_pos ho']
        exact .cons ⟨rfl, hl, hl', .inl (by rw [ho, ho'])⟩ .nil
      | @cons _ w w' rest rest' hlw hlw' hww ha =>
        have hww' : w.word = w'.word := by
          refine hww.resolve_right fun h => ?_
          rw [ho'] at h
          cases h.1
        by_cases hc : w.word.head? = some ')'
        · rw [pieces_opened ho hc, pieces_opened ho' (hww' ▸ hc)]
          exact .cons ⟨rfl, hl, hl', .inl (by rw [ho, ho'])⟩ (ih (.cons hlw hlw' hww ha))
        · rw [pieces_sub ho hc, pieces_sub ho' (hww' ▸ hc)]
          exact .cons ⟨rfl, hlw, hlw', .inl hww'⟩ (ih' w rest rfl ha)
    · rw [pieces_word ho, pieces_word fun h => ho (hopen.2 h)]
      refine .cons ⟨AlikeWord.kindOf hw, hl, hl', ?_⟩ (ih ha)
      exact hw.imp_right fun h => ⟨(kindOf_ne t.word).1, h.2⟩

theorem AlikePiece.isValidWord {x y : Piece} (h : AlikePiece x y) :
    OsLabs.Shell.isValidWord x.2.word = OsLabs.Shell.isValidWord y.2.word := by
  rcases h.word with h | ⟨-, h⟩
  · rw [h]
  · exact h.isValidWord

theorem AlikePiece.any_isAngle {x y : Piece} (h : AlikePiece x y) :
    x.2.word.any isAngle = y.2.word.any isAngle := by
  rcases h.word with h | ⟨-, h⟩
  · rw [h]
  · exact h.any_isAngle

/-- The tests see the kinds of two neighbours, and the characters of a word. -/
theorem tests_alike {a a' b b' : Option Piece} (ha : Option.Rel AlikePiece a a')
    (hb : Option.Rel AlikePiece b b') : ahead a b = ahead a' b' ∧ behind a b = behind a' b' := by
  have hkind {x x' : Option Piece} (h : Option.Rel AlikePiece x x') :
      x.map Prod.fst = x'.map Prod.fst := by
    cases h with
    | some h => exact congrArg some h.kind
    | none => rfl
  have hsome : a.isSome = a'.isSome := by
    cases ha <;> rfl
  have hangle : a.any (fun x => !x.2.word.any isAngle) =
      a'.any fun x => !x.2.word.any isAngle := by
    cases ha with
    | some h => exact congrArg not h.any_isAngle
    | none => rfl
  constructor
  · unfold ahead
    rw [hkind ha]
    cases hb with
    | some h => simp only [Option.any_some, Option.isSome_some, h.kind]
    | none => rfl
  · unfold behind
    rw [hkind hb, hsome, hangle]

theorem passes_alike {xs ys : List Piece} (h : List.Forall₂ AlikePiece xs ys) :
    ∀ {a a' : Option Piece} (b : Bool), Option.Rel AlikePiece a a' →
      (Passes a b xs ↔ Passes a' b ys) := by
  induction h with
  | nil =>
    intro a a' b ha
    have hnil (a : Option Piece) : Passes a b [] ↔ ahead a none = true := by
      constructor
      · intro h
        exact h.next
      · intro h
        refine ⟨nofun, fun p hp => ?_, fun p hp => ?_, rfl⟩
        · rw [List.mem_singleton.1 hp]
          exact h
        · rw [List.mem_singleton.1 hp]
          rfl
    rw [hnil, hnil, (tests_alike ha .none).1]
  | @cons x y xs ys hxy _ ih =>
    intro a a' b ha
    have htests := tests_alike ha (.some hxy)
    rw [passes_cons, passes_cons, hxy.kind, hxy.isValidWord, htests.1, htests.2,
      ih _ (.some hxy)]

theorem live_eq {ts : List Token} (h : ∀ t ∈ ts, 0 ≤ t.lineNum) : live ts = ts := by
  unfold live
  rw [List.takeWhile_eq_self_iff]
  intro t ht
  have := h t ht
  rw [bne_iff_ne]
  omega

theorem Alike.live {b : Bool} {ts ts' : List Token} (h : Alike b ts ts') :
    OsLabs.Shell.live ts = ts ∧ OsLabs.Shell.live ts' = ts' := by
  refine ⟨live_eq ?_, live_eq ?_⟩
  all_goals
    induction h with
    | nil => exact nofun
    | cons hl hl' _ _ ih =>
      intro u hu
      rcases List.mem_cons.1 hu with rfl | hu
      · assumption
      · exact ih u hu

theorem exists_of_mem {α β : Type} {R : α → β → Prop} {xs : List α} {ys : List β}
    (h : List.Forall₂ R xs ys) {x : α} (hx : x ∈ xs) : ∃ y ∈ ys, R x y := by
  induction h with
  | nil => cases hx
  | @cons u v us vs huv _ ih =>
    rcases List.mem_cons.1 hx with rfl | hx
    · exact ⟨v, List.mem_cons_self, huv⟩
    · obtain ⟨y, hy, hxy⟩ := ih hx
      exact ⟨y, List.mem_cons_of_mem _ hy, hxy⟩

/-- The tests treat like arrays alike. -/
theorem tested_alike {ts ts' : List Token} (h : Alike false ts ts') : Tested ts ↔ Tested ts' := by
  induction hn : arraySize ts' using Nat.strong_induction_on generalizing ts ts' with
  | h n ih =>
  have hp := h.pieces
  -- the texts of the subshells are the same, on other lines
  have hbody {x y : Piece} (hy : y ∈ pieces ts') (hk : y.1 = .sub) (hxy : AlikePiece x y) :
      Tested (body x.2) ↔ Tested (body y.2) := by
    have hw := hxy.word.resolve_right fun h => h.1 (hxy.kind.trans hk)
    have ha := tokenize_alike y.2.word hxy.line hxy.line'
    unfold body
    rw [hw, ha.live.1, ha.live.2]
    apply ih _ _ ha rfl
    have h1 : y.2.word.length < arraySize ts' := by
      apply length_of_sub
      rwa [← hk]
    have h2 := arraySize_tokenize y.2.word y.2.lineNum
    omega
  rw [tested_iff, tested_iff, passes_alike hp false .none]
  refine and_congr_right fun _ => ⟨fun hs t' ht' => ?_, fun hs t ht => ?_⟩
  · obtain ⟨x, hx, hxy⟩ := exists_of_mem (List.Forall₂.flip (R := flip AlikePiece) hp) ht'
    refine (hbody ht' rfl hxy).1 (hs x.2 ?_)
    rwa [← show x.1 = .sub from hxy.kind]
  · obtain ⟨y, hy, hxy⟩ := exists_of_mem hp ht
    exact (hbody hy hxy.kind.symm hxy).2 (hs y.2 (by rwa [show Kind.sub = y.1 from hxy.kind]))

/-- `validate` accepts like arrays alike. -/
theorem validate_alike {ts ts' : List Token} (h : Alike false ts ts') :
    validate ts = .ok 1 ↔ validate ts' = .ok 1 := by
  rw [validate_iff, validate_iff, h.live.1, h.live.2]
  exact tested_alike h

end OsLabs.Shell
