import Mathlib.Data.List.Basic
import Mathlib.Tactic.Common
import Mathlib.Tactic.Ring

/-!
# Shell scripts: tokens

`tokenize` splits the text of one complete command into words and operators.
A text is the list of its characters (a C string less its NUL), and the token
array is the list of tokens before the record with line number `-1` that
`tokenize` writes last. The fixed buffers (128 characters for the text being
collected, 64 for a token's word, 128 tokens) are taken as large enough.
-/

namespace OsLabs.Shell

abbrev Text := List Char

/-- `struct token`. -/
structure Token where
  word : Text
  lineNum : Int
  deriving DecidableEq, Repr

def isBlank (c : Char) : Bool := c == ' ' || c == '\t'

/-- The local variables of `tokenize`. -/
structure Tokenizer where
  tokenArray : List Token := []
  buffer : Text := []
  lineOffset : Int := 0
  inSimpleComman : Bool := false
  inSubshell : Bool := false
  lineOffsetInSubshell : Int := 0
  afterOperator : Bool := false
  inComment : Bool := false
  inFirstLine : Bool := true

namespace Tokenizer

variable (lineNum : Int) (s : Tokenizer)

/-- `make_token`, with `token_index++`. -/
def makeToken (word : Text) : Tokenizer :=
  { s with
    tokenArray := s.tokenArray ++ [⟨word, lineNum + s.lineOffset⟩]
    inSimpleComman := false }

/-- A token for the collected text, if there is any; the buffer is cleared. -/
def flush : Tokenizer :=
  if 0 < s.buffer.length then { s.makeToken lineNum s.buffer with buffer := [] } else s

def strcat (c : Char) : Tokenizer := { s with buffer := s.buffer ++ [c] }

/-- One iteration on the character `c1` followed by `c2`; the flag says that the
iteration has consumed `c2` as well. -/
def iter (c1 c2 : Char) : Tokenizer × Bool :=
  if s.inComment && c1 != '\n' then (s, false)
  else if s.inSubshell && c1 != ')' then
    ({ s.strcat c1 with
        lineOffsetInSubshell := s.lineOffsetInSubshell + if c1 = '\n' then 1 else 0 }, false)
  else match c1 with
  | '#' => ({ s with inComment := true }, false)
  | ' ' => (if s.inSimpleComman then s.strcat c1 else s, false)
  | '\t' => (if s.inSimpleComman then s.strcat c1 else s, false)
  | ';' => ((s.flush lineNum).makeToken lineNum [';'], false)
  | '\n' =>
    if s.inComment then ({ s with inComment := false }, false)
    else
      let s := s.flush lineNum
      if !s.afterOperator && !s.inFirstLine then
        ({ s.makeToken lineNum [';'] with
            inFirstLine := false, lineOffset := s.lineOffset + 1 }, false)
      else if c2 = '\n' then (s, false)
      else ({ s with afterOperator := false, lineOffset := s.lineOffset + 1 }, false)
  | '|' =>
    let s := s.flush lineNum
    if c2 = '|' then
      ({ s.makeToken lineNum ['|', '|'] with inFirstLine := false, afterOperator := true }, true)
    else
      ({ s.makeToken lineNum ['|'] with inFirstLine := false, afterOperator := true }, false)
  | '&' =>
    if c2 = '&' then
      let s := s.flush lineNum
      ({ s.makeToken lineNum ['&', '&'] with inFirstLine := false, afterOperator := true }, true)
    else ({ s.strcat c1 with inFirstLine := false, afterOperator := true }, false)
  | '(' => ({ (s.flush lineNum).makeToken lineNum ['('] with inSubshell := true }, false)
  | ')' =>
    let s :=
      if 0 < s.buffer.length then
        { s.flush lineNum with
          lineOffset := s.lineOffset + s.lineOffsetInSubshell, lineOffsetInSubshell := 0 }
      else s
    ({ s.makeToken lineNum [')'] with inSubshell := false }, false)
  | '>' =>
    ({ (s.flush lineNum).makeToken lineNum ['>'] with
        inFirstLine := false, afterOperator := false }, false)
  | '<' =>
    ({ (s.flush lineNum).makeToken lineNum ['<'] with
        inFirstLine := false, afterOperator := false }, false)
  | _ =>
    ({ s.strcat c1 with
        inSimpleComman := true, inFirstLine := false, afterOperator := false }, false)

/-- The loop of `tokenize`; behind the last character stands a blank. -/
def loop : Tokenizer → Text → Tokenizer
  | s, [] => s
  | s, [c1] => (s.iter lineNum c1 ' ').1
  | s, c1 :: c2 :: text =>
    let r := s.iter lineNum c1 c2
    if r.2 then loop r.1 text else loop r.1 (c2 :: text)

end Tokenizer

def tokenize (commandTree : Text) (lineNum : Int) : List Token :=
  ((Tokenizer.loop lineNum {} commandTree).flush lineNum).tokenArray

/-- The number of characters in the words of an array. -/
def arraySize (tokenArray : List Token) : Nat := (tokenArray.map fun t => t.word.length).sum

@[simp] theorem arraySize_nil : arraySize [] = 0 := rfl

@[simp] theorem arraySize_cons (t : Token) (ts : List Token) :
    arraySize (t :: ts) = t.word.length + arraySize ts := by
  simp [arraySize]

@[simp] theorem arraySize_append (ts us : List Token) :
    arraySize (ts ++ us) = arraySize ts + arraySize us := by
  simp [arraySize]

/-! ## Tokens are made of the characters read -/

namespace Tokenizer

theorem flush_buffer {lineNum : Int} (s : Tokenizer) : (s.flush lineNum).buffer = [] := by
  unfold flush
  split
  · rfl
  · exact List.length_eq_zero_iff.1 (by omega)

theorem flush_inSubshell {lineNum : Int} (s : Tokenizer) :
    (s.flush lineNum).inSubshell = s.inSubshell := by
  unfold flush
  split <;> rfl

theorem flush_flags (lineNum : Int) (s : Tokenizer) : (s.flush lineNum).inComment = s.inComment ∧
    (s.flush lineNum).afterOperator = s.afterOperator ∧
    (s.flush lineNum).inFirstLine = s.inFirstLine := by
  unfold flush
  split <;> exact ⟨rfl, rfl, rfl⟩

variable (lineNum : Int) (s : Tokenizer)

/-- The characters collected so far. -/
def size : Nat := arraySize s.tokenArray + s.buffer.length

theorem size_flush : (s.flush lineNum).size = s.size := by
  unfold flush
  split
  · simp [size, makeToken]
  · rfl

theorem size_iter (c1 c2 : Char) :
    (s.iter lineNum c1 c2).1.size ≤ s.size + 1 + if (s.iter lineNum c1 c2).2 then 1 else 0 := by
  have hf := size_flush lineNum s
  unfold size at hf
  unfold iter
  dsimp only
  repeat' split
  all_goals
    simp only [size, makeToken, strcat, arraySize_append, arraySize_cons, arraySize_nil,
      List.length_append, List.length_cons, List.length_nil, not_true_eq_false] at *
    try omega

/-- Only the second bar or ampersand of an operator is consumed ahead. -/
theorem iter_flag {c1 c2 : Char} (h2 : c2 ≠ '|') (h3 : c2 ≠ '&') :
    (s.iter lineNum c1 c2).2 = false := by
  unfold iter
  dsimp only
  repeat' split
  all_goals rfl

theorem iter_congr {c1 c2 c3 : Char} (h1 : c2 = '\n' ↔ c3 = '\n') (h2 : c2 = '|' ↔ c3 = '|')
    (h3 : c2 = '&' ↔ c3 = '&') : s.iter lineNum c1 c2 = s.iter lineNum c1 c3 := by
  unfold iter
  simp only [h1, h2, h3]

theorem size_loop (text : Text) : (loop lineNum s text).size ≤ s.size + text.length := by
  fun_induction loop lineNum s text with
  | case1 s => simp
  | case2 s c1 =>
    have h := size_iter lineNum s c1 ' '
    rw [iter_flag lineNum s (by decide) (by decide)] at h
    simpa using h
  | case3 s c1 c2 text r hr ih =>
    have h := size_iter lineNum s c1 c2
    simp only [r] at *
    simp [hr] at h
    simp only [List.length_cons]
    omega
  | case4 s c1 c2 text r hr ih =>
    have h := size_iter lineNum s c1 c2
    simp only [r] at *
    simp [hr] at h
    simp only [List.length_cons] at *
    omega
/-! ## Blanks at the end -/

theorem isBlank_iff {c : Char} : isBlank c = true ↔ c = ' ' ∨ c = '\t' := by
  simp [isBlank]

/-- A blank adds itself to the buffer or does nothing. -/
theorem iter_blank {c1 : Char} (h : isBlank c1) (c2 : Char) :
    s.iter lineNum c1 c2 = (s, false) ∨ s.iter lineNum c1 c2 = (s.strcat c1, false) := by
  unfold iter
  rcases isBlank_iff.1 h with rfl | rfl
  all_goals
    rcases s with ⟨_, _, _, _ | _, _ | _, _, _, _ | _, _⟩ <;> simp [strcat]

theorem loop_append_blank (u : Text) {c : Char} (hc : isBlank c) (v : Text) :
    loop lineNum s (u ++ c :: v) = loop lineNum (loop lineNum s u) (c :: v) := by
  have hne : c ≠ '|' ∧ c ≠ '&' ∧ c ≠ '\n' := by
    rcases isBlank_iff.1 hc with rfl | rfl <;> decide
  fun_induction loop lineNum s u with
  | case1 s => rfl
  | case2 s c1 =>
    have hi : s.iter lineNum c1 c = s.iter lineNum c1 ' ' :=
      iter_congr lineNum s (by simp [hne]) (by simp [hne]) (by simp [hne])
    simp only [List.cons_append, List.nil_append, loop, hi,
      iter_flag lineNum s (show ' ' ≠ '|' by decide) (show ' ' ≠ '&' by decide)]
    rfl
  | case3 s c1 c2 text r hr ih =>
    simp only [List.cons_append, loop]
    rw [if_pos hr]
    exact ih
  | case4 s c1 c2 text r hr ih =>
    simp only [List.cons_append, loop]
    rw [if_neg hr]
    exact ih

theorem loop_blanks (v : Text) (hv : ∀ c ∈ v, isBlank c) :
    ∃ b : Text, (∀ c ∈ b, isBlank c) ∧ loop lineNum s v = { s with buffer := s.buffer ++ b } := by
  fun_induction loop lineNum s v with
  | case1 s => exact ⟨[], by simp, by simp⟩
  | case2 s c1 =>
    rcases iter_blank lineNum s (hv c1 (by simp)) ' ' with h | h
    · exact ⟨[], by simp, by simp [h]⟩
    · exact ⟨[c1], hv, by rw [h]; rfl⟩
  | case3 s c1 c2 text r hr ih =>
    rcases iter_blank lineNum s (hv c1 (by simp)) c2 with h | h
    · simp [r, h] at hr
    · simp [r, h] at hr
  | case4 s c1 c2 text r hr ih =>
    obtain ⟨b, hb, hloop⟩ := ih fun c hc => hv c (List.mem_cons_of_mem _ hc)
    rw [hloop]
    rcases iter_blank lineNum s (hv c1 (by simp)) c2 with h | h
    · exact ⟨b, hb, by simp [r, h]⟩
    · refine ⟨c1 :: b, ?_, by simp [r, h, strcat]⟩
      intro c hc
      rcases List.mem_cons.1 hc with rfl | hc
      · exact hv c (by simp)
      · exact hb c hc

end Tokenizer

theorem arraySize_tokenize (text : Text) (lineNum : Int) :
    arraySize (tokenize text lineNum) ≤ text.length := by
  have hf := Tokenizer.size_flush lineNum (Tokenizer.loop lineNum {} text)
  have hl := Tokenizer.size_loop lineNum {} text
  unfold Tokenizer.size at hf hl
  simp only [arraySize_nil, List.length_nil] at hl
  unfold tokenize
  omega

end OsLabs.Shell
