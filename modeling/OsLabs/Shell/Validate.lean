import OsLabs.Shell.Parse

/-!
# Shell scripts: `validate`

`validate` tests every token of an array against its neighbours and validates the text of a
subshell by tokenizing it. `syntax_error` ends the program, so `res` is always 1 where
`validate` returns.
-/

namespace OsLabs.Shell

/-- The tokens before the record with line number -1. -/
def live (tokenArray : List Token) : List Token := tokenArray.takeWhile (·.lineNum != -1)

/-! ## The tests -/

/-- The characters that `is_valid_word` accepts. -/
def isWordChar (c : Char) : Bool :=
  ['!', '%', '+', ',', '-', '.', '/', ':', '@', '^', '_'].contains c || c.isAlphanum ||
    c == ' ' || c == '\n' || c == '\t'

/-- `is_valid_operator`. -/
def isValidOperator (operand : Text) : Bool :=
  operand == ['&', '&'] || operand == ['|', '|'] || operand == ['|'] || operand == [';'] ||
    operand == ['>'] || operand == ['<'] || operand == ['('] || operand == [')']

/-- `is_valid_word`: the loop skips the character after each one that it accepts. -/
def isValidWord : Text → Bool
  | [] => true
  | [c] => isWordChar c
  | c :: _ :: operand => isWordChar c && isValidWord operand

def isAngle (c : Char) : Bool := c == '<' || c == '>'

/-- `&&`, `||` or `|`. -/
def isBinary (operand : Text) : Bool :=
  operand == ['&', '&'] || operand == ['|', '|'] || operand == ['|']

/-- The line of the error that the tests on a binary operator find. -/
def binaryError (prev : Option Token) (t : Token) (next : Option Token) : Option Int :=
  if isBinary t.word || t.word == [';'] then
    match prev with
    | none => some t.lineNum
    | some p =>
      if t.word = [';'] then
        if next.any fun n => isBinary n.word || n.word.head?.any isAngle || n.word == [';'] then
          some t.lineNum
        else if next.isNone then some t.lineNum
        else if p.word.any isAngle then some p.lineNum
        else none
      else if next.any fun n => isBinary n.word then some t.lineNum
      else if next.isNone then some t.lineNum
      else none
  else none

/-- The line of the error that the tests on a redirection find. -/
def redirectError (prev : Option Token) (t : Token) (next : Option Token) : Option Int :=
  if t.word = ['<'] ∨ t.word = ['>'] then
    if next.isNone ∨ prev.isNone then some t.lineNum
    else if next.any fun n => n.word == ['>'] || n.word == ['<'] then some t.lineNum
    else none
  else none

/-- The loop of `validate` on an array of `len` tokens; `sub` validates the token array of a
subshell. -/
def validateLoop (sub : List Token → Except Int Int) (len : Int) :
    Option Token → Bool → List Token → Except Int Int
  | _, _, [] => .ok 1
  | prev, inSubshell, t :: rest =>
    if !isValidOperator t.word && !isValidWord t.word then .error t.lineNum
    else if t.word.head? = some '(' then
      match rest with
      | [] => .error len
      | w :: rest' =>
        if w.word.head? ≠ some ')' then
          match sub (tokenize w.word w.lineNum) with
          | .error line => .error line
          | .ok res =>
            if res ≠ 0 then validateLoop sub len (some w) true rest'
            else validateLoop sub len (some t) true (w :: rest')
        else validateLoop sub len (some t) true (w :: rest')
    else if t.word.head? = some ')' then
      if prev.isNone then .error 0
      else if inSubshell then validateLoop sub len (some t) false rest
      else .error t.lineNum
    else
      match binaryError prev t rest.head?, redirectError prev t rest.head? with
      | some line, _ => .error line
      | none, some line => .error line
      | none, none => validateLoop sub len (some t) inSubshell rest

/-- `validate`; the first argument bounds the depth of subshells. -/
def validateAux : Nat → List Token → Except Int Int
  | 0, _ => .error 0
  | n + 1, tokenArray =>
    validateLoop (validateAux n) (live tokenArray).length none false (live tokenArray)

/-- `validate`: the words of a subshell's array are shorter in total than those of the array
it stands in. -/
def validate (tokenArray : List Token) : Except Int Int :=
  validateAux (arraySize tokenArray + 1) tokenArray

/-! ## The grammar -/

def IsWordText (t : Token) : Prop := ∀ c ∈ t.word, isWordChar c = true

/-- The token array of the text of a subshell. -/
def body (w : Token) : List Token := live (tokenize w.word w.lineNum)

mutual

/-- Operands separated by single binary operators. -/
inductive CommandTokens : List Token → Prop where
  | operand {ts : List Token} : OperandTokens ts → CommandTokens ts
  | binary {ts us : List Token} {o : Token} : OperandTokens ts →
      isBinary o.word = true ∨ o.word = [';'] → CommandTokens us → CommandTokens (ts ++ o :: us)

/-- A word or a subshell, with redirections. -/
inductive OperandTokens : List Token → Prop where
  | word {w : Token} : IsWordText w → OperandTokens [w]
  | subshell {o w c : Token} : o.word = ['('] → CommandTokens (body w) → c.word = [')'] →
      OperandTokens [o, w, c]
  | redirect {ts : List Token} {r w : Token} : OperandTokens ts →
      r.word = ['<'] ∨ r.word = ['>'] → IsWordText w → OperandTokens (ts ++ [r, w])

end

/-! ## What the tests see -/

/-- How the loop takes a token; `sub` is a parenthesis together with the text behind it,
`opened` one with no text. -/
inductive Kind where
  | word
  | sub
  | opened
  | close
  | sequence
  | binary
  | redirect
  deriving DecidableEq, Repr

/-- A token, of `sub` the text's, with its kind. -/
abbrev Piece := Kind × Token

def kindOf (word : Text) : Kind :=
  if word = [')'] then .close
  else if word = [';'] then .sequence
  else if isBinary word then .binary
  else if word = ['<'] ∨ word = ['>'] then .redirect
  else .word

def pieces : List Token → List Piece
  | [] => []
  | t :: rest =>
    if t.word = ['('] then
      match rest with
      | [] => [(.opened, t)]
      | w :: rest' =>
        if w.word.head? = some ')' then (.opened, t) :: pieces (w :: rest')
        else (.sub, w) :: pieces rest'
    else (kindOf t.word, t) :: pieces rest

/-- The neighbours in a list with what stands before it; `none` is the end. -/
def neighbours : Option Piece → List Piece → List (Option Piece × Option Piece)
  | a, [] => [(a, none)]
  | a, x :: xs => (a, some x) :: neighbours (some x) xs

/-- What may stand behind a piece: the tests that look ahead. -/
def ahead (a b : Option Piece) : Bool :=
  match a.map Prod.fst with
  | some .opened => b.isSome
  | some .sequence => b.any fun x => !(x.1 matches .sequence | .binary | .redirect)
  | some .binary => b.any fun x => !(x.1 matches .binary)
  | some .redirect => b.any fun x => !(x.1 matches .redirect)
  | _ => true

/-- What may stand in front of a piece: the tests that look back. -/
def behind (a b : Option Piece) : Bool :=
  match b.map Prod.fst with
  | some .sequence => a.any fun x => !x.2.word.any isAngle
  | some .close | some .binary | some .redirect => a.isSome
  | _ => true

/-- `in_subshell` behind a piece. -/
def inSubshell : Kind → Bool → Bool
  | .sub, _ | .opened, _ => true
  | .close, _ => false
  | _, b => b

/-- Every closing parenthesis comes after an opening one, with no other closing one between. -/
def closes : Bool → List Piece → Bool
  | _, [] => true
  | b, x :: xs => (x.1 != .close || b) && closes (inSubshell x.1 b) xs

/-- What the loop tests behind a piece `a`. -/
structure Passes (a : Option Piece) (b : Bool) (xs : List Piece) : Prop where
  words : ∀ t, (.word, t) ∈ xs → isValidWord t.word = true
  ahead : ∀ p ∈ neighbours a xs, ahead p.1 p.2 = true
  behind : ∀ p ∈ neighbours a xs, behind p.1 p.2 = true
  closes : closes b xs = true

/-- The array passes the tests, and so do the texts of its subshells. -/
inductive Tested : List Token → Prop where
  | intro {ts : List Token} (h : Passes none false (pieces ts))
      (hsub : ∀ t, (.sub, t) ∈ pieces ts → Tested (body t)) : Tested ts

/-- Neighbours that no test forbids and no command has. -/
def loosePair (a b : Option Kind) : Bool :=
  match a, b with
  | none, none => true
  | some .opened, _ | _, some .opened => true
  | some .sub, b => b != some .close
  | some .word, some .word | some .word, some .sub | some .word, some .close => true
  | some .close, some .word | some .close, some .sub | some .close, some .close => true
  | some .sequence, some .close => true
  | some .binary, some .close | some .binary, some .sequence | some .binary, some .redirect => true
  | some .redirect, some .close | some .redirect, some .sub | some .redirect, some .binary => true
  | _, _ => false

/-- Somewhere in the array, or in the text of a subshell, a word has a character that is not
allowed or two neighbours are loose. -/
inductive Loose : List Token → Prop where
  | char {ts : List Token} {t : Token} (ht : (.word, t) ∈ pieces ts) (h : ¬ IsWordText t) : Loose ts
  | pair {ts : List Token} {p : Option Piece × Option Piece}
      (hp : p ∈ neighbours none (pieces ts))
      (h : loosePair (p.1.map Prod.fst) (p.2.map Prod.fst) = true) : Loose ts
  | sub {ts : List Token} {t : Token} (ht : (.sub, t) ∈ pieces ts) (h : Loose (body t)) : Loose ts

/-! ## Pieces -/

theorem kindOf_ne (word : Text) : kindOf word ≠ .sub ∧ kindOf word ≠ .opened := by
  unfold kindOf
  split_ifs <;> decide

theorem pieces_word {t : Token} (h : t.word ≠ ['(']) (rest : List Token) :
    pieces (t :: rest) = (kindOf t.word, t) :: pieces rest := by
  rw [pieces.eq_def]
  exact if_neg h

theorem pieces_sub {o w : Token} (ho : o.word = ['(']) (hw : w.word.head? ≠ some ')')
    (rest : List Token) : pieces (o :: w :: rest) = (.sub, w) :: pieces rest := by
  rw [pieces, if_pos ho]
  exact if_neg hw

theorem pieces_opened {o w : Token} (ho : o.word = ['(']) (hw : w.word.head? = some ')')
    (rest : List Token) :
    pieces (o :: w :: rest) = (.opened, o) :: pieces (w :: rest) := by
  rw [pieces, if_pos ho]
  exact if_pos hw

/-- The token of a piece that is not a text is what its kind says. -/
theorem kind_of_mem {k : Kind} {t : Token} : ∀ {ts : List Token}, (k, t) ∈ pieces ts →
    k = .sub ∨ k = .opened ∨ k = kindOf t.word := by
  intro ts
  induction ts using loop_induction with
  | nil => intro h; cases h
  | cons u rest ih ih' =>
    intro h
    by_cases hu : u.word = ['(']
    · rcases rest with _ | ⟨w, rest⟩
      · rw [pieces, if_pos hu, List.mem_singleton] at h
        cases h
        exact .inr (.inl rfl)
      · by_cases hw : w.word.head? = some ')'
        · rw [pieces_opened hu hw] at h
          rcases List.mem_cons.1 h with he | h
          · cases he
            exact .inr (.inl rfl)
          · exact ih h
        · rw [pieces_sub hu hw] at h
          rcases List.mem_cons.1 h with he | h
          · cases he
            exact .inl rfl
          · exact ih' w rest rfl h
    · rw [pieces_word hu] at h
      rcases List.mem_cons.1 h with he | h
      · cases he
        exact .inr (.inr rfl)
      · exact ih h

/-- The text of a subshell is shorter than the array. -/
theorem length_of_sub {t : Token} : ∀ {ts : List Token}, (.sub, t) ∈ pieces ts →
    t.word.length < arraySize ts := by
  intro ts
  induction ts using loop_induction with
  | nil => intro h; cases h
  | cons u rest ih ih' =>
    intro h
    by_cases hu : u.word = ['(']
    · have hlen : u.word.length = 1 := by rw [hu]; rfl
      rcases rest with _ | ⟨w, rest⟩
      · rw [pieces, if_pos hu, List.mem_singleton] at h
        cases h
      · by_cases hw : w.word.head? = some ')'
        · rw [pieces_opened hu hw] at h
          have h := ih ((List.mem_cons.1 h).resolve_left (by simp))
          rw [arraySize_cons]
          omega
        · rw [pieces_sub hu hw] at h
          rw [arraySize_cons, arraySize_cons]
          rcases List.mem_cons.1 h with he | h
          · cases he
            omega
          · have h := ih' w rest rfl h
            omega
    · rw [pieces_word hu] at h
      have h := ih ((List.mem_cons.1 h).resolve_left fun he =>
        (kindOf_ne u.word).1 (congrArg Prod.fst he).symm)
      rw [arraySize_cons]
      omega

/-! ## The loop makes these tests -/

theorem kindOf_eq_sequence {word : Text} : kindOf word = .sequence ↔ word = [';'] := by
  unfold kindOf
  split_ifs with h1 h2
  · simp [h1]
  · simp [h2]
  all_goals simp [h2]

theorem kindOf_eq_close {word : Text} : kindOf word = .close ↔ word = [')'] := by
  unfold kindOf
  split_ifs with h1 <;> simp [h1]

theorem kindOf_eq_binary {word : Text} : kindOf word = .binary ↔ isBinary word = true := by
  unfold kindOf
  split_ifs with h1 h2 h3
  · subst h1
    simp [isBinary]
  · subst h2
    simp [isBinary]
  all_goals simp [h3]

theorem kindOf_eq_redirect {word : Text} :
    kindOf word = .redirect ↔ word = ['<'] ∨ word = ['>'] := by
  unfold kindOf
  split_ifs with h1 h2 h3 h4
  · simp [h1]
  · simp [h2]
  · refine iff_of_false (by decide) ?_
    rintro (rfl | rfl) <;> simp [isBinary] at h3
  · simpa using h4
  · simpa using h4

/-- An accepted token is an operator or a word. -/
def IsValid (t : Token) : Prop := isValidOperator t.word = true ∨ isValidWord t.word = true

theorem isValidOperator_iff {word : Text} : isValidOperator word = true ↔
    word = ['('] ∨ kindOf word ≠ .word := by
  constructor
  · intro h
    unfold isValidOperator at h
    simp only [Bool.or_eq_true, beq_iff_eq] at h
    rcases h with ((((((rfl | rfl) | rfl) | rfl) | rfl) | rfl) | rfl) | rfl <;>
      first | exact .inl rfl | exact .inr (by decide)
  · rintro (rfl | h)
    · decide
    · unfold kindOf at h
      split_ifs at h with h1 h2 h3 h4
      · subst h1
        decide
      · subst h2
        decide
      · unfold isBinary at h3
        simp only [Bool.or_eq_true, beq_iff_eq] at h3
        rcases h3 with (rfl | rfl) | rfl <;> decide
      · rcases h4 with rfl | rfl <;> decide
      · exact absurd rfl h

theorem isWordChar_of_head {c : Char} {word : Text} (h : isValidWord word = true)
    (hc : word.head? = some c) : isWordChar c = true := by
  rcases word with _ | ⟨d, _ | ⟨e, word⟩⟩
  · cases hc
  · cases hc
    exact h
  · cases hc
    rw [isValidWord, Bool.and_eq_true] at h
    exact h.1

/-- A valid token that starts like an operator of one character is this operator. -/
theorem IsValid.eq_of_head {t : Token} (h : IsValid t) {c : Char} (hc : t.word.head? = some c)
    (hw : isWordChar c = false) (hb : c ≠ '&' ∧ c ≠ '|') : t.word = [c] := by
  rcases h with h | h
  · unfold isValidOperator at h
    simp only [Bool.or_eq_true, beq_iff_eq] at h
    rcases h with ((((((h | h) | h) | h) | h) | h) | h) | h <;> rw [h] at hc ⊢ <;> cases hc <;>
      first | rfl | exact absurd rfl hb.1 | exact absurd rfl hb.2
  · rw [isWordChar_of_head h hc] at hw
    cases hw

theorem binaryError_sequence {prev next : Option Token} {t : Token} (ht : t.word = [';']) :
    binaryError prev t next = none ↔
      (∃ p, prev = some p ∧ p.word.any isAngle = false) ∧
      ∃ n, next = some n ∧ isBinary n.word = false ∧ n.word.head?.any isAngle = false ∧
        n.word ≠ [';'] := by
  unfold binaryError
  rw [ht]
  cases prev with
  | none => simp
  | some p =>
    cases next with
    | none => simp
    | some n =>
      cases hb : isBinary n.word <;> cases ha : n.word.head?.any isAngle <;>
        cases hs : n.word == [';'] <;> cases hp : p.word.any isAngle <;> simp_all

theorem binaryError_binary {prev next : Option Token} {t : Token} (ht : isBinary t.word = true) :
    binaryError prev t next = none ↔
      prev.isSome = true ∧ ∃ n, next = some n ∧ isBinary n.word = false := by
  have hne : t.word ≠ [';'] := by
    intro he
    rw [he] at ht
    cases ht
  unfold binaryError
  rw [ht, if_pos (by rfl)]
  cases prev with
  | none => simp
  | some p =>
    cases next with
    | none => simp [hne]
    | some n => cases hb : isBinary n.word <;> simp [hne, hb]

theorem binaryError_other {prev next : Option Token} {t : Token} (h1 : t.word ≠ [';'])
    (h2 : isBinary t.word ≠ true) : binaryError prev t next = none := by
  unfold binaryError
  rw [if_neg]
  simp [h1, h2]

theorem redirectError_redirect {prev next : Option Token} {t : Token}
    (ht : t.word = ['<'] ∨ t.word = ['>']) : redirectError prev t next = none ↔
      prev.isSome = true ∧ ∃ n, next = some n ∧ n.word ≠ ['<'] ∧ n.word ≠ ['>'] := by
  unfold redirectError
  rw [if_pos ht]
  cases prev <;> cases next <;> simp [and_comm]

theorem redirectError_other {prev next : Option Token} {t : Token}
    (ht : ¬ (t.word = ['<'] ∨ t.word = ['>'])) : redirectError prev t next = none :=
  if_neg ht

/-- The tests on the next token see the kind of the next piece. -/
theorem next_kind {n : Token} (hv : IsValid n) (rest : List Token) :
    ∃ y ys, pieces (n :: rest) = y :: ys ∧ (isBinary n.word = true ↔ y.1 = .binary) ∧
      (n.word = [';'] ↔ y.1 = .sequence) ∧ (n.word = ['<'] ∨ n.word = ['>'] ↔ y.1 = .redirect) ∧
      (n.word.head?.any isAngle = true ↔ y.1 = .redirect) := by
  by_cases ho : n.word = ['(']
  · have hy : ∃ y ys, pieces (n :: rest) = y :: ys ∧ (y.1 = .sub ∨ y.1 = .opened) := by
      rcases rest with _ | ⟨w, rest⟩
      · exact ⟨(.opened, n), [], by rw [pieces, if_pos ho], .inr rfl⟩
      · by_cases hw : w.word.head? = some ')'
        · exact ⟨_, _, pieces_opened ho hw rest, .inr rfl⟩
        · exact ⟨_, _, pieces_sub ho hw rest, .inl rfl⟩
    obtain ⟨y, ys, he, hk⟩ := hy
    refine ⟨y, ys, he, ?_⟩
    rw [ho]
    rcases hk with hk | hk <;> rw [hk] <;> decide
  · refine ⟨_, _, pieces_word ho rest, kindOf_eq_binary.symm, kindOf_eq_sequence.symm,
      kindOf_eq_redirect.symm, ?_⟩
    rw [kindOf_eq_redirect]
    constructor
    · intro ha
      obtain ⟨c, hc, hca⟩ := Option.any_eq_true _ _ |>.1 ha
      unfold isAngle at hca
      simp only [Bool.or_eq_true, beq_iff_eq] at hca
      rcases hca with rfl | rfl
      · exact .inl (hv.eq_of_head hc (by decide) (by decide))
      · exact .inr (hv.eq_of_head hc (by decide) (by decide))
    · rintro (h | h) <;> rw [h] <;> decide

/-- The tests on an operator are those between its piece and the neighbours. -/
theorem tests_iff {a : Option Piece} {t : Token} {rest : List Token} (hc : t.word ≠ [')'])
    (hv : ∀ n ∈ rest.head?, IsValid n) :
    (binaryError (a.map Prod.snd) t rest.head? = none ∧
      redirectError (a.map Prod.snd) t rest.head? = none) ↔
    behind a (some (kindOf t.word, t)) = true ∧
      ahead (some (kindOf t.word, t)) (pieces rest).head? = true := by
  have hnext : rest = [] ∧ (pieces rest).head? = none ∨ ∃ n y, rest.head? = some n ∧
      (pieces rest).head? = some y ∧ (isBinary n.word = true ↔ y.1 = .binary) ∧
      (n.word = [';'] ↔ y.1 = .sequence) ∧ (n.word = ['<'] ∨ n.word = ['>'] ↔ y.1 = .redirect) ∧
      (n.word.head?.any isAngle = true ↔ y.1 = .redirect) := by
    rcases rest with _ | ⟨n, rest⟩
    · exact .inl ⟨rfl, rfl⟩
    · obtain ⟨y, ys, he, hk⟩ := next_kind (hv n rfl) rest
      exact .inr ⟨n, y, rfl, by rw [he]; rfl, hk⟩
  cases hk : kindOf t.word with
  | close => exact absurd (kindOf_eq_close.1 hk) hc
  | sub => exact absurd hk (kindOf_ne _).1
  | opened => exact absurd hk (kindOf_ne _).2
  | word =>
    have h1 : t.word ≠ [';'] := fun h => by rw [kindOf_eq_sequence.2 h] at hk; cases hk
    have h2 : isBinary t.word ≠ true := fun h => by rw [kindOf_eq_binary.2 h] at hk; cases hk
    have h3 : ¬ (t.word = ['<'] ∨ t.word = ['>']) := fun h => by
      rw [kindOf_eq_redirect.2 h] at hk
      cases hk
    exact iff_of_true ⟨binaryError_other h1 h2, redirectError_other h3⟩ ⟨rfl, rfl⟩
  | sequence =>
    have ht := kindOf_eq_sequence.1 hk
    have h3 : ¬ (t.word = ['<'] ∨ t.word = ['>']) := by rw [ht]; decide
    rw [binaryError_sequence ht, redirectError_other h3]
    rcases hnext with ⟨rfl, hp⟩ | ⟨n, y, hn, hy, hb, hs, hr, ha⟩
    · simp [hp, behind, ahead]
    · rw [hn, hy]
      cases a <;> cases hyk : y.1 <;> simp_all [behind, ahead]
  | binary =>
    have ht := kindOf_eq_binary.1 hk
    have h3 : ¬ (t.word = ['<'] ∨ t.word = ['>']) := fun h => by
      rw [kindOf_eq_redirect.2 h] at hk
      cases hk
    rw [binaryError_binary ht, redirectError_other h3]
    rcases hnext with ⟨rfl, hp⟩ | ⟨n, y, hn, hy, hb, hs, hr, ha⟩
    · simp [hp, behind, ahead]
    · rw [hn, hy]
      cases a <;> cases hyk : y.1 <;> simp_all [behind, ahead]
  | redirect =>
    have ht := kindOf_eq_redirect.1 hk
    have h1 : t.word ≠ [';'] := fun h => by rw [kindOf_eq_sequence.2 h] at hk; cases hk
    have h2 : isBinary t.word ≠ true := fun h => by rw [kindOf_eq_binary.2 h] at hk; cases hk
    rw [binaryError_other h1 h2, redirectError_redirect ht]
    rcases hnext with ⟨rfl, hp⟩ | ⟨n, y, hn, hy, hb, hs, hr, ha⟩
    · simp [hp, behind, ahead]
    · have hr' : n.word ≠ ['<'] ∧ n.word ≠ ['>'] ↔ y.1 ≠ .redirect :=
        not_or.symm.trans (not_congr hr)
      rw [hn, hy]
      cases a <;> cases hyk : y.1 <;> simp [behind, ahead, hyk, hr']

theorem passes_cons {a : Option Piece} {b : Bool} {x : Piece} {xs : List Piece} :
    Passes a b (x :: xs) ↔ (x.1 = .word → isValidWord x.2.word = true) ∧
      ahead a (some x) = true ∧ behind a (some x) = true ∧ (x.1 = .close → b = true) ∧
      Passes (some x) (inSubshell x.1 b) xs := by
  have hclose : (x.1 != .close || b) = true ↔ (x.1 = .close → b = true) := by
    simp only [Bool.or_eq_true, bne_iff_ne]
    exact imp_iff_not_or.symm
  constructor
  · intro h
    have hcl := h.closes
    rw [closes, Bool.and_eq_true, hclose] at hcl
    exact ⟨fun hx => h.words x.2 (by rw [← hx]; exact List.mem_cons_self),
      h.ahead _ List.mem_cons_self, h.behind _ List.mem_cons_self, hcl.1,
      fun t ht => h.words t (List.mem_cons_of_mem _ ht),
      fun p hp => h.ahead p (List.mem_cons_of_mem _ hp),
      fun p hp => h.behind p (List.mem_cons_of_mem _ hp), hcl.2⟩
  · rintro ⟨hw, ha, hb, hc, h⟩
    refine ⟨fun t ht => ?_, fun p hp => ?_, fun p hp => ?_, ?_⟩
    · rcases List.mem_cons.1 ht with rfl | ht
      · exact hw rfl
      · exact h.words t ht
    · rcases List.mem_cons.1 hp with rfl | hp
      · exact ha
      · exact h.ahead p hp
    · rcases List.mem_cons.1 hp with rfl | hp
      · exact hb
      · exact h.behind p hp
    · rw [closes, Bool.and_eq_true, hclose]
      exact ⟨hc, h.closes⟩

/-- What stands next after a piece that passes. -/
theorem Passes.next {a : Option Piece} {b : Bool} {xs : List Piece} (h : Passes a b xs) :
    OsLabs.Shell.ahead a xs.head? = true := by
  rcases xs with _ | ⟨x, xs⟩
  · exact h.ahead _ (List.mem_singleton_self _)
  · exact h.ahead _ List.mem_cons_self

section Loop

variable {sub : List Token → Except Int Int} {len : Int}

/-- The loop goes beyond its first token only if that is valid. -/
theorem validateLoop_valid {a : Option Token} {b : Bool} {ts : List Token}
    (h : validateLoop sub len a b ts = .ok 1) : ∀ n ∈ ts.head?, IsValid n := by
  rintro n hn
  rcases ts with _ | ⟨t, rest⟩
  · cases hn
  · cases hn
    by_contra hv
    unfold IsValid at hv
    rw [validateLoop.eq_def] at h
    simp [not_or.1 hv] at h

theorem validateLoop_sub {a : Option Token} {b : Bool} {t w : Token} (ho : t.word = ['('])
    (hw : w.word.head? ≠ some ')') (rest : List Token) :
    validateLoop sub len a b (t :: w :: rest) =
      match sub (tokenize w.word w.lineNum) with
      | .error line => .error line
      | .ok res =>
        if res ≠ 0 then validateLoop sub len (some w) true rest
        else validateLoop sub len (some t) true (w :: rest) := by
  rw [validateLoop.eq_def]
  simp [ho, isValidOperator, hw]

theorem validateLoop_opened {a : Option Token} {b : Bool} {t w : Token} (ho : t.word = ['('])
    (hw : w.word.head? = some ')') (rest : List Token) :
    validateLoop sub len a b (t :: w :: rest) =
      validateLoop sub len (some t) true (w :: rest) := by
  rw [validateLoop.eq_def]
  simp [ho, isValidOperator, hw]

theorem validateLoop_close {a : Option Token} {b : Bool} {t : Token} (hc : t.word = [')'])
    (rest : List Token) : validateLoop sub len a b (t :: rest) = .ok 1 ↔
      a.isSome = true ∧ b = true ∧ validateLoop sub len (some t) false rest = .ok 1 := by
  rw [validateLoop.eq_def]
  cases a <;> cases b <;> simp [hc, isValidOperator]

theorem validateLoop_other {a : Option Token} {b : Bool} {t : Token} (hv : IsValid t)
    (ho : t.word ≠ ['(']) (hc : t.word ≠ [')']) (rest : List Token) :
    validateLoop sub len a b (t :: rest) = .ok 1 ↔
      (binaryError a t rest.head? = none ∧ redirectError a t rest.head? = none) ∧
        validateLoop sub len (some t) b rest = .ok 1 := by
  have hv' : (!isValidOperator t.word && !isValidWord t.word) = false := by
    rcases hv with h | h <;> simp [h]
  have ho' : t.word.head? ≠ some '(' := fun h => ho (hv.eq_of_head h (by decide) (by decide))
  have hc' : t.word.head? ≠ some ')' := fun h => hc (hv.eq_of_head h (by decide) (by decide))
  rw [validateLoop.eq_def]
  simp only [hv', ho', hc', if_false, Bool.false_eq_true]
  cases binaryError a t rest.head? <;> cases redirectError a t rest.head? <;> simp

/-- From here on the loop accepts what passes, behind any piece that the next one may follow. -/
def Tests (sub : List Token → Except Int Int) (len : Int) (ts : List Token) : Prop :=
  ∀ (a : Option Piece) (b : Bool), ahead a (pieces ts).head? = true →
    (validateLoop sub len (a.map Prod.snd) b ts = .ok 1 ↔ Passes a b (pieces ts) ∧
      ∀ t, (.sub, t) ∈ pieces ts → sub (tokenize t.word t.lineNum) = .ok 1)

theorem tests_nil : Tests sub len [] := by
  intro a b ha
  refine iff_of_true rfl ⟨⟨?_, ?_, ?_, rfl⟩, ?_⟩
  · rintro t ⟨⟩
  · intro p hp
    rw [List.mem_singleton.1 hp]
    exact ha
  · intro p hp
    rw [List.mem_singleton.1 hp]
    rfl
  · rintro t ⟨⟩

/-- A parenthesis at the end. -/
theorem tests_open {t : Token} (ho : t.word = ['(']) : Tests sub len [t] := by
  intro a b ha
  refine iff_of_false ?_ fun h => ?_
  · rw [validateLoop.eq_def]
    simp [ho, isValidOperator]
  · rw [pieces, if_pos ho, passes_cons] at h
    exact absurd h.1.2.2.2.2.next (by simp [ahead])

/-- A parenthesis that nothing stands in. -/
theorem Tests.opened {t w : Token} {rest : List Token} (h : Tests sub len (w :: rest))
    (ho : t.word = ['(']) (hw : w.word.head? = some ')') : Tests sub len (t :: w :: rest) := by
  intro a b ha
  have hnext : ahead (some (.opened, t)) (pieces (w :: rest)).head? = true := by
    rcases h : pieces (w :: rest) with _ | ⟨y, ys⟩
    · by_cases hwo : w.word = ['(']
      · rw [hwo] at hw
        cases hw
      · rw [pieces_word hwo] at h
        cases h
    · rfl
  have hrest := h (some (.opened, t)) true hnext
  rw [pieces_opened ho hw] at ha ⊢
  rw [validateLoop_opened ho hw, passes_cons]
  simp only [List.mem_cons, Prod.mk.injEq, reduceCtorEq, false_and, false_or,
    List.head?_cons] at ha ⊢
  rw [Option.map_some] at hrest
  rw [hrest]
  simp [ha, behind, inSubshell]

/-- A subshell. -/
theorem Tests.subshell {t w : Token} {rest : List Token} (h : Tests sub len rest)
    (hres : ∀ ts r, sub ts = .ok r → r = 1) (ho : t.word = ['('])
    (hw : w.word.head? ≠ some ')') : Tests sub len (t :: w :: rest) := by
  intro a b ha
  have hrest := h (some (.sub, w)) true rfl
  rw [pieces_sub ho hw] at ha ⊢
  rw [validateLoop_sub ho hw, passes_cons]
  rw [Option.map_some] at hrest
  have hmem : (∀ u, (Kind.sub, u) ∈ (Kind.sub, w) :: pieces rest →
      sub (tokenize u.word u.lineNum) = .ok 1) ↔
      sub (tokenize w.word w.lineNum) = .ok 1 ∧
        ∀ u, (.sub, u) ∈ pieces rest → sub (tokenize u.word u.lineNum) = .ok 1 := by
    simp
  rw [hmem]
  cases hs : sub (tokenize w.word w.lineNum) with
  | error line => simp
  | ok res =>
    obtain rfl := hres _ _ hs
    simp only [List.head?_cons] at ha
    dsimp only at hrest ⊢
    rw [if_pos (by decide), hrest]
    simp [ha, behind, inSubshell]

/-- A word or an operator is no subshell. -/
theorem sub_mem_word {t u : Token} {xs : List Piece} :
    (Kind.sub, u) ∈ (kindOf t.word, t) :: xs ↔ (Kind.sub, u) ∈ xs := by
  rw [List.mem_cons, or_iff_right]
  intro he
  exact (kindOf_ne t.word).1 (congrArg Prod.fst he).symm

theorem Tests.close {t : Token} {rest : List Token} (h : Tests sub len rest)
    (hc : t.word = [')']) : Tests sub len (t :: rest) := by
  intro a b ha
  have ho : t.word ≠ ['('] := by
    rw [hc]
    decide
  have hk := kindOf_eq_close.2 hc
  have hrest := h (some (kindOf t.word, t)) false (by rw [hk]; rfl)
  rw [pieces_word ho] at ha ⊢
  simp only [sub_mem_word]
  rw [List.head?_cons] at ha
  rw [Option.map_some] at hrest
  rw [passes_cons, validateLoop_close hc, hrest, hk]
  rw [hk] at ha
  have hb : behind a (some (.close, t)) = a.isSome := rfl
  simp [ha, hb, inSubshell, and_assoc]

theorem Tests.other {t : Token} {rest : List Token} (h : Tests sub len rest) (hv : IsValid t)
    (ho : t.word ≠ ['(']) (hc : t.word ≠ [')']) : Tests sub len (t :: rest) := by
  intro a b ha
  have hword : kindOf t.word = .word → isValidWord t.word = true := fun hk =>
    hv.resolve_left fun h => (isValidOperator_iff.1 h).elim ho fun h => h hk
  have hk : kindOf t.word ≠ .close := fun h => hc (kindOf_eq_close.1 h)
  have hin : inSubshell (kindOf t.word) b = b := by
    have := kindOf_ne t.word
    cases h : kindOf t.word <;> simp_all [inSubshell]
  rw [pieces_word ho] at ha ⊢
  rw [List.head?_cons] at ha
  simp only [sub_mem_word]
  rw [passes_cons, validateLoop_other hv ho hc, hin]
  by_cases hnext : ahead (some (kindOf t.word, t)) (pieces rest).head? = true
  · have hrest := h (some (kindOf t.word, t)) b hnext
    rw [Option.map_some] at hrest
    dsimp only at hrest
    constructor
    · rintro ⟨htests, hl⟩
      have hb := ((tests_iff hc (validateLoop_valid hl)).1 htests).1
      obtain ⟨hp, hs⟩ := hrest.1 hl
      exact ⟨⟨hword, ha, hb, fun h => absurd h hk, hp⟩, hs⟩
    · rintro ⟨⟨-, -, hb, -, hp⟩, hs⟩
      have hl := hrest.2 ⟨hp, hs⟩
      exact ⟨(tests_iff hc (validateLoop_valid hl)).2 ⟨hb, hnext⟩, hl⟩
  · refine iff_of_false (fun h => hnext ?_) fun h => hnext h.1.2.2.2.2.next
    exact ((tests_iff hc (validateLoop_valid h.2)).1 h.1).2

theorem tests_invalid {t : Token} {rest : List Token} (hv : ¬ IsValid t)
    (ho : t.word ≠ ['(']) : Tests sub len (t :: rest) := by
  intro a b _
  refine iff_of_false (fun h => hv (validateLoop_valid h t rfl)) fun h => hv ?_
  rw [pieces_word ho, passes_cons] at h
  by_cases hk : kindOf t.word = .word
  · exact .inr (h.1.1 hk)
  · exact .inl (isValidOperator_iff.2 (.inr hk))

theorem validateLoop_iff (hres : ∀ ts r, sub ts = .ok r → r = 1) (ts : List Token) :
    Tests sub len ts := by
  induction ts using loop_induction with
  | nil => exact tests_nil
  | cons t rest ih ih' =>
    by_cases ho : t.word = ['(']
    · rcases rest with _ | ⟨w, rest⟩
      · exact tests_open ho
      · by_cases hw : w.word.head? = some ')'
        · exact ih.opened ho hw
        · exact Tests.subshell (ih' w rest rfl) hres ho hw
    · by_cases hv : IsValid t
      · by_cases hc : t.word = [')']
        · exact ih.close hc
        · exact ih.other hv ho hc
      · exact tests_invalid hv ho

end Loop

/-- `validate` returns 1 wherever it returns. -/
theorem validateLoop_ok {sub : List Token → Except Int Int} {len : Int} (ts : List Token) :
    ∀ {a : Option Token} {b : Bool} {r : Int}, validateLoop sub len a b ts = .ok r → r = 1 := by
  induction ts using loop_induction with
  | nil =>
    intro a b r h
    cases h
    rfl
  | cons t rest ih ih' =>
    intro a b r h
    rw [validateLoop.eq_def] at h
    dsimp only at h
    split at h
    · cases h
    split at h
    · split at h
      · cases h
      · split at h
        · split at h
          · cases h
          · split at h
            · exact ih' _ _ rfl h
            · exact ih h
        · exact ih h
    split at h
    · split at h
      · cases h
      split at h
      · exact ih h
      · cases h
    split at h
    · cases h
    · cases h
    · exact ih h

theorem validateAux_ok {n : Nat} {ts : List Token} {r : Int} (h : validateAux n ts = .ok r) :
    r = 1 := by
  cases n with
  | zero => cases h
  | succ n => exact validateLoop_ok _ h

theorem arraySize_live (ts : List Token) : arraySize (live ts) ≤ arraySize ts := by
  unfold live
  induction ts with
  | nil => exact Nat.le_refl _
  | cons t ts ih =>
    rw [List.takeWhile_cons]
    split
    · rw [arraySize_cons, arraySize_cons]
      omega
    · exact Nat.zero_le _

theorem tested_iff {ts : List Token} : Tested ts ↔
    Passes none false (pieces ts) ∧ ∀ t, (.sub, t) ∈ pieces ts → Tested (body t) := by
  constructor
  · rintro ⟨h, hsub⟩
    exact ⟨h, hsub⟩
  · rintro ⟨h, hsub⟩
    exact ⟨h, hsub⟩

/-- What `validate` accepts. -/
theorem validateAux_iff {n : Nat} : ∀ {ts : List Token}, arraySize ts < n →
    (validateAux n ts = .ok 1 ↔ Tested (live ts)) := by
  induction n with
  | zero => intro ts h; omega
  | succ n ih =>
    intro ts h
    rw [validateAux, tested_iff]
    refine (validateLoop_iff (fun _ _ => validateAux_ok) (live ts) none false rfl).trans
      (and_congr_right fun _ => forall_congr' fun t => ?_)
    refine imp_congr_right fun ht => ih ?_
    have h1 := length_of_sub ht
    have h2 := arraySize_live ts
    have h3 := arraySize_tokenize t.word t.lineNum
    omega

theorem validate_iff {ts : List Token} : validate ts = .ok 1 ↔ Tested (live ts) :=
  validateAux_iff (Nat.lt_succ_self _)

/-! ## A closing parenthesis in front -/

namespace Tokenizer

variable (lineNum : Int) (s : Tokenizer)

theorem tokenArray_flush : s.tokenArray <+: (s.flush lineNum).tokenArray := by
  unfold flush
  split
  · exact List.prefix_append _ _
  · exact List.prefix_rfl

theorem tokenArray_iter (c1 c2 : Char) :
    s.tokenArray <+: (s.iter lineNum c1 c2).1.tokenArray := by
  have hf := tokenArray_flush lineNum s
  have ha (u : List Token) : s.tokenArray <+: (s.flush lineNum).tokenArray ++ u :=
    hf.trans (List.prefix_append _ _)
  unfold iter
  dsimp only
  repeat' split
  all_goals first | exact ha _ | exact hf | exact List.prefix_append _ _ | exact List.prefix_rfl

theorem tokenArray_loop (text : Text) :
    s.tokenArray <+: (loop lineNum s text).tokenArray := by
  fun_induction loop lineNum s text with
  | case1 s => exact List.prefix_rfl
  | case2 s c1 => exact tokenArray_iter lineNum s c1 ' '
  | case3 s c1 c2 text r hr ih => exact (tokenArray_iter lineNum s c1 c2).trans ih
  | case4 s c1 c2 text r hr ih => exact (tokenArray_iter lineNum s c1 c2).trans ih

end Tokenizer

/-- A text that begins with a closing parenthesis has this for its first token. -/
theorem tokenize_close (text : Text) (lineNum : Int) :
    ∃ us, tokenize (')' :: text) lineNum = ⟨[')'], lineNum⟩ :: us := by
  have hfirst (c2 : Char) : (Tokenizer.iter lineNum {} ')' c2).1.tokenArray =
      [⟨[')'], lineNum⟩] := by
    simp [Tokenizer.iter, Tokenizer.makeToken]
  have hloop : [⟨[')'], lineNum⟩] <+: (Tokenizer.loop lineNum {} (')' :: text)).tokenArray := by
    rcases text with _ | ⟨c2, text⟩
    · exact (hfirst ' ').symm ▸ List.prefix_rfl
    · have hflag : (Tokenizer.iter lineNum {} ')' c2).2 = false := rfl
      rw [Tokenizer.loop, hflag, ← hfirst c2]
      exact Tokenizer.tokenArray_loop _ _ _
  obtain ⟨us, hus⟩ := hloop.trans (Tokenizer.tokenArray_flush lineNum _)
  exact ⟨us, hus.symm⟩

/-! ## What the grammar needs -/

/-- The neighbours in a command. -/
def follows : Option Kind → Option Kind → Bool
  | none, b | some .sequence, b | some .binary, b => b == some .word || b == some .sub
  | some .word, b | some .close, b =>
    b == none || b == some .sequence || b == some .binary || b == some .redirect
  | some .sub, b => b == some .close
  | some .redirect, b => b == some .word
  | some .opened, _ => false

/-- Behind a piece `a` the list goes on as a command does. -/
structure Fits (a : Option Piece) (xs : List Piece) : Prop where
  words : ∀ t, (.word, t) ∈ xs → IsWordText t
  follows : ∀ p ∈ neighbours a xs, follows (p.1.map Prod.fst) (p.2.map Prod.fst) = true
  subs : ∀ t, (.sub, t) ∈ xs → CommandTokens (body t)

theorem fits_nil {a : Option Piece} : Fits a [] ↔ follows (a.map Prod.fst) none = true := by
  constructor
  · intro h
    exact h.follows _ (List.mem_singleton_self _)
  · intro h
    refine ⟨?_, fun p hp => ?_, ?_⟩
    · rintro t ⟨⟩
    · rw [List.mem_singleton.1 hp]
      exact h
    · rintro t ⟨⟩

theorem fits_cons {a : Option Piece} {x : Piece} {xs : List Piece} :
    Fits a (x :: xs) ↔ (x.1 = .word → IsWordText x.2) ∧ (x.1 = .sub → CommandTokens (body x.2)) ∧
      follows (a.map Prod.fst) (some x.1) = true ∧ Fits (some x) xs := by
  constructor
  · intro h
    refine ⟨fun hx => h.words x.2 ?_, fun hx => h.subs x.2 ?_, h.follows _ List.mem_cons_self, ?_⟩
    · rw [← hx]
      exact List.mem_cons_self
    · rw [← hx]
      exact List.mem_cons_self
    · exact ⟨fun t ht => h.words t (List.mem_cons_of_mem _ ht),
        fun p hp => h.follows p (List.mem_cons_of_mem _ hp),
        fun t ht => h.subs t (List.mem_cons_of_mem _ ht)⟩
  · rintro ⟨hw, hs, hf, h⟩
    refine ⟨fun t ht => ?_, fun p hp => ?_, fun t ht => ?_⟩
    · rcases List.mem_cons.1 ht with rfl | ht
      · exact hw rfl
      · exact h.words t ht
    · rcases List.mem_cons.1 hp with rfl | hp
      · exact hf
      · exact h.follows p hp
    · rcases List.mem_cons.1 ht with rfl | ht
      · exact hs rfl
      · exact h.subs t ht

/-- An operand comes next. -/
def Starts (a : Option Piece) : Prop :=
  a = none ∨ ∃ x, a = some x ∧ (x.1 = .sequence ∨ x.1 = .binary)

/-- An operand is behind us. -/
def Ends (x : Piece) : Prop := x.1 = .word ∨ x.1 = .close

theorem Starts.follows {a : Option Piece} (h : Starts a) (b : Option Kind) :
    OsLabs.Shell.follows (a.map Prod.fst) b = (b == some .word || b == some .sub) := by
  rcases h with rfl | ⟨x, rfl, hx | hx⟩
  · rfl
  all_goals
    rw [Option.map_some, hx]
    rfl

theorem Ends.follows {x : Piece} (h : Ends x) (b : Option Kind) :
    OsLabs.Shell.follows (some x.1) b =
      (b == none || b == some .sequence || b == some .binary || b == some .redirect) := by
  rcases h with hx | hx
  all_goals
    rw [hx]
    rfl

theorem IsWordText.kindOf {w : Token} (h : IsWordText w) :
    w.word ≠ ['('] ∧ OsLabs.Shell.kindOf w.word = .word := by
  have hne (c : Char) (word : Text) (hc : isWordChar c = false) (hm : c ∈ word) :
      w.word ≠ word := by
    rintro rfl
    rw [h c hm] at hc
    cases hc
  have hb : isBinary w.word ≠ true := by
    intro hb
    unfold isBinary at hb
    simp only [Bool.or_eq_true, beq_iff_eq] at hb
    rcases hb with (hw | hw) | hw
    · exact hne '&' ['&', '&'] (by decide) (by decide) hw
    · exact hne '|' ['|', '|'] (by decide) (by decide) hw
    · exact hne '|' ['|'] (by decide) (by decide) hw
  refine ⟨hne '(' _ (by decide) (by decide), ?_⟩
  rw [OsLabs.Shell.kindOf, if_neg (hne ')' _ (by decide) (by decide)),
    if_neg (hne ';' _ (by decide) (by decide)), if_neg hb, if_neg]
  rintro (hw | hw)
  · exact hne '<' _ (by decide) (by decide) hw
  · exact hne '>' _ (by decide) (by decide) hw

theorem pieces_wordText {w : Token} (h : IsWordText w) (rest : List Token) :
    pieces (w :: rest) = (.word, w) :: pieces rest := by
  rw [pieces_word h.kindOf.1, h.kindOf.2]

/-- A command starts with a word or an opening parenthesis. -/
theorem OperandTokens.head {ts : List Token} (h : OperandTokens ts) :
    ∃ t rest, ts = t :: rest ∧ t.word ≠ [')'] :=
  match h with
  | .word hw => by
    refine ⟨_, [], rfl, fun hc => ?_⟩
    have := hw.kindOf.2
    rw [hc] at this
    cases this
  | .subshell ho _ _ => by
    refine ⟨_, _, rfl, ?_⟩
    rw [ho]
    decide
  | .redirect ht _ _ => by
    obtain ⟨t, rest, rfl, hne⟩ := ht.head
    exact ⟨t, _, rfl, hne⟩

theorem CommandTokens.head {ts : List Token} (h : CommandTokens ts) :
    ∃ t rest, ts = t :: rest ∧ t.word ≠ [')'] := by
  cases h with
  | operand h => exact h.head
  | binary h =>
    obtain ⟨t, rest, rfl, hne⟩ := h.head
    exact ⟨t, _, rfl, hne⟩

/-- The text of a subshell does not begin with a closing parenthesis. -/
theorem CommandTokens.text {w : Token} (h : CommandTokens (body w)) :
    w.word.head? ≠ some ')' := by
  intro hw
  obtain ⟨t, rest, he, hne⟩ := h.head
  obtain ⟨text, hword⟩ : ∃ text, w.word = ')' :: text := by
    rcases hl : w.word with _ | ⟨c, text⟩
    · rw [hl] at hw
      cases hw
    · rw [hl] at hw
      cases hw
      exact ⟨text, rfl⟩
  obtain ⟨us, hus⟩ := tokenize_close text w.lineNum
  rw [body, hword, hus, live, List.takeWhile_cons] at he
  split at he
  · cases he
    exact hne rfl
  · cases he

/-- What stands behind an operand does not depend on it. -/
theorem OperandTokens.fits {ts : List Token} (h : OperandTokens ts) {a : Option Piece}
    (ha : Starts a) {rest : List Token} (hrest : ∀ x, Ends x → Fits (some x) (pieces rest)) :
    Fits a (pieces (ts ++ rest)) :=
  match h with
  | .word hw => by
    rw [List.singleton_append, pieces_wordText hw, fits_cons, ha.follows]
    exact ⟨fun _ => hw, nofun, rfl, hrest _ (.inl rfl)⟩
  | .subshell (o := o) (w := w) (c := c) ho hb hc => by
    have hco : c.word ≠ ['('] := by
      rw [hc]
      decide
    have he : pieces ([o, w, c] ++ rest) = (.sub, w) :: (.close, c) :: pieces rest := by
      rw [← kindOf_eq_close.2 hc, ← pieces_word hco]
      exact pieces_sub ho hb.text _
    rw [he, fits_cons, fits_cons, ha.follows]
    exact ⟨nofun, fun _ => hb, rfl, nofun, nofun, rfl, hrest _ (.inr rfl)⟩
  | .redirect (r := r) (w := w) ht hr hw => by
    have hro : r.word ≠ ['('] := by
      rcases hr with hr | hr <;> rw [hr] <;> decide
    rw [List.append_assoc]
    apply ht.fits ha
    intro x hx
    have he : pieces ([r, w] ++ rest) = (.redirect, r) :: (.word, w) :: pieces rest := by
      rw [← kindOf_eq_redirect.2 hr, ← pieces_wordText hw]
      exact pieces_word hro _
    rw [he, fits_cons, fits_cons, Option.map_some, hx.follows]
    exact ⟨nofun, nofun, rfl, fun _ => hw, nofun, rfl, hrest _ (.inl rfl)⟩

theorem kindOf_operator {o : Token} (ho : isBinary o.word = true ∨ o.word = [';']) :
    o.word ≠ ['('] ∧ (kindOf o.word = .sequence ∨ kindOf o.word = .binary) := by
  rcases ho with ho | ho
  · refine ⟨?_, .inr (kindOf_eq_binary.2 ho)⟩
    intro he
    rw [he] at ho
    cases ho
  · refine ⟨?_, .inl (kindOf_eq_sequence.2 ho)⟩
    rw [ho]
    decide

theorem CommandTokens.fits {ts : List Token} (h : CommandTokens ts) {a : Option Piece}
    (ha : Starts a) : Fits a (pieces ts) :=
  match h with
  | .operand h => by
    rw [← List.append_nil ts]
    apply h.fits ha
    intro x hx
    rw [pieces, fits_nil, Option.map_some, hx.follows]
    rfl
  | .binary (o := o) h ho hc => by
    obtain ⟨hne, hk⟩ := kindOf_operator ho
    apply h.fits ha
    intro x hx
    have hus := hc.fits (a := some (kindOf o.word, o)) (.inr ⟨_, rfl, hk⟩)
    rw [pieces_word hne, fits_cons, Option.map_some, hx.follows]
    rcases hk with hk | hk
    all_goals
      rw [hk] at hus ⊢
      exact ⟨nofun, nofun, rfl, hus⟩

theorem follows_opened (a : Option Kind) : follows a (some .opened) = false := by
  rcases a with _ | (_ | _ | _ | _ | _ | _ | _) <;> rfl

/-- Where no text may come next, the next token is not an opening parenthesis. -/
theorem Fits.cons {a : Option Piece} {t : Token} {rest : List Token}
    (h : Fits a (pieces (t :: rest)))
    (hsub : OsLabs.Shell.follows (a.map Prod.fst) (some .sub) = false) :
    (kindOf t.word = .word → IsWordText t) ∧
      OsLabs.Shell.follows (a.map Prod.fst) (some (kindOf t.word)) = true ∧
      Fits (some (kindOf t.word, t)) (pieces rest) := by
  have ho : t.word ≠ ['('] := by
    intro ho
    have hf : ∃ k u us, pieces (t :: rest) = (k, u) :: us ∧ (k = .sub ∨ k = .opened) := by
      rcases rest with _ | ⟨w, rest⟩
      · exact ⟨.opened, t, [], by rw [pieces, if_pos ho], .inr rfl⟩
      · by_cases hw : w.word.head? = some ')'
        · exact ⟨_, _, _, pieces_opened ho hw rest, .inr rfl⟩
        · exact ⟨_, _, _, pieces_sub ho hw rest, .inl rfl⟩
    obtain ⟨k, u, us, he, hk⟩ := hf
    rw [he, fits_cons] at h
    have hf := h.2.2.1
    rcases hk with rfl | rfl
    · rw [hsub] at hf
      cases hf
    · rw [follows_opened] at hf
      cases hf
  rw [pieces_word ho, fits_cons] at h
  exact ⟨h.1, h.2.2⟩

/-- Behind an operand comes a redirection or an operator with the next operand. -/
theorem Fits.behind_operand {x : Piece} {us ts : List Token} (hx : Ends x)
    (hus : OperandTokens us) (h : Fits (some x) (pieces ts))
    (ihstart : ∀ a rest, rest.length < ts.length → Starts a → Fits a (pieces rest) →
      CommandTokens rest)
    (ihend : ∀ x us rest, rest.length < ts.length → Ends x → OperandTokens us →
      Fits (some x) (pieces rest) → CommandTokens (us ++ rest)) : CommandTokens (us ++ ts) := by
  rcases ts with _ | ⟨t, rest⟩
  · rw [List.append_nil]
    exact .operand hus
  rw [List.length_cons] at ihstart ihend
  obtain ⟨-, hf, h⟩ := h.cons (by rw [Option.map_some, hx.follows]; rfl)
  rw [Option.map_some, hx.follows] at hf
  cases hk : kindOf t.word with
  | sequence =>
    rw [hk] at h
    exact .binary hus (.inr (kindOf_eq_sequence.1 hk))
      (ihstart _ rest (Nat.lt_succ_self _) (.inr ⟨_, rfl, .inl rfl⟩) h)
  | binary =>
    rw [hk] at h
    exact .binary hus (.inl (kindOf_eq_binary.1 hk))
      (ihstart _ rest (Nat.lt_succ_self _) (.inr ⟨_, rfl, .inr rfl⟩) h)
  | redirect =>
    rw [hk] at h
    rcases rest with _ | ⟨w, rest⟩
    · rw [pieces, fits_nil] at h
      cases h
    · obtain ⟨hw, hf, h⟩ := h.cons rfl
      have hkw : kindOf w.word = .word := by
        rw [← Option.some_inj]
        exact eq_of_beq hf
      have hop := OperandTokens.redirect hus (kindOf_eq_redirect.1 hk) (hw hkw)
      have hc := ihend _ _ rest (by rw [List.length_cons]; omega) (.inl hkw) hop h
      rwa [List.append_assoc] at hc
  | _ =>
    rw [hk] at hf
    cases hf

/-- Neighbours as in a command make one. -/
theorem Fits.command (n : Nat) : ∀ ts : List Token, ts.length ≤ n →
    (∀ a, Starts a → Fits a (pieces ts) → CommandTokens ts) ∧
    ∀ x us, Ends x → OperandTokens us → Fits (some x) (pieces ts) → CommandTokens (us ++ ts) := by
  induction n with
  | zero =>
    intro ts hlen
    obtain rfl := List.length_eq_zero_iff.1 (Nat.le_zero.1 hlen)
    refine ⟨fun a ha h => ?_, fun x us _ hus _ => ?_⟩
    · rw [pieces, fits_nil, ha.follows] at h
      cases h
    · rw [List.append_nil]
      exact .operand hus
  | succ n ih =>
    intro ts hlen
    refine ⟨fun a ha h => ?_, fun x us hx hus h => ?_⟩
    · rcases ts with _ | ⟨t, rest⟩
      · exact (ih [] (Nat.zero_le _)).1 a ha h
      rw [List.length_cons] at hlen
      by_cases ho : t.word = ['(']
      · rcases rest with _ | ⟨w, rest⟩
        · rw [pieces, if_pos ho, fits_cons, ha.follows] at h
          cases h.2.2.1
        · by_cases hw : w.word.head? = some ')'
          · rw [pieces_opened ho hw, fits_cons, ha.follows] at h
            cases h.2.2.1
          · rw [pieces_sub ho hw, fits_cons] at h
            obtain ⟨-, hb, -, h⟩ := h
            rcases rest with _ | ⟨c, rest⟩
            · rw [pieces, fits_nil] at h
              cases h
            · obtain ⟨-, hf, h⟩ := h.cons rfl
              have hk : kindOf c.word = .close := by
                rw [← Option.some_inj]
                exact eq_of_beq hf
              rw [List.length_cons, List.length_cons] at hlen
              exact (ih rest (by omega)).2 _ [t, w, c] (.inr hk)
                (.subshell ho (hb rfl) (kindOf_eq_close.1 hk)) h
      · rw [pieces_word ho, fits_cons, ha.follows] at h
        obtain ⟨hw, -, hf, h⟩ := h
        have hk : kindOf t.word = .word := by
          simpa [(kindOf_ne t.word).1] using hf
        exact (ih rest (by omega)).2 _ [t] (.inl hk) (.word (hw hk)) h
    · apply h.behind_operand hx hus
      · intro a rest hrest
        exact (ih rest (by omega)).1 a
      · intro x us rest hrest
        exact (ih rest (by omega)).2 x us

theorem commandTokens_iff_fits {ts : List Token} :
    CommandTokens ts ↔ Fits none (pieces ts) := by
  constructor
  · intro h
    exact h.fits (.inl rfl)
  · intro h
    exact (Fits.command ts.length ts (Nat.le_refl _)).1 none (.inl rfl) h

/-! ## Commands among what the tests accept -/

theorem mem_of_neighbours {a : Option Piece} {xs : List Piece} {p : Option Piece × Option Piece} :
    p ∈ neighbours a xs → (∀ x ∈ p.1, a = some x ∨ x ∈ xs) ∧ ∀ x ∈ p.2, x ∈ xs := by
  induction xs generalizing a with
  | nil =>
    intro h
    rw [List.mem_singleton.1 h]
    exact ⟨fun x hx => .inl hx, nofun⟩
  | cons y xs ih =>
    intro h
    rcases List.mem_cons.1 h with rfl | h
    · refine ⟨fun x hx => .inl hx, fun x hx => ?_⟩
      obtain rfl := Option.some_inj.1 hx
      exact List.mem_cons_self
    · obtain ⟨h1, h2⟩ := ih h
      refine ⟨fun x hx => .inr ?_, fun x hx => List.mem_cons_of_mem _ (h2 x hx)⟩
      rcases h1 x hx with he | hm
      · obtain rfl := Option.some_inj.1 he
        exact List.mem_cons_self
      · exact List.mem_cons_of_mem _ hm

/-- Where closing parentheses stand behind texts only, the flag `in_subshell` is set there. -/
theorem closes_of_follows {a : Option Piece} {b : Bool} {xs : List Piece}
    (h : ∀ p ∈ neighbours a xs, follows (p.1.map Prod.fst) (p.2.map Prod.fst) = true)
    (hb : a.map Prod.fst = some .sub → b = true) : closes b xs = true := by
  induction xs generalizing a b with
  | nil => rfl
  | cons x xs ih =>
    rw [closes, Bool.and_eq_true]
    constructor
    · have hx := h _ List.mem_cons_self
      cases hk : x.1 with
      | close =>
        rw [Option.map_some, hk] at hx
        have ha : a.map Prod.fst = some .sub := by
          rcases hak : a.map Prod.fst with _ | (_ | _ | _ | _ | _ | _ | _) <;> rw [hak] at hx <;>
            first | rfl | cases hx
        rw [hb ha]
        rfl
      | _ => rfl
    · apply ih (a := some x)
      · intro p hp
        exact h p (List.mem_cons_of_mem _ hp)
      · intro hs
        rw [Option.some_inj.1 hs]
        rfl

theorem any_isAngle {t : Token} (h : IsWordText t ∨ t.word = [')']) :
    t.word.any isAngle = false := by
  rcases h with h | h
  · rw [List.any_eq_false]
    intro c hc ha
    have hw := h c hc
    unfold isAngle at ha
    simp only [Bool.or_eq_true, beq_iff_eq] at ha
    rcases ha with rfl | rfl <;> cases hw
  · rw [h]
    rfl

/-- Two pieces that the tests see follow each other in a command if they pass and are not
loose. -/
theorem follows_iff {a b : Option Piece}
    (ha : ∀ x ∈ a, (x.1 = .word → IsWordText x.2) ∧ (x.1 = .close → x.2.word = [')']) ∧
      (x.1 = .redirect → x.2.word = ['<'] ∨ x.2.word = ['>'])) :
    follows (a.map Prod.fst) (b.map Prod.fst) = true ↔ (ahead a b = true ∧ behind a b = true) ∧
      loosePair (a.map Prod.fst) (b.map Prod.fst) = false := by
  rcases a with _ | ⟨k, t⟩
  · rcases b with _ | ⟨l, u⟩
    · decide
    · cases l <;> simp [follows, ahead, behind, loosePair]
  · obtain ⟨hw, hc, hr⟩ := ha _ rfl
    rcases b with _ | ⟨l, u⟩
    · cases k <;> simp [follows, ahead, behind, loosePair]
    by_cases hl : l = .sequence
    · -- the only test that looks into the characters
      have hplain : k = .word ∨ k = .close → t.word.any isAngle = false := fun hk =>
        any_isAngle (hk.imp hw hc)
      have hangle : k = .redirect → t.word.any isAngle = true := fun hk => by
        rcases hr hk with h | h <;> dsimp only at h <;> rw [h] <;> rfl
      have hb : behind (some (k, t)) (some (l, u)) = !t.word.any isAngle := by
        rw [hl]
        rfl
      rw [hb, hl]
      generalize t.word.any isAngle = v at hplain hangle
      cases k <;> cases v <;> simp [follows, ahead, loosePair] at hplain hangle ⊢
    · cases k <;> cases l <;> first
        | exact absurd rfl hl
        | simp [follows, ahead, behind, loosePair]

theorem IsWordText.isValidWord {t : Token} (h : IsWordText t) :
    OsLabs.Shell.isValidWord t.word = true := by
  unfold IsWordText at h
  generalize t.word = word at h
  fun_induction OsLabs.Shell.isValidWord word with
  | case1 => rfl
  | case2 c => exact h c (List.mem_singleton_self c)
  | case3 c d word ih =>
    rw [Bool.and_eq_true]
    refine ⟨h c List.mem_cons_self, ih fun e he => h e ?_⟩
    exact List.mem_cons_of_mem _ (List.mem_cons_of_mem _ he)

/-- The commands are the arrays that pass the tests with nothing loose. -/
theorem commandTokens_iff {ts : List Token} : CommandTokens ts ↔ Tested ts ∧ ¬ Loose ts := by
  induction hn : arraySize ts using Nat.strong_induction_on generalizing ts with
  | h n ih =>
  have ih (t : Token) (ht : (.sub, t) ∈ pieces ts) :
      CommandTokens (body t) ↔ Tested (body t) ∧ ¬ Loose (body t) := by
    apply ih (arraySize (body t)) _ rfl
    have h1 := length_of_sub ht
    have h2 := arraySize_live (tokenize t.word t.lineNum)
    have h3 := arraySize_tokenize t.word t.lineNum
    unfold body
    omega
  have hpiece (hwords : ∀ t, (.word, t) ∈ pieces ts → IsWordText t)
      {p : Option Piece × Option Piece} (hp : p ∈ neighbours none (pieces ts)) :
      ∀ x ∈ p.1, (x.1 = .word → IsWordText x.2) ∧ (x.1 = .close → x.2.word = [')']) ∧
        (x.1 = .redirect → x.2.word = ['<'] ∨ x.2.word = ['>']) := by
    rintro ⟨k, t⟩ hx
    have hm := ((mem_of_neighbours hp).1 _ hx).resolve_left nofun
    refine ⟨?_, ?_, ?_⟩
    · rintro rfl
      exact hwords t hm
    · rintro rfl
      exact kindOf_eq_close.1 ((kind_of_mem hm).resolve_left nofun |>.resolve_left nofun).symm
    · rintro rfl
      exact kindOf_eq_redirect.1 ((kind_of_mem hm).resolve_left nofun |>.resolve_left nofun).symm
  rw [commandTokens_iff_fits]
  constructor
  · intro h
    have htests (p) (hp : p ∈ neighbours none (pieces ts)) :=
      (follows_iff (hpiece h.words hp)).1 (h.follows p hp)
    constructor
    · refine .intro ⟨fun t ht => (h.words t ht).isValidWord, fun p hp => (htests p hp).1.1,
        fun p hp => (htests p hp).1.2, closes_of_follows h.follows nofun⟩ fun t ht => ?_
      exact ((ih t ht).1 (h.subs t ht)).1
    · rintro (⟨ht, hc⟩ | ⟨hp, hl⟩ | ⟨ht, hl⟩)
      · exact hc (h.words _ ht)
      · rw [(htests _ hp).2] at hl
        cases hl
      · exact ((ih _ ht).1 (h.subs _ ht)).2 hl
  · rintro ⟨⟨hp, hsub⟩, hl⟩
    have hwords (t : Token) (ht : (.word, t) ∈ pieces ts) : IsWordText t := by
      by_contra hc
      exact hl (.char ht hc)
    refine ⟨hwords, fun p hm => ?_, fun t ht => ?_⟩
    · rw [follows_iff (hpiece hwords hm)]
      refine ⟨⟨hp.ahead p hm, hp.behind p hm⟩, ?_⟩
      by_contra hc
      exact hl (.pair hm (Bool.not_eq_false _ ▸ hc))
    · exact (ih t ht).2 ⟨hsub t ht, fun h => hl (.sub ht h)⟩

/-- `validate` accepts exactly the commands among the arrays that fail a test or have nothing
loose. -/
theorem validate_meets_iff (ts : List Token) :
    (validate ts = .ok 1 ↔ CommandTokens (live ts)) ↔ ¬ (Tested (live ts) ∧ Loose (live ts)) := by
  rw [validate_iff, commandTokens_iff]
  tauto

/-- The second character of a word is not tested. -/
theorem validate_second_character :
    ∃ ts, live ts ≠ [] ∧ validate ts = .ok 1 ∧ ¬ CommandTokens (live ts) := by
  refine ⟨tokenize ['a', '$'] 1, by decide, by decide, ?_⟩
  rw [commandTokens_iff]
  rintro ⟨-, h⟩
  apply h
  refine .char (t := ⟨['a', '$'], 1⟩) (by decide) fun hc => ?_
  have := hc '$' (by decide)
  cases this

end OsLabs.Shell
