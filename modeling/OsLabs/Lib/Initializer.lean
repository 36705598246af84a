import OsLabs.Lib.Scan

/-!
# Initialized arrays in C text

A C text is cut into tokens (`lex`), a declaration is read from them
(`declaration`), and its initializer is evaluated (`elements`) as in C99 (6.7.8): an
item without designator initializes the element behind the previous one, `[n]=` goes
to element `n`, and what is not mentioned is 0. Only what a list of decimal constants
needs is read; the initializer may be empty.
-/

namespace OsLabs.Initializer

open Scan

/-- The bytes of an ASCII string. -/
def text (s : String) : List UInt8 := s.toList.map byte

/-! ## Tokens -/

inductive Token where
  | number (n : Nat)
  | ident (w : List UInt8)
  | lbrack
  | rbrack
  | lbrace
  | rbrace
  | equals
  | comma
  | semicolon
  deriving DecidableEq, Repr

def isDigit (c : UInt8) : Bool := byte '0' ≤ c && c ≤ byte '9'

def isWord (c : UInt8) : Bool :=
  isDigit c || (byte 'a' ≤ c && c ≤ byte 'z') || (byte 'A' ≤ c && c ≤ byte 'Z') || c == byte '_'

def isBlank (c : UInt8) : Bool := c == byte ' ' || (9 ≤ c && c ≤ 13)

def punct (c : UInt8) : Option Token :=
  if c = byte '[' then some .lbrack
  else if c = byte ']' then some .rbrack
  else if c = 123 then some .lbrace
  else if c = 125 then some .rbrace
  else if c = byte '=' then some .equals
  else if c = byte ',' then some .comma
  else if c = byte ';' then some .semicolon
  else none

/-- A step of reading a decimal constant; a constant that begins with 0 is octal. -/
def digitStep (s : Option Nat) (c : UInt8) : Option (Option Nat) :=
  if !isDigit c || s = some 0 then none else some (some (10 * s.getD 0 + (c.toNat - 48)))

/-- The token that a run of word characters is. -/
def word (w : List UInt8) : Option Token :=
  if w.head?.any isDigit then ((w.foldlM digitStep none).bind id).map .number else some (.ident w)

/-- A run of word characters ends in front of the tokens `ts`. -/
def endWord (w : List UInt8) (ts : Option (List Token)) : Option (List Token) :=
  if w = [] then ts else (word w).bind fun t => ts.map (t :: ·)

/-- The tokens of a text behind the word characters `w`. -/
def lexFrom : List UInt8 → List UInt8 → Option (List Token)
  | w, [] => endWord w (some [])
  | w, c :: l =>
    if isWord c then lexFrom (w ++ [c]) l
    else if isBlank c then endWord w (lexFrom [] l)
    else endWord w ((punct c).bind fun t => (lexFrom [] l).map (t :: ·))

def lex (l : List UInt8) : Option (List Token) := lexFrom [] l

/-! ## Declarations -/

structure Item where
  designator : Option Nat
  value : Nat
  deriving DecidableEq, Repr

/-- The items up to the end of the declaration. -/
def items : List Token → Option (List Item)
  | .rbrace :: .semicolon :: _ => some []
  | .lbrack :: .number i :: .rbrack :: .equals :: .number v :: .comma :: l =>
    (items l).map (⟨some i, v⟩ :: ·)
  | .number v :: .comma :: l => (items l).map (⟨none, v⟩ :: ·)
  | .lbrack :: .number i :: .rbrack :: .equals :: .number v :: .rbrace :: .semicolon :: _ =>
    some [⟨some i, v⟩]
  | .number v :: .rbrace :: .semicolon :: _ => some [⟨none, v⟩]
  | _ => none

/-- The declared length and the items of the array of a type of two words. -/
def declaration (type : List UInt8 × List UInt8) : List Token → Option (Nat × List Item)
  | .ident s :: .ident t :: .ident _ :: .lbrack :: .number n :: .rbrack :: .equals :: .lbrace ::
      l =>
    if (s, t) = type then (items l).map (n, ·) else none
  | _ => none

/-! ## Evaluation -/

variable {α : Type}

/-- An item is stored; the state is the elements and the index of the next one. -/
def store (conv : Nat → α) (s : List α × Nat) (item : Item) : Option (List α × Nat) :=
  let i := item.designator.getD s.2
  if i < s.1.length then some (s.1.set i (conv item.value), i + 1) else none

/-- The elements of an array of the given length. -/
def elements (conv : Nat → α) (len : Nat) (l : List Item) : Option (List α) :=
  (l.foldlM (store conv) (List.replicate len (conv 0), 0)).map Prod.fst

/-- The array that a C text beginning with its declaration defines. -/
def ucharArray (l : List UInt8) : Option (List UInt8) := do
  let (len, is) ← declaration (text "unsigned", text "char") (← lex l)
  elements UInt8.ofNat len is

/-! ## Reading tokens back -/

variable {c : UInt8} {w l : List UInt8} {t : Token} {ts : List Token}

theorem lexFrom_append {v : List UInt8} (hw : w.all isWord = true) (l : List UInt8) :
    lexFrom v (w ++ l) = lexFrom (v ++ w) l := by
  induction w generalizing v with
  | nil => rw [List.append_nil, List.nil_append]
  | cons c w ih =>
    rw [List.all_cons, Bool.and_eq_true] at hw
    rw [List.cons_append, lexFrom, if_pos hw.1, ih hw.2, List.append_assoc, List.singleton_append]

theorem head_not_word (hc : isWord c = false) : ∀ d ∈ (c :: l).head?, isWord d = false := by
  intro d hd
  obtain rfl : c = d := Option.some.inj hd
  exact hc

/-- A run of word characters that ends is a token. -/
theorem lex_word (hw : w.all isWord = true) (hne : w ≠ []) (ht : word w = some t)
    (hl : ∀ c ∈ l.head?, isWord c = false) (hts : lex l = some ts) :
    lex (w ++ l) = some (t :: ts) := by
  have hend : lexFrom w l = endWord w (lex l) := by
    cases l with
    | nil => rfl
    | cons c l =>
      have hc := hl c rfl
      simp only [lex, lexFrom, hc, Bool.false_eq_true, if_false]
      split <;> rfl
  unfold lex
  rw [lexFrom_append hw, List.nil_append, hend, hts]
  unfold endWord
  rw [if_neg hne, ht]
  rfl

theorem lex_punct (hw : isWord c = false) (hb : isBlank c = false) (ht : punct c = some t)
    (hts : lex l = some ts) : lex (c :: l) = some (t :: ts) := by
  unfold lex at hts ⊢
  rw [lexFrom, if_neg (by rw [hw]; decide), if_neg (by rw [hb]; decide), ht, hts]
  rfl

theorem lex_blank (hw : isWord c = false) (hb : isBlank c = true) (hts : lex l = some ts) :
    lex (c :: l) = some ts := by
  unfold lex at hts ⊢
  rw [lexFrom, if_neg (by rw [hw]; decide), if_pos hb, hts]
  rfl

theorem isDigit_digit : ∀ {d : Nat}, d < 10 → isDigit (digit d) = true := by decide

theorem decimal_all_isDigit (n : Nat) : (decimal n).all isDigit = true := by
  induction n using Nat.strongRecOn with
  | _ n ih =>
    by_cases hn : n < 10
    · rw [decimal_of_lt hn, List.all_cons, isDigit_digit hn]
      rfl
    · rw [decimal_of_le (by omega), List.all_append, ih _ (by omega), List.all_cons,
        isDigit_digit (Nat.mod_lt _ (by decide))]
      rfl

/-- The digits of a number are read as that number. -/
theorem foldlM_digitStep (n : Nat) : (decimal n).foldlM digitStep none = some (some n) := by
  induction n using Nat.strongRecOn with
  | _ n ih =>
    have hstep : ∀ (s : Option Nat) (d : Nat), d < 10 → s ≠ some 0 →
        digitStep s (digit d) = some (some (10 * s.getD 0 + d)) := by
      intro s d hd hs
      unfold digitStep
      rw [isDigit_digit hd, digit_toNat hd]
      simp [hs]
    by_cases hn : n < 10
    · rw [decimal_of_lt hn, List.foldlM_cons, hstep none n hn nofun]
      simp
    · rw [decimal_of_le (by omega), List.foldlM_append, ih _ (by omega)]
      have hd := hstep (some (n / 10)) (n % 10) (Nat.mod_lt _ (by decide)) fun h => by
        rw [Option.some.injEq] at h
        omega
      show List.foldlM digitStep (some (n / 10)) [digit (n % 10)] = _
      rw [List.foldlM_cons, hd]
      have hsum : 10 * (n / 10) + n % 10 = n := by omega
      simp [hsum]

theorem word_decimal (n : Nat) : word (decimal n) = some (.number n) := by
  have hhead : (decimal n).head?.any isDigit = true := by
    obtain ⟨d, l, hd, he⟩ := decimal_head n
    rw [he]
    exact isDigit_digit hd
  unfold word
  rw [if_pos hhead, foldlM_digitStep]
  rfl

theorem lex_decimal (n : Nat) (hl : ∀ c ∈ l.head?, isWord c = false) (hts : lex l = some ts) :
    lex (decimal n ++ l) = some (.number n :: ts) := by
  refine lex_word ?_ ?_ (word_decimal n) hl hts
  · exact List.all_eq_true.2 fun c hc => by
      have := List.all_eq_true.1 (decimal_all_isDigit n) c hc
      simp [isWord, this]
  · obtain ⟨d, l, -, he⟩ := decimal_head n
    rw [he]
    exact List.cons_ne_nil _ _

/-! ## Reading items back -/

/-- The tokens of an item and the comma behind it. -/
def Item.tokens : Item → List Token
  | ⟨some i, v⟩ => [.lbrack, .number i, .rbrack, .equals, .number v, .comma]
  | ⟨none, v⟩ => [.number v, .comma]

theorem items_tokens (is : List Item) (ts : List Token) :
    items (is.flatMap Item.tokens ++ .rbrace :: .semicolon :: ts) = some is := by
  induction is with
  | nil => rfl
  | cons item is ih =>
    rw [List.flatMap_cons, List.append_assoc]
    obtain ⟨_ | i, v⟩ := item
    · show (items (is.flatMap Item.tokens ++ _)).map _ = _
      rw [ih]
      rfl
    · show (items (is.flatMap Item.tokens ++ _)).map _ = _
      rw [ih]
      rfl

/-! ## Storing behind elements that are still 0 -/

/-- An item for element `q.length + k`, with `k` elements not mentioned in front of it. -/
theorem store_behind (conv : Nat → α) (q : List α) (k m next : Nat) (item : Item)
    (hi : item.designator.getD next = q.length + k) :
    store conv (q ++ List.replicate (k + (m + 1)) (conv 0), next) item =
      some ((q ++ List.replicate k (conv 0) ++ [conv item.value]) ++ List.replicate m (conv 0),
        q.length + k + 1) := by
  have hset : (q ++ List.replicate (k + (m + 1)) (conv 0)).set (q.length + k) (conv item.value) =
      (q ++ List.replicate k (conv 0) ++ [conv item.value]) ++ List.replicate m (conv 0) := by
    rw [List.replicate_add, ← List.append_assoc, List.set_append_right _ _ (by simp),
      List.replicate_succ]
    simp
  unfold store
  simp only [hi]
  rw [if_pos (by simp), hset]

/-- Zeros without designator change nothing. -/
theorem foldlM_zeros (conv : Nat → α) (q : List α) (k m : Nat) :
    (List.replicate k (⟨none, 0⟩ : Item)).foldlM (store conv)
        (q ++ List.replicate (k + m) (conv 0), q.length) =
      some (q ++ List.replicate (k + m) (conv 0), q.length + k) := by
  induction k generalizing q with
  | zero => rfl
  | succ k ih =>
    have hzero := store_behind conv q 0 (k + m) q.length ⟨none, 0⟩ rfl
    rw [Nat.zero_add, List.replicate_zero, List.append_nil, Nat.add_zero] at hzero
    have hk : k + 1 + m = k + m + 1 := by omega
    rw [List.replicate_succ, List.foldlM_cons, hk, hzero]
    have hnext := ih (q ++ [conv 0])
    rw [List.length_append, List.length_singleton] at hnext
    show List.foldlM _ _ _ = _
    rw [hnext, List.append_assoc, List.replicate_succ, List.singleton_append]
    have hlen : q.length + 1 + k = q.length + (k + 1) := by omega
    rw [hlen]

end OsLabs.Initializer
