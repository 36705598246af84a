import OsLabs.Shell.Reading

/-!
# Shell scripts: what the parser stores to

The stores that `makeSeparation`, `tokenize`, `make_token` and `make_simple_command`
make in a run of `make_commands`, each with the room of its target. A function that
calls others is followed through with their stores (`Logged`); that its result is the
one it has without them is a theorem. `make_token` allocates a record of the size of a
pointer to it, so no call of `tokenize` stays inside (`tokenizeStores_overrun`).
-/

namespace OsLabs.Shell

/-- Where a store goes. -/
inductive Target where
  /-- An allocation of this many bytes, or an array of this many elements. -/
  | heap (size : Nat)
  | array (size : Nat)
  /-- `word`, `atLine` and `m_separation`, of `MAXLINE` elements. -/
  | word
  | atLine
  | separation
  /-- `buffer` of `tokenize`, and its `token_array`. -/
  | buffer
  | tokenArray (size : Nat)
  /-- `str` of `make_simple_command` and one of its rows. -/
  | str
  | row
  deriving DecidableEq, Repr

def Target.size : Target → Nat
  | heap size => size
  | array size => size
  | word => 100
  | atLine => 100
  | separation => 100
  | buffer => 128
  | tokenArray size => size
  | str => 128
  | row => 128

/-- A store to `count` elements or bytes, from `first` on. -/
structure Store where
  target : Target
  first : Int
  count : Nat
  deriving DecidableEq, Repr

def Store.Inside (st : Store) : Prop := 0 ≤ st.first ∧ st.first + st.count ≤ st.target.size

instance (st : Store) : Decidable st.Inside := inferInstanceAs (Decidable (_ ∧ _))

/-- A result, with the stores made on the way to it. -/
structure Logged (α : Type) where
  val : α
  stores : List Store

/-- A string with its NUL, to an allocation of this size. -/
def strcpyTo (size : Nat) (text : Text) : Store := ⟨.heap size, 0, text.length + 1⟩

/-! ## `tokenize` and `make_token` -/

/-- `sizeof (token_t)`; a `token_t` is a pointer to a `struct token`. -/
def sizeofTokenT : Nat := 8

/-- The member `word` of a record allocated for a token, and its member `line_num`. -/
def wordMember : Store := ⟨.heap sizeofTokenT, 0, 8⟩
def lineNumMember : Store := ⟨.heap sizeofTokenT, 8, 4⟩

/-- `make_token`. -/
def makeTokenStores (room tokenIndex : Nat) (word : Text) : List Store :=
  [⟨.heap 64, 0, 64⟩, strcpyTo 64 word, ⟨.tokenArray room, tokenIndex, 1⟩, wordMember,
    lineNumMember]

/-- `strcat` of one character to a buffer of this length, by way of `tmp`. -/
def strcatStores (length : Nat) : List Store := [⟨.array 2, 0, 2⟩, ⟨.buffer, length, 2⟩]

namespace Tokenizer

variable (room : Nat) (lineNum : Int)

/-- One iteration: `make_token` for every token it adds, and `strcat` where the buffer grows. The
buffer is cleared after it has been copied to a token. -/
def iterStores (s : Tokenizer) (c1 c2 : Char) : List Store :=
  let t := (s.iter lineNum c1 c2).1
  (((t.tokenArray.drop s.tokenArray.length).zipIdx s.tokenArray.length).flatMap fun made =>
    makeTokenStores room made.2 made.1.word) ++
  (if s.buffer.length < t.buffer.length then strcatStores s.buffer.length else []) ++
  (if t.buffer.length < s.buffer.length then [⟨.buffer, 0, 128⟩] else [])

def loopStores : Tokenizer → Text → List Store
  | _, [] => []
  | s, [c1] => s.iterStores room lineNum c1 ' '
  | s, c1 :: c2 :: text =>
    let r := s.iter lineNum c1 c2
    s.iterStores room lineNum c1 c2 ++
      if r.2 then loopStores r.1 text else loopStores r.1 (c2 :: text)

end Tokenizer

/-- `tokenize`, to an array with room for this many tokens. -/
def tokenizeStores (room : Nat) (commandTree : Text) (lineNum : Int) : List Store :=
  let s := Tokenizer.loop lineNum {} commandTree
  [⟨.buffer, 0, 128⟩, ⟨.buffer, 0, 1⟩] ++ Tokenizer.loopStores room lineNum {} commandTree ++
    (if 0 < s.buffer.length then makeTokenStores room s.tokenArray.length s.buffer else []) ++
    [⟨.tokenArray room, (tokenize commandTree lineNum).length, 1⟩, lineNumMember]

/-! ## `validate_all` -/

/-- The loop of `validate`; `sub` validates the token array of a subshell, which has room for 128
tokens. -/
def validateLoopLog (sub : List Token → Logged (Except Int Int)) (len : Int) :
    Option Token → Bool → List Token → Logged (Except Int Int)
  | _, _, [] => ⟨.ok 1, []⟩
  | prev, inSubshell, t :: rest =>
    if !isValidOperator t.word && !isValidWord t.word then ⟨.error t.lineNum, []⟩
    else if t.word.head? = some '(' then
      match rest with
      | [] => ⟨.error len, []⟩
      | w :: rest' =>
        if w.word.head? ≠ some ')' then
          let made := tokenizeStores 128 w.word w.lineNum
          let v := sub (tokenize w.word w.lineNum)
          match v.val with
          | .error line => ⟨.error line, made ++ v.stores⟩
          | .ok res =>
            let next :=
              if res ≠ 0 then validateLoopLog sub len (some w) true rest'
              else validateLoopLog sub len (some t) true (w :: rest')
            ⟨next.val, made ++ v.stores ++ next.stores⟩
        else validateLoopLog sub len (some t) true (w :: rest')
    else if t.word.head? = some ')' then
      if prev.isNone then ⟨.error 0, []⟩
      else if inSubshell then validateLoopLog sub len (some t) false rest
      else ⟨.error t.lineNum, []⟩
    else
      match binaryError prev t rest.head?, redirectError prev t rest.head? with
      | some line, _ => ⟨.error line, []⟩
      | none, some line => ⟨.error line, []⟩
      | none, none => validateLoopLog sub len (some t) inSubshell rest

def validateAuxLog : Nat → List Token → Logged (Except Int Int)
  | 0, _ => ⟨.error 0, []⟩
  | n + 1, tokenArray =>
    validateLoopLog (validateAuxLog n) (live tokenArray).length none false (live tokenArray)

def validateLog (tokenArray : List Token) : Logged (Except Int Int) :=
  validateAuxLog (arraySize tokenArray + 1) tokenArray

def validateAllLog : List Separation → Logged (Except Int Int)
  | [] => ⟨.ok 1, []⟩
  | c :: rest =>
    if c.mLine = -1 then ⟨.ok 1, []⟩
    else
      let made := tokenizeStores 128 c.mCmd c.mLine
      let v := validateLog (tokenize c.mCmd c.mLine)
      match v.val with
      | .error line => ⟨.error line, made ++ v.stores⟩
      | .ok res =>
        let others := validateAllLog rest
        ⟨others.val.map fun o => if res = 0 then 0 else o, made ++ v.stores ++ others.stores⟩

/-! ## `make_commands` -/

/-- `make_simple_command`: the words collected in `str`, and their copies. -/
def makeSimpleCommandStores (token : Text) : List Store :=
  let words := if token = [] then [] else splitWords (some []) token
  (words.zipIdx.flatMap fun w =>
    if w.1 = [] then [] else [⟨.str, w.2, 1⟩, ⟨.row, 0, w.1.length + 1⟩]) ++
  ⟨.heap (words.length * 128), 0, words.length * 128⟩ :: words.zipIdx.flatMap fun w =>
    [⟨.heap (words.length * 128), 8 * w.2, 8⟩, strcpyTo (w.1.length + 1) w.1]

/-- The loop of `make_command`. The array for the tokens of a subshell has `sizeof (struct token)`
bytes for each of 128. -/
def makeCommandLoopLog (sub : List Token → Logged (Option Command)) (line : Int) :
    Option Text → List Token → List Text → List Command → Logged (Option Command)
  | _, [], opers, cmds => ⟨finish line opers cmds, []⟩
  | prev, t :: rest, opers, cmds =>
    if t.lineNum = -1 then ⟨finish line opers cmds, []⟩
    else
      let token := eatTailWhiteSpace t.word
      if token = ['<'] then
        match rest, cmds with
        | w :: rest, c :: cmds =>
          makeCommandLoopLog sub line (some w.word) rest opers
            (c.mapIo (fun io => { io with input := some (eatTailWhiteSpace w.word) }) :: cmds)
        | _, _ => ⟨none, []⟩
      else if token = ['>'] then
        match rest, cmds with
        | w :: rest, c :: cmds =>
          makeCommandLoopLog sub line (some w.word) rest opers
            (c.mapIo (fun io => { io with output := some (eatTailWhiteSpace w.word) }) :: cmds)
        | _, _ => ⟨none, []⟩
      else if token = [')'] then
        match opers, cmds with
        | oper :: opers, c :: cmds =>
          if oper = ['('] then
            makeCommandLoopLog sub line (some t.word) rest opers
              (makeSubshellCommand c line :: cmds)
          else ⟨none, []⟩
        | _, _ => ⟨none, []⟩
      else if isOperator token then
        match popOperators line token opers cmds with
        | none => ⟨none, []⟩
        | some r => makeCommandLoopLog sub line (some t.word) rest (token :: r.1) r.2
      else if prev = some ['('] then
        let made := tokenizeStores 256 token t.lineNum
        let v := sub (tokenize token t.lineNum)
        match v.val with
        | none => ⟨none, made ++ v.stores⟩
        | some c =>
          let next := makeCommandLoopLog sub line (some t.word) rest opers (c.setLine line :: cmds)
          ⟨next.val, made ++ v.stores ++ next.stores⟩
      else
        let next := makeCommandLoopLog sub line (some t.word) rest opers
          (makeSimpleCommand token line :: cmds)
        ⟨next.val, makeSimpleCommandStores token ++ next.stores⟩

def makeCommandAuxLog : Nat → List Token → Logged (Option Command)
  | 0, _ => ⟨none, []⟩
  | n + 1, tokenArray =>
    makeCommandLoopLog (makeCommandAuxLog n) ((tokenArray.map Token.lineNum).headD (-1)) none
      tokenArray [] []

def makeCommandLog (tokenArray : List Token) : Logged (Option Command) :=
  makeCommandAuxLog (arraySize tokenArray + 1) tokenArray

/-- The loop of `make_commands`. -/
def makeAllLog : List Separation → Logged (Option (List Command))
  | [] => ⟨some [], []⟩
  | c :: rest =>
    if c.mLine = -1 then ⟨some [], []⟩
    else
      let made := tokenizeStores 256 c.mCmd c.mLine
      let v := makeCommandLog (tokenize c.mCmd c.mLine)
      match v.val with
      | none => ⟨none, made ++ v.stores⟩
      | some cmd =>
        let others := makeAllLog rest
        ⟨others.val.map (cmd.setLine c.mLine :: ·), made ++ v.stores ++ others.stores⟩

/-! ## `makeSeparation` -/

/-- `str_append` to a string of this length. -/
def strAppendStores (length : Nat) : List Store :=
  [⟨.heap (length + 2), 0, length + 1⟩, ⟨.heap (length + 2), length, 1⟩,
    ⟨.heap (length + 2), length + 1, 1⟩]

/-- `word[countWord]` is given `sizeof(str)+1` bytes, which are cleared, and then the text. -/
def wordStores (countWord : Nat) : List Store :=
  [⟨.word, countWord, 1⟩, ⟨.heap 9, 0, 9⟩, ⟨.word, countWord, 1⟩]

namespace Separator

variable (s : Separator) (g : Char)

def breakOffStores : List Store := wordStores s.word.length ++ [⟨.atLine, s.word.length, 1⟩]

def otherStores : List Store :=
  strAppendStores s.str.length ++ if s.headFlag then [⟨.atLine, 0, 1⟩] else []

def newlineStores : List Store :=
  if s.preCh.getD g = '\n' ∧ 0 < s.str.length then wordStores s.word.length
  else if 0 < s.str.length then
    strAppendStores s.str.length ++ (if s.newWordFlag then [⟨.atLine, s.word.length, 1⟩] else []) ++
      if s.headFlag then [⟨.atLine, 0, 1⟩] else []
  else []

def tailStores (ch : Char) : List Store := if ch = '\n' then s.newlineStores g else s.otherStores

def stepStores (ch : Char) : List Store :=
  match s.reading with
  | .stopped => []
  | .top =>
    if ch = eof then []
    else if isBlank ch && s.newLineFlag then []
    else if ch = '#' then []
    else if ch = '(' then strAppendStores s.str.length
    else s.tailStores g ch
  | .comment => []
  | .paren =>
    if ch = eof then s.breakOffStores
    else if ch = '#' then []
    else strAppendStores s.str.length
  | .parenComment => []
  | .behind => if ch = eof then s.breakOffStores else s.tailStores g ch

def readStores : Separator → Text → List Store
  | _, [] => []
  | s, ch :: text => s.stepStores g ch ++ readStores (s.step g ch) text

/-- Behind the loop over the file; `front` is the `int` in front of `atLine`. -/
def finishStores (front : Int) : List Store :=
  let t := s.read g [eof, eof]
  let t' := if t.str ≠ [] then { t with word := t.word ++ [t.str], newWordFlag := true } else t
  s.readStores g [eof, eof] ++ (if t.str ≠ [] then wordStores t.word.length else []) ++
    if t'.word = [] then if front = 0 then [⟨.atLine, -1, 1⟩] else []
    else if t'.atLine (t'.word.length - 1) = 0 then [⟨.atLine, (t'.word.length - 1 : Nat), 1⟩]
    else []

/-- The marks in `merge`, and the NUL over the newline at the end of a text. -/
def mergeStores : List Store :=
  s.word.zipIdx.flatMap fun w =>
    (if w.1.getLast? = some '\n' then [⟨.heap (w.1.length + 1), (w.1.length - 1 : Nat), 1⟩]
      else []) ++ [⟨.array (s.word.length + 1), w.2, 1⟩]

end Separator

/-- The strings of `commandStr`: `cpyLen+1` bytes for texts that are joined. -/
def commandStrStores : Option (List Text) → List Text → List Store
  | none, [] => []
  | some texts, [] =>
    [⟨.heap (texts.flatten.length + 1), 0, texts.flatten.length + 1⟩,
      strcpyTo (texts.flatten.length + 1) (texts.take ((texts.length + 1) / 2)).flatten]
  | none, w :: words =>
    if tailingOperator w then commandStrStores (some [w]) words
    else strcpyTo (w.length + 1) w :: commandStrStores none words
  | some texts, w :: words =>
    if tailingOperator w then commandStrStores (some (texts ++ [w])) words
    else
      let total := (texts ++ [w]).flatten
      ⟨.heap (total.length + 1), 0, total.length + 1⟩ :: strcpyTo (total.length + 1) total ::
        commandStrStores none words

/-- A record `m_separation[i]`, of the size of a `Separation`, with its text. -/
def recordStores (i : Nat) (cmd : Text) : List Store :=
  [⟨.separation, i, 1⟩, ⟨.heap 16, 0, 8⟩, strcpyTo (cmd.length + 1) cmd, ⟨.heap 16, 8, 4⟩]

/-- `commandStr` and `newAtLine`, and then `m_separation` with the record at its end. -/
def separationStores (separations : List Separation) : List Store :=
  (separations.zipIdx.flatMap fun c =>
    [⟨.array separations.length, c.2, 1⟩, ⟨.array separations.length, c.2, 1⟩]) ++
  (separations.zipIdx.flatMap fun c => recordStores c.2 c.1.mCmd) ++
  recordStores separations.length "this is the end".toList

def makeSeparationStores (g : Locals) (front : Int) (script : Text) : List Store :=
  let s := Separator.read { atLine := g.atLine } g.preCh script
  Separator.readStores g.preCh { atLine := g.atLine } script ++ s.finishStores g.preCh front ++
    (s.finish g.preCh).mergeStores ++
    commandStrStores none ((s.finish g.preCh).lines.map Prod.fst) ++
    separationStores (makeSeparation g script)

/-- What a run of `make_commands` stores. -/
def parserStores (g : Locals) (front : Int) (script : Text) : List Store :=
  let separations := makeSeparation g script
  let v := validateAllLog separations
  makeSeparationStores g front script ++ v.stores ++
    match v.val with
    | .error _ => []
    | .ok res => if res = 0 then [] else (makeAllLog separations).stores

/-- On this script every store stays inside its target, whatever the variables hold that are read
before they are written. -/
def StaysInside (script : Text) : Prop :=
  ∀ g front, ∀ st ∈ parserStores g front script, st.Inside

/-- The other targets hold what is stored to them: only `line_num` of the token records, which
lies behind the bytes allocated for them, is written outside. -/
def WithinBuffers (g : Locals) (front : Int) (script : Text) : Prop :=
  ∀ st ∈ parserStores g front script, st.Inside ∨ st = lineNumMember

instance (g : Locals) (front : Int) (script : Text) : Decidable (WithinBuffers g front script) :=
  inferInstanceAs (Decidable (∀ st ∈ _, _))

/-- `make_commands` with its buffers. `none`: one of them is overrun. -/
def makeCommandsIn (g : Locals) (front : Int) (script : Text) :
    Option (Except Int (Option (List Command))) :=
  if WithinBuffers g front script then some (makeCommands g script) else none

/-! ## The results without the stores -/

theorem validateLoopLog_val {sub : List Token → Logged (Except Int Int)}
    {sub' : List Token → Except Int Int} (h : ∀ ts, (sub ts).val = sub' ts) {len : Int}
    (ts : List Token) (prev : Option Token) (inSubshell : Bool) :
    (validateLoopLog sub len prev inSubshell ts).val =
      validateLoop sub' len prev inSubshell ts := by
  fun_induction validateLoop sub' len prev inSubshell ts
  all_goals
    unfold validateLoopLog
    grind

theorem validateAuxLog_val (n : Nat) (ts : List Token) :
    (validateAuxLog n ts).val = validateAux n ts := by
  induction n generalizing ts with
  | zero => rfl
  | succ n ih => exact validateLoopLog_val ih _ _ _

theorem validateAllLog_val (cs : List Separation) : (validateAllLog cs).val = validateAll cs := by
  induction cs with
  | nil => rfl
  | cons c rest ih =>
    have hv : (validateLog (tokenize c.mCmd c.mLine)).val = validate (tokenize c.mCmd c.mLine) :=
      validateAuxLog_val _ _
    unfold validateAllLog validateAll
    dsimp only
    rw [← hv, ← ih]
    split
    · rfl
    · cases (validateLog (tokenize c.mCmd c.mLine)).val with
      | error line => rfl
      | ok res => cases (validateAllLog rest).val <;> rfl

theorem makeCommandLoopLog_val {sub : List Token → Logged (Option Command)}
    {sub' : List Token → Option Command} (h : ∀ ts, (sub ts).val = sub' ts) {line : Int}
    (prev : Option Text) (ts : List Token) (opers : List Text) (cmds : List Command) :
    (makeCommandLoopLog sub line prev ts opers cmds).val =
      makeCommandLoop sub' line prev ts opers cmds := by
  fun_induction makeCommandLoopLog sub line prev ts opers cmds
  all_goals
    unfold makeCommandLoop
    grind

theorem makeCommandAuxLog_val (n : Nat) (ts : List Token) :
    (makeCommandAuxLog n ts).val = makeCommandAux n ts := by
  induction n generalizing ts with
  | zero => rfl
  | succ n ih => exact makeCommandLoopLog_val ih _ _ _ _

theorem makeAllLog_val (cs : List Separation) : (makeAllLog cs).val = makeAll cs := by
  induction cs with
  | nil => rfl
  | cons c rest ih =>
    have hv : (makeCommandLog (tokenize c.mCmd c.mLine)).val =
        makeCommand (tokenize c.mCmd c.mLine) :=
      makeCommandAuxLog_val _ _
    unfold makeAllLog makeAll
    dsimp only
    rw [← hv, ← ih]
    split
    · rfl
    · cases (makeCommandLog (tokenize c.mCmd c.mLine)).val with
      | none => rfl
      | some cmd => cases (makeAllLog rest).val <;> rfl

/-! ## Scripts without a text -/

/-- Nothing but blanks, newlines and comments stands in front of the end of the script. -/
def textless : (inComment : Bool) → Text → Bool
  | _, [] => true
  | true, ch :: script => textless (ch != '\n' && ch != eof) script
  | false, ch :: script =>
    ch == eof || ch == '#' && textless true script ||
      (isBlank ch || ch == '\n') && textless false script

namespace Separator

variable {g ch : Char} {s : Separator}

/-- No text has been met. -/
structure Untouched (s : Separator) : Prop where
  word : s.word = []
  str : s.str = []
  flag : s.newLineFlag = true

/-- The loop over the file, or the one over a comment. -/
def between (inComment : Bool) : Reading := if inComment then .comment else .top

theorem untouched_start (atLine : Nat → Int) : Untouched { atLine := atLine } := ⟨rfl, rfl, rfl⟩

theorem Untouched.newline (h : s.Untouched) :
    (s.newline g).Untouched ∧ (s.newline g).reading = .top ∧ s.newlineStores g = [] := by
  have hstr : ¬ 0 < s.str.length := by
    rw [h.str]
    exact Nat.lt_irrefl 0
  unfold Separator.newline newlineStores
  rw [if_neg fun hc => hstr hc.2, if_neg hstr, if_neg fun hc => hstr hc.2, if_neg hstr]
  exact ⟨⟨h.word, h.str, rfl⟩, rfl, rfl⟩

/-- Behind the end of the file nothing happens. -/
theorem read_stopped (h : s.reading = .stopped) (script : Text) :
    s.read g script = s ∧ s.readStores g script = [] := by
  induction script with
  | nil => exact ⟨rfl, rfl⟩
  | cons ch script ih =>
    have hstep : s.step g ch = s := by
      unfold step
      rw [h]
    have hstores : s.stepStores g ch = [] := by
      unfold stepStores
      rw [h]
    unfold readStores
    rw [read_cons, hstep, hstores]
    exact ih

/-- Some text has been met. -/
def HasText (s : Separator) : Prop := s.word ≠ [] ∨ s.str ≠ []

theorem hasText_inside (s : Separator) (ch : Char) : (s.inside ch).HasText :=
  .inr (List.append_ne_nil_of_right_ne_nil _ (List.cons_ne_nil ch []))

theorem hasText_other (s : Separator) (ch : Char) : (s.other ch).HasText :=
  .inr (List.append_ne_nil_of_right_ne_nil _ (List.cons_ne_nil ch []))

theorem hasText_breakOff (s : Separator) : s.breakOff.HasText :=
  .inl (List.append_ne_nil_of_right_ne_nil _ (List.cons_ne_nil s.str []))

theorem HasText.newline (h : s.HasText) : (s.newline g).HasText := by
  unfold Separator.newline
  dsimp only
  split
  · exact .inl (List.append_ne_nil_of_right_ne_nil _ (List.cons_ne_nil s.str []))
  · split
    · exact .inr (List.append_ne_nil_of_right_ne_nil _ (List.cons_ne_nil '\n' []))
    · exact h

theorem HasText.tail (h : s.HasText) (ch : Char) : (s.tail g ch).HasText := by
  unfold Separator.tail
  split_ifs
  · exact h.newline
  · exact hasText_other s ch

theorem HasText.step (h : s.HasText) (ch : Char) : (s.step g ch).HasText := by
  unfold Separator.step
  cases s.reading with
  | stopped => exact h
  | top =>
    dsimp only
    split_ifs
    · exact h
    · exact h
    · exact h
    · exact hasText_inside _ ch
    · exact h.tail ch
  | comment =>
    dsimp only
    split_ifs
    · exact h
    · exact h
  | paren =>
    dsimp only
    split_ifs
    · exact hasText_breakOff s
    · exact h
    · exact hasText_inside s ch
  | parenComment =>
    dsimp only
    split_ifs
    · exact h
    · exact h
  | behind =>
    dsimp only
    split_ifs
    · exact hasText_breakOff s
    · exact h.tail ch

theorem HasText.read (h : s.HasText) (script : Text) : (s.read g script).HasText := by
  induction script generalizing s with
  | nil => exact h
  | cons ch script ih => exact ih (h.step ch)

theorem step_top (h : s.reading = .top) : s.step g ch =
    if ch = eof then { s with reading := .stopped }
    else if isBlank ch && s.newLineFlag then s
    else if ch = '#' then { s with reading := .comment }
    else if ch = '(' then { s with badLine := s.countLine }.inside ch
    else s.tail g ch := by
  unfold step
  rw [h]

theorem stepStores_top (h : s.reading = .top) : s.stepStores g ch =
    if ch = eof then []
    else if isBlank ch && s.newLineFlag then []
    else if ch = '#' then []
    else if ch = '(' then strAppendStores s.str.length
    else s.tailStores g ch := by
  unfold stepStores
  rw [h]

/-- What a script leaves of a run that has met no text. -/
theorem Untouched.read (h : s.Untouched) (script : Text) (inComment : Bool)
    (hr : s.reading = between inComment) :
    if textless inComment script then (s.read g script).Untouched ∧ s.readStores g script = []
    else (s.read g script).HasText := by
  induction script generalizing s inComment with
  | nil => exact ⟨h, rfl⟩
  | cons ch script ih =>
    rw [read_cons]
    unfold readStores
    cases inComment with
    | true =>
      have hstores : s.stepStores g ch = [] := by
        unfold stepStores
        rw [hr]
        rfl
      have hstep : (s.step g ch).Untouched ∧
          (s.step g ch).reading = between (ch != '\n' && ch != eof) := by
        unfold step
        rw [hr]
        show (if _ then _ else s).Untouched ∧ (if _ then _ else s).reading = _
        split_ifs with hend
        · refine ⟨⟨h.word, h.str, h.flag⟩, ?_⟩
          rcases hend with rfl | rfl <;> rfl
        · refine ⟨h, hr.trans ?_⟩
          rw [bne_iff_ne.2 fun he => hend (.inl he), bne_iff_ne.2 fun he => hend (.inr he)]
          rfl
      rw [hstores]
      exact ih hstep.1 _ hstep.2
    | false =>
      rw [step_top hr, stepStores_top hr]
      by_cases heof : ch = eof
      · -- the end of the file
        obtain ⟨hread, hstores⟩ := read_stopped (s := { s with reading := .stopped }) (g := g) rfl
          script
        rw [if_pos heof, if_pos heof, hread, hstores,
          show textless false (ch :: script) = true by rw [heof]; rfl]
        exact ⟨⟨h.word, h.str, h.flag⟩, rfl⟩
      by_cases hblank : isBlank ch = true
      · have hskip : (isBlank ch && s.newLineFlag) = true := by rw [hblank, h.flag]; rfl
        have htext : textless false (ch :: script) = textless false script := by
          rcases Tokenizer.isBlank_iff.1 hblank with rfl | rfl <;> rfl
        rw [if_neg heof, if_pos hskip, if_neg heof, if_pos hskip, htext]
        exact ih h false hr
      have hskip : ¬ (isBlank ch && s.newLineFlag) = true := fun hc =>
        hblank (Bool.and_eq_true_iff.1 hc).1
      rw [if_neg heof, if_neg hskip, if_neg heof, if_neg hskip]
      by_cases hhash : ch = '#'
      · rw [if_pos hhash, if_pos hhash, show textless false (ch :: script) = textless true script by
          rw [hhash]; exact Bool.or_false _]
        exact ih (s := { s with reading := .comment }) ⟨h.word, h.str, h.flag⟩ true rfl
      rw [if_neg hhash, if_neg hhash]
      by_cases hnl : ch = '\n'
      · obtain ⟨huntouched, hreading, hstores⟩ := h.newline (g := g)
        have hopen : ch ≠ '(' := by
          rw [hnl]
          decide
        have htail : s.tail g ch = s.newline g := if_pos hnl
        have htailStores : s.tailStores g ch = [] := (if_pos hnl).trans hstores
        have htext : textless false (ch :: script) = textless false script := by
          rw [hnl]
          rfl
        rw [if_neg hopen, if_neg hopen, htail, htailStores, htext]
        exact ih huntouched false hreading
      · -- the first character of a text
        have htext : textless false (ch :: script) = false := by
          unfold textless
          rw [beq_false_of_ne heof, beq_false_of_ne hhash, Bool.eq_false_iff.2 hblank,
            beq_false_of_ne hnl]
          rfl
        rw [htext]
        show HasText _
        refine HasText.read ?_ script
        split_ifs
        · exact hasText_inside _ ch
        · unfold tail
          rw [if_neg hnl]
          exact hasText_other s ch

theorem readStores_append (u v : Text) :
    s.readStores g (u ++ v) = s.readStores g u ++ (s.read g u).readStores g v := by
  induction u generalizing s with
  | nil => rfl
  | cons ch u ih =>
    show s.stepStores g ch ++ (s.step g ch).readStores g (u ++ v) =
      s.stepStores g ch ++ (s.step g ch).readStores g u ++ _
    rw [List.append_assoc, ih]
    rfl

end Separator

/-- The end of the file adds no text. -/
theorem textless_append (inComment : Bool) (script : Text) :
    textless inComment (script ++ [eof, eof]) = textless inComment script := by
  induction script generalizing inComment with
  | nil => cases inComment <;> rfl
  | cons ch script ih =>
    rw [List.cons_append]
    cases inComment with
    | true =>
      unfold textless
      rw [ih]
    | false =>
      unfold textless
      rw [ih, ih]

theorem mergeLoop_ne_nil {p : Option (List Text × Int)} {words : List (Text × Int)}
    (h : p.isSome ∨ words ≠ []) : mergeLoop p words ≠ [] := by
  fun_induction mergeLoop p words with
  | case1 => simp at h
  | case2 => exact List.cons_ne_nil _ _
  | case3 w line words hop ih => exact ih (.inl rfl)
  | case4 => exact List.cons_ne_nil _ _
  | case5 texts line w l words hop ih => exact ih (.inl rfl)
  | case6 => exact List.cons_ne_nil _ _

theorem mergeLoop_nonneg {p : Option (List Text × Int)} {words : List (Text × Int)}
    (hp : ∀ q ∈ p, 0 ≤ q.2) (hw : ∀ w ∈ words, 0 ≤ w.2) : ∀ c ∈ mergeLoop p words, 0 ≤ c.mLine := by
  fun_induction mergeLoop p words with
  | case1 => exact fun c hc => absurd hc List.not_mem_nil
  | case2 texts line =>
    intro c hc
    obtain rfl := List.mem_singleton.1 hc
    exact hp (texts, line) rfl
  | case3 w line words hop ih =>
    refine ih (fun q hq => ?_) fun v hv => hw v (List.mem_cons_of_mem _ hv)
    obtain rfl := Option.mem_some.1 hq
    exact hw (w, line) List.mem_cons_self
  | case4 w line words hop ih =>
    have hrest := ih nofun fun v hv => hw v (List.mem_cons_of_mem _ hv)
    exact List.forall_mem_cons.2 ⟨hw (w, line) List.mem_cons_self, hrest⟩
  | case5 texts line w l words hop ih =>
    refine ih (fun q hq => ?_) fun v hv => hw v (List.mem_cons_of_mem _ hv)
    obtain rfl := Option.mem_some.1 hq
    exact hp (texts, line) rfl
  | case6 texts line w l words hop ih =>
    have hrest := ih nofun fun v hv => hw v (List.mem_cons_of_mem _ hv)
    exact List.forall_mem_cons.2 ⟨hp (texts, line) rfl, hrest⟩

/-! ## Where the stores stay inside -/

/-- The record of the end marker has no room for its `line_num`. -/
theorem tokenizeStores_overrun (room : Nat) (commandTree : Text) (lineNum : Int) :
    ∃ st ∈ tokenizeStores room commandTree lineNum, ¬ st.Inside :=
  ⟨lineNumMember, List.mem_append_right _ (List.mem_cons_of_mem _ List.mem_cons_self), by decide⟩

/-- The first text that is validated is tokenized. -/
theorem validateAllLog_overrun {c : Separation} (hc : 0 ≤ c.mLine) (rest : List Separation) :
    ∃ st ∈ (validateAllLog (c :: rest)).stores, ¬ st.Inside := by
  obtain ⟨st, hmem, hst⟩ := tokenizeStores_overrun 128 c.mCmd c.mLine
  refine ⟨st, ?_, hst⟩
  unfold validateAllLog
  dsimp only
  rw [if_neg (show ¬ c.mLine = -1 by omega)]
  cases (validateLog (tokenize c.mCmd c.mLine)).val with
  | error line => exact List.mem_append_left _ hmem
  | ok res => exact List.mem_append_left _ (List.mem_append_left _ hmem)

/-- Without a text only the record at the end of `m_separation` is written, and what is in front
of `atLine`. -/
theorem parserStores_textless {g : Locals} {script : Text} (h : textless false script = true)
    (front : Int) : parserStores g front script =
      (if front = 0 then [⟨.atLine, -1, 1⟩] else []) ++
        recordStores 0 "this is the end".toList := by
  have hread := (Separator.untouched_start g.atLine).read (g := g.preCh) (script ++ [eof, eof])
    false rfl
  rw [textless_append, h, if_pos rfl, Separator.read_append, Separator.readStores_append] at hread
  obtain ⟨huntouched, happend⟩ := hread
  obtain ⟨hnone, hnone'⟩ := List.append_eq_nil_iff.1 happend
  generalize hs : Separator.read { atLine := g.atLine } g.preCh script = s at *
  have hstr : ¬ (s.read g.preCh [eof, eof]).str ≠ [] := fun hne => hne huntouched.str
  have hword : (s.finish g.preCh).word = [] := by
    rw [Separator.finish_word]
    unfold Separator.texts
    rw [if_neg hstr]
    exact huntouched.word
  have hlines : (s.finish g.preCh).lines = [] := by
    unfold Separator.lines
    rw [hword]
    rfl
  have hseparations : makeSeparation g script = [] := by
    unfold makeSeparation
    rw [hs, hlines]
    rfl
  have hfinish : s.finishStores g.preCh front =
      if front = 0 then [⟨.atLine, -1, 1⟩] else [] := by
    unfold Separator.finishStores
    dsimp only
    rw [hnone', if_neg hstr, if_neg hstr, if_pos huntouched.word]
    rfl
  have hmerge : (s.finish g.preCh).mergeStores = [] := by
    unfold Separator.mergeStores
    rw [hword]
    rfl
  unfold parserStores makeSeparationStores
  dsimp only
  rw [hs, hseparations, hnone, hfinish, hmerge, hlines]
  show [] ++ _ ++ [] ++ [] ++ ([] ++ [] ++ recordStores 0 _) ++ [] ++ [] = _
  simp only [List.nil_append, List.append_nil]

/-- A text is tokenized. -/
theorem parserStores_overrun {g : Locals} (hg : ∀ i, 0 ≤ g.atLine i) {script : Text}
    (h : ¬ textless false script = true) (front : Int) :
    ∃ st ∈ parserStores g front script, ¬ st.Inside := by
  have hread := (Separator.untouched_start g.atLine).read (g := g.preCh) (script ++ [eof, eof])
    false rfl
  rw [textless_append, if_neg h, Separator.read_append] at hread
  have hlined := ((Separator.lined_start hg).read (g := g.preCh) script).finish g.preCh
  have hword := Separator.finish_word (Separator.read { atLine := g.atLine } g.preCh script) g.preCh
  have hne : makeSeparation g script ≠ [] := by
    refine mergeLoop_ne_nil (.inr fun hnil => ?_)
    have hwords := congrArg (List.map Prod.fst) hnil
    rw [Separator.lines_fst, hword] at hwords
    have htexts := List.map_eq_nil_iff.1 hwords
    unfold Separator.texts at htexts
    split_ifs at htexts with hstr
    · exact List.append_ne_nil_of_right_ne_nil _ (List.cons_ne_nil _ []) htexts
    · exact hread.elim (fun hw => hw htexts) hstr
  obtain ⟨c, rest, hc⟩ := List.exists_cons_of_ne_nil hne
  have hmem : c ∈ makeSeparation g script := by
    rw [hc]
    exact List.mem_cons_self
  have hline : 0 ≤ c.mLine :=
    mergeLoop_nonneg (p := none) nofun (Separator.lines_nonneg hlined) c hmem
  obtain ⟨st, hin, hst⟩ := validateAllLog_overrun hline rest
  refine ⟨st, ?_, hst⟩
  unfold parserStores
  rw [hc]
  exact List.mem_append_left _ (List.mem_append_right _ hin)

/-- **The stores of the parser**, where no line number that is read unwritten is negative, stay
inside their targets when the script has no text and the `int` in front of `atLine` is not 0. -/
theorem parserStores_inside_iff {g : Locals} (hg : ∀ i, 0 ≤ g.atLine i) (front : Int)
    (script : Text) :
    (∀ st ∈ parserStores g front script, st.Inside) ↔ textless false script = true ∧ front ≠ 0 := by
  by_cases h : textless false script = true
  · rw [parserStores_textless h, and_iff_right h]
    by_cases hfront : front = 0
    · refine iff_of_false (fun hall => ?_) (fun hne => hne hfront)
      have hst := hall ⟨.atLine, -1, 1⟩ (List.mem_append_left _ (by rw [if_pos hfront]; simp))
      exact absurd hst (by decide)
    · rw [if_neg hfront, List.nil_append]
      exact iff_of_true (by decide) hfront
  · obtain ⟨st, hmem, hst⟩ := parserStores_overrun hg h front
    exact iff_of_false (fun hall => hst (hall st hmem)) fun hc => h hc.1

/-- **No script keeps the parser inside its buffers.** -/
theorem not_staysInside (script : Text) : ¬ StaysInside script := by
  intro h
  have hall := h ⟨'a', fun _ => 0⟩ 0
  exact ((parserStores_inside_iff (fun _ => Int.le_refl 0) 0 script).1 hall).2 rfl

/-- The script of one word `a`, with nothing unusual in the variables. -/
theorem oneWord_overrun : lineNumMember ∈ parserStores ⟨'a', fun _ => 0⟩ 1 ['a', '\n'] ∧
    ¬ lineNumMember.Inside ∧ ¬ StaysInside ['a', '\n'] := by
  have hmem : lineNumMember ∈ parserStores ⟨'a', fun _ => 0⟩ 1 ['a', '\n'] := by decide +kernel
  have hout : ¬ lineNumMember.Inside := by decide
  exact ⟨hmem, hout, fun h => hout (h _ _ _ hmem)⟩

end OsLabs.Shell
