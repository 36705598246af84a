import OsLabs.Shell.Parse
import OsLabs.Lib.Precedence

/-!
# Shell scripts: the grammar

`Chain ts x l`: the array `ts` is the operand `x` followed by the binary
operators and operands `l`. `Precedence.Parse` gives the tree of a chain for
the binding strengths `precedence`; `makeCommand_parses` says that
`make_command` builds this tree.
-/

namespace OsLabs.Shell

open Precedence (Parse)

/-- Command trees: commands less their line numbers and statuses. -/
inductive Tree where
  | simple (io : Redirect) (word : List Text)
  | subshell (io : Redirect) (t : Tree)
  | compound (type : CommandType) (io : Redirect) (left right : Tree)
  deriving DecidableEq, Repr

def Command.tree : Command → Tree
  | .simple _ _ io word => .simple io word
  | .subshell _ _ io c => .subshell io c.tree
  | .compound type _ _ io c0 c1 => .compound type io c0.tree c1.tree

namespace Tree

def mapIo (f : Redirect → Redirect) : Tree → Tree
  | simple io word => simple (f io) word
  | subshell io t => subshell (f io) t
  | compound type io l r => compound type (f io) l r

def redirectInput (w : Text) : Tree → Tree := mapIo fun io => { io with input := some w }

def redirectOutput (w : Text) : Tree → Tree := mapIo fun io => { io with output := some w }

/-- The tree of a binary operator; its redirections are empty. -/
def node (type : CommandType) (l r : Tree) : Tree := compound type {} l r

/-- The operands of the binary operators, from left to right. -/
def operands : Tree → List Tree
  | compound _ _ l r => l.operands ++ r.operands
  | t => [t]

def operators : Tree → List CommandType
  | compound type _ l r => l.operators ++ type :: r.operators
  | _ => []

end Tree

def CommandType.text : CommandType → Text
  | .andCommand => ['&', '&']
  | .sequenceCommand => [';']
  | .orCommand => ['|', '|']
  | .pipeCommand => ['|']

/-- `;` binds loosest, `|` tightest. -/
def precedence : CommandType → Nat
  | .sequenceCommand => 0
  | .andCommand => 1
  | .orCommand => 1
  | .pipeCommand => 2

/-- The fields of a text between its runs of blanks; the first is empty when
the text begins with a blank. -/
def fields (text : Text) : List Text :=
  match text.splitOnP isBlank with
  | [] => []
  | w :: ws => w :: ws.filter (· ≠ [])

/-- A token that is neither blank nor, less its trailing blanks, an operator. -/
structure IsWord (t : Token) : Prop where
  live : t.lineNum ≠ -1
  nonblank : eatTailWhiteSpace t.word ≠ []
  noOperator : isOperator (eatTailWhiteSpace t.word) = false

structure IsSymbol (s : Text) (t : Token) : Prop where
  live : t.lineNum ≠ -1
  word : t.word = s

instance (t : Token) : Decidable (IsWord t) :=
  decidable_of_iff (t.lineNum ≠ -1 ∧ eatTailWhiteSpace t.word ≠ [] ∧
      isOperator (eatTailWhiteSpace t.word) = false)
    ⟨fun ⟨h1, h2, h3⟩ => ⟨h1, h2, h3⟩, fun ⟨h1, h2, h3⟩ => ⟨h1, h2, h3⟩⟩

instance (s : Text) (t : Token) : Decidable (IsSymbol s t) :=
  decidable_of_iff (t.lineNum ≠ -1 ∧ t.word = s)
    ⟨fun ⟨h1, h2⟩ => ⟨h1, h2⟩, fun ⟨h1, h2⟩ => ⟨h1, h2⟩⟩

mutual

/-- A word or a parenthesised word, with its redirections. -/
inductive Operand : List Token → Tree → Prop where
  | word {t : Token} : IsWord t → Operand [t] (.simple {} (fields (eatTailWhiteSpace t.word)))
  | subshell {o w c : Token} {x t : Tree} {l : List (CommandType × Tree)} :
      IsSymbol ['('] o → IsWord w → IsSymbol [')'] c → Chain (tokenize w.word w.lineNum) x l →
      Parse precedence Tree.node x l t → Operand [o, w, c] (.subshell {} t)
  | input {ts : List Token} {t : Tree} {s w : Token} :
      Operand ts t → IsSymbol ['<'] s → IsWord w →
      Operand (ts ++ [s, w]) (t.redirectInput (eatTailWhiteSpace w.word))
  | output {ts : List Token} {t : Tree} {s w : Token} :
      Operand ts t → IsSymbol ['>'] s → IsWord w →
      Operand (ts ++ [s, w]) (t.redirectOutput (eatTailWhiteSpace w.word))

/-- Operands separated by binary operators. -/
inductive Chain : List Token → Tree → List (CommandType × Tree) → Prop where
  | single {ts : List Token} {t : Tree} : Operand ts t → Chain ts t []
  | snoc {ts us : List Token} {x y : Tree} {l : List (CommandType × Tree)} {s : Token}
      {type : CommandType} :
      Chain ts x l → IsSymbol type.text s → Operand us y →
      Chain (ts ++ s :: us) x (l ++ [(type, y)])

end

/-! ## Words and operators -/

theorem splitWords_eq (text : Text) :
    splitWords none text = (text.splitOnP isBlank).filter (· ≠ []) ∧
      ∀ w : Text, ∃ v vs, text.splitOnP isBlank = v :: vs ∧
        splitWords (some w) text = (w ++ v) :: vs.filter (· ≠ []) := by
  induction text with
  | nil => exact ⟨rfl, fun w => ⟨[], [], rfl, by simp [splitWords]⟩⟩
  | cons c text ih =>
    obtain ⟨ihn, ihs⟩ := ih
    rw [List.splitOnP_cons_eq_if_modifyHead]
    rcases hc : isBlank c with _ | _
    · refine ⟨?_, fun w => ?_⟩
      · obtain ⟨v, vs, he, hs⟩ := ihs [c]
        simp [splitWords, hc, he, hs]
      · obtain ⟨v, vs, he, hs⟩ := ihs (w ++ [c])
        exact ⟨c :: v, vs, by simp [he], by simp [splitWords, hc, hs]⟩
    · refine ⟨by simp [splitWords, hc, ihn], fun w => ⟨[], text.splitOnP isBlank, rfl, ?_⟩⟩
      simp [splitWords, hc, ihn]

theorem makeSimpleCommand_tree {token : Text} (h : token ≠ []) (line : Int) :
    (makeSimpleCommand token line).tree = .simple {} (fields token) := by
  obtain ⟨v, vs, he, hs⟩ := (splitWords_eq token).2 []
  simp [makeSimpleCommand, Command.tree, h, fields, he, hs]

@[simp] theorem tree_setLine (c : Command) (line : Int) : (c.setLine line).tree = c.tree := by
  cases c <;> rfl

@[simp] theorem tree_mapIo (c : Command) (f : Redirect → Redirect) :
    (c.mapIo f).tree = c.tree.mapIo f := by
  cases c <;> rfl

@[simp] theorem makeCompoundCommand_tree (c d : Command) (type : CommandType) (line : Int) :
    (makeCompoundCommand c d type.text line).tree = .node type c.tree d.tree := by
  cases type <;> rfl

/-- The irregular entries of the comparison table agree with the precedences. -/
theorem operCmp_le_iff (a b : CommandType) :
    operCmp a.text b.text ≤ 0 ↔ precedence a ≤ precedence b := by
  cases a <;> cases b <;> decide

theorem text_ne (type : CommandType) :
    type.text ≠ ['('] ∧ type.text ≠ [')'] ∧ type.text ≠ ['<'] ∧ type.text ≠ ['>'] := by
  cases type <;> decide

theorem isOperator_text (type : CommandType) : isOperator type.text = true := by
  cases type <;> decide

theorem eatTailWhiteSpace_text (type : CommandType) : eatTailWhiteSpace type.text = type.text := by
  cases type <;> decide

theorem IsWord.ne {t : Token} (h : IsWord t) :
    eatTailWhiteSpace t.word ≠ ['('] ∧ eatTailWhiteSpace t.word ≠ [')'] ∧
      eatTailWhiteSpace t.word ≠ ['<'] ∧ eatTailWhiteSpace t.word ≠ ['>'] := by
  have hop := h.noOperator
  refine ⟨?_, ?_, ?_, ?_⟩ <;> intro he <;> rw [he] at hop <;> cases hop

/-! ## The stacks -/

/-- The operator stack of a list of pending operators. -/
def opersOf (st : List (CommandType × Tree)) : List Text := st.map fun p => p.1.text

/-- The trees on the command stack: the current one above the pending left operands. -/
def CmdsOf (cmds : List Command) (r : List (CommandType × Tree) × Tree) : Prop :=
  cmds.map Command.tree = r.2 :: r.1.map Prod.snd

/-- Combining the top operator of the stacks. -/
theorem combine_tree {cmds : List Command} {type : CommandType} {a c : Tree}
    {st : List (CommandType × Tree)} (h : CmdsOf cmds ((type, a) :: st, c)) (line : Int) :
    ∃ cmds', combine line type.text cmds = some cmds' ∧ CmdsOf cmds' (st, .node type a c) := by
  unfold CmdsOf at h
  rcases cmds with _ | ⟨d, _ | ⟨b, cmds⟩⟩
  · simp at h
  · simp at h
  simp only [List.map_cons, List.cons.injEq] at h
  obtain ⟨hd, hb, hcmds⟩ := h
  exact ⟨_, rfl, by simp [CmdsOf, hd, hb, hcmds]⟩

theorem popOperators_tree (line : Int) (type : CommandType) :
    ∀ (st : List (CommandType × Tree)) (c : Tree) (cmds : List Command), CmdsOf cmds (st, c) →
      ∃ cmds', popOperators line type.text (opersOf st) cmds =
          some (opersOf (Precedence.reduce precedence Tree.node (precedence type) st c).1, cmds') ∧
        CmdsOf cmds' (Precedence.reduce precedence Tree.node (precedence type) st c) := by
  intro st
  induction st with
  | nil => intro c cmds h; exact ⟨cmds, rfl, h⟩
  | cons p st ih =>
    intro c cmds h
    obtain ⟨o, a⟩ := p
    have hcmp := operCmp_le_iff type o
    simp only [opersOf, List.map_cons, popOperators, Precedence.reduce]
    by_cases hle : precedence type ≤ precedence o
    · rw [if_pos ⟨(text_ne type).1, hcmp.2 hle⟩, if_pos hle]
      obtain ⟨cmds', hc, h'⟩ := combine_tree h line
      rw [hc]
      exact ih _ _ h'
    · rw [if_neg (fun hand => hle (hcmp.1 hand.2)), if_neg hle]
      exact ⟨cmds, rfl, h⟩

theorem popAll_tree (line : Int) :
    ∀ (st : List (CommandType × Tree)) (c : Tree) (cmds : List Command), CmdsOf cmds (st, c) →
      ∃ cmds', popAll line (opersOf st) cmds = some cmds' ∧
        CmdsOf cmds' (Precedence.reduce precedence Tree.node 0 st c) := by
  intro st
  induction st with
  | nil => intro c cmds h; exact ⟨cmds, rfl, h⟩
  | cons p st ih =>
    intro c cmds h
    obtain ⟨o, a⟩ := p
    obtain ⟨cmds', hc, h'⟩ := combine_tree h line
    simp only [opersOf, List.map_cons, popAll, hc]
    rw [Precedence.reduce_pop (Nat.zero_le _)]
    exact ih _ _ h'

theorem finish_tree (line : Int) {st : List (CommandType × Tree)} {c : Tree} {cmds : List Command}
    (h : CmdsOf cmds (st, c)) :
    ∃ d, finish line (opersOf st) cmds = some d ∧
      d.tree = (Precedence.reduce precedence Tree.node 0 st c).2 := by
  have hhead {cmds : List Command} {r : List (CommandType × Tree) × Tree} (h : CmdsOf cmds r) :
      ∃ d, cmds.head? = some d ∧ d.tree = r.2 := by
    unfold CmdsOf at h
    rcases cmds with _ | ⟨d, cmds⟩
    · simp at h
    · exact ⟨d, rfl, (List.cons.inj h).1⟩
  rcases st with _ | ⟨p, st⟩
  · obtain ⟨d, hd, ht⟩ := hhead h
    exact ⟨d.setLine line, by simp [opersOf, finish, hd], by rw [tree_setLine]; exact ht⟩
  · obtain ⟨cmds', hpop, h'⟩ := popAll_tree line (p :: st) c cmds h
    obtain ⟨d, hd, ht⟩ := hhead h'
    refine ⟨d, ?_, ht⟩
    simp only [opersOf, List.map_cons, finish] at hpop ⊢
    rw [hpop]
    exact hd

/-! ## One token -/

section Loop

variable {sub : List Token → Option Command} {line : Int} {prev : Option Text} {rest : List Token}
  {opers : List Text} {cmds : List Command}

theorem loop_word {t : Token} (h : IsWord t) (hprev : prev ≠ some ['(']) :
    makeCommandLoop sub line prev (t :: rest) opers cmds =
      makeCommandLoop sub line (some t.word) rest opers
        (makeSimpleCommand (eatTailWhiteSpace t.word) line :: cmds) := by
  rw [makeCommandLoop.eq_def]
  simp only [h.live, h.ne, h.noOperator, hprev, if_false, Bool.false_eq_true]

theorem loop_body {t : Token} (h : IsWord t) {c : Command}
    (hc : sub (tokenize (eatTailWhiteSpace t.word) t.lineNum) = some c) :
    makeCommandLoop sub line (some ['(']) (t :: rest) opers cmds =
      makeCommandLoop sub line (some t.word) rest opers (c.setLine line :: cmds) := by
  rw [makeCommandLoop.eq_def]
  simp only [h.live, h.ne, h.noOperator, if_false, Bool.false_eq_true, if_true, hc]
  rfl

theorem loop_open {t : Token} (h : IsSymbol ['('] t) :
    makeCommandLoop sub line prev (t :: rest) opers cmds =
      makeCommandLoop sub line (some ['(']) rest (['('] :: opers) cmds := by
  have he : eatTailWhiteSpace ['('] = ['('] := by decide
  have hpop : popOperators line ['('] opers cmds = some (opers, cmds) := by
    cases opers <;> simp [popOperators]
  rw [makeCommandLoop.eq_def]
  simp only [h.live, h.word, he, hpop, if_false]
  rfl

theorem loop_close {t : Token} (h : IsSymbol [')'] t) (c : Command) :
    makeCommandLoop sub line prev (t :: rest) (['('] :: opers) (c :: cmds) =
      makeCommandLoop sub line (some [')']) rest opers (makeSubshellCommand c line :: cmds) := by
  have he : eatTailWhiteSpace [')'] = [')'] := by decide
  rw [makeCommandLoop.eq_def]
  simp only [h.live, h.word, he, if_false, if_true]
  rfl

theorem loop_input {s w : Token} (h : IsSymbol ['<'] s) (c : Command) :
    makeCommandLoop sub line prev (s :: w :: rest) opers (c :: cmds) =
      makeCommandLoop sub line (some w.word) rest opers
        (c.mapIo (fun io => { io with input := some (eatTailWhiteSpace w.word) }) :: cmds) := by
  have he : eatTailWhiteSpace ['<'] = ['<'] := by decide
  rw [makeCommandLoop.eq_def]
  simp only [h.live, h.word, he, if_false, if_true]

theorem loop_output {s w : Token} (h : IsSymbol ['>'] s) (c : Command) :
    makeCommandLoop sub line prev (s :: w :: rest) opers (c :: cmds) =
      makeCommandLoop sub line (some w.word) rest opers
        (c.mapIo (fun io => { io with output := some (eatTailWhiteSpace w.word) }) :: cmds) := by
  have he : eatTailWhiteSpace ['>'] = ['>'] := by decide
  rw [makeCommandLoop.eq_def]
  simp only [h.live, h.word, he, if_false, if_true]
  rfl

theorem loop_binary {t : Token} {type : CommandType} (h : IsSymbol type.text t)
    {opers' : List Text} {cmds' : List Command}
    (hpop : popOperators line type.text opers cmds = some (opers', cmds')) :
    makeCommandLoop sub line prev (t :: rest) opers cmds =
      makeCommandLoop sub line (some type.text) rest (type.text :: opers') cmds' := by
  rw [makeCommandLoop.eq_def]
  simp only [h.live, h.word, eatTailWhiteSpace_text, text_ne type, isOperator_text, hpop, if_false,
    if_true]
  rfl

end Loop

/-! ## Operands and chains -/

theorem IsWord.prev {t : Token} (h : IsWord t) : some t.word ≠ some ['('] := by
  intro he
  apply h.ne.1
  rw [Option.some.inj he]
  decide

theorem Operand.last {ts : List Token} {t : Tree} (h : Operand ts t) :
    ∃ us u, ts = us ++ [u] ∧ eatTailWhiteSpace u.word ≠ [] := by
  cases h with
  | word hw => exact ⟨[], _, rfl, hw.nonblank⟩
  | subshell _ _ hc _ _ => exact ⟨[_, _], _, rfl, by rw [hc.word]; decide⟩
  | @input us _ s _ _ _ hw => exact ⟨us ++ [s], _, by simp, hw.nonblank⟩
  | @output us _ s _ _ _ hw => exact ⟨us ++ [s], _, by simp, hw.nonblank⟩

theorem Chain.last {ts : List Token} {x : Tree} {l : List (CommandType × Tree)}
    (h : Chain ts x l) : ∃ us u, ts = us ++ [u] ∧ eatTailWhiteSpace u.word ≠ [] := by
  cases h with
  | single h => exact h.last
  | @snoc vs _ _ _ _ s _ _ _ h =>
    obtain ⟨us, u, rfl, hu⟩ := h.last
    exact ⟨vs ++ s :: us, u, by simp, hu⟩

/-- `sub` builds the trees of the chains with less than `n` characters, whatever
blanks follow their last word. -/
structure Builds (sub : List Token → Option Command) (n : Nat) : Prop where
  tree : ∀ {ts x l t}, Chain ts x l → Parse precedence Tree.node x l t → arraySize ts < n →
    ∃ c, sub ts = some c ∧ c.tree = t
  trim : ∀ ts, sub (trimLast ts) = sub ts

theorem Builds.body {sub : List Token → Option Command} {n : Nat} (h : Builds sub n) {w : Token}
    {x t : Tree} {l : List (CommandType × Tree)} (hc : Chain (tokenize w.word w.lineNum) x l)
    (hp : Parse precedence Tree.node x l t) (hn : w.word.length < n) :
    ∃ c, sub (tokenize (eatTailWhiteSpace w.word) w.lineNum) = some c ∧ c.tree = t := by
  have hsize := arraySize_tokenize w.word w.lineNum
  obtain ⟨c, hsub, ht⟩ := h.tree hc hp (by omega)
  refine ⟨c, ?_, ht⟩
  obtain ⟨us, u, he, hu⟩ := hc.last
  have htrim := @trimLast_tokenize w.word w.lineNum (by
    rw [he]
    intro v hv
    simp only [List.getLast?_concat, Option.mem_some_iff] at hv
    exact hv ▸ hu)
  rw [← h.trim, htrim, h.trim, hsub]

theorem Operand.loop {sub : List Token → Option Command} {n : Nat} (hb : Builds sub n) (line : Int)
    {ts : List Token} {t : Tree} (h : Operand ts t) (hn : arraySize ts ≤ n) {prev : Option Text}
    (hprev : prev ≠ some ['(']) (rest : List Token) (opers : List Text) (cmds : List Command) :
    ∃ prev' c, prev' ≠ some ['('] ∧ c.tree = t ∧
      makeCommandLoop sub line prev (ts ++ rest) opers cmds =
        makeCommandLoop sub line prev' rest opers (c :: cmds) := by
  match h with
  | .word hw =>
    exact ⟨_, _, hw.prev, makeSimpleCommand_tree hw.nonblank line, loop_word hw hprev⟩
  | .subshell ho hw hc hchain hparse =>
    simp only [arraySize_cons, ho.word, List.length_singleton] at hn
    obtain ⟨c, hsub, ht⟩ := hb.body hchain hparse (by omega)
    refine ⟨some [')'], makeSubshellCommand (c.setLine line) line, by simp, ?_, ?_⟩
    · simp [makeSubshellCommand, Command.tree, ht]
    · simp only [List.cons_append, List.nil_append]
      rw [loop_open ho, loop_body hw hsub, loop_close hc]
  | .input h hs hw =>
    rw [arraySize_append] at hn
    obtain ⟨prev', c, -, ht, hloop⟩ := Operand.loop hb line h (by omega) hprev (_ :: _ :: rest)
      opers cmds
    refine ⟨_, c.mapIo _, hw.prev, by rw [tree_mapIo, ht]; rfl, ?_⟩
    rw [List.append_assoc]
    simp only [List.cons_append, List.nil_append]
    rw [hloop, loop_input hs]
  | .output h hs hw =>
    rw [arraySize_append] at hn
    obtain ⟨prev', c, -, ht, hloop⟩ := Operand.loop hb line h (by omega) hprev (_ :: _ :: rest)
      opers cmds
    refine ⟨_, c.mapIo _, hw.prev, by rw [tree_mapIo, ht]; rfl, ?_⟩
    rw [List.append_assoc]
    simp only [List.cons_append, List.nil_append]
    rw [hloop, loop_output hs]

/-- After a chain the stacks hold what the two-stack algorithm has pending. -/
theorem Chain.loop {sub : List Token → Option Command} {n : Nat} (hb : Builds sub n) (line : Int)
    {ts : List Token} {x : Tree} {l : List (CommandType × Tree)} (h : Chain ts x l)
    (hn : arraySize ts ≤ n) (rest : List Token) :
    ∃ prev cmds, prev ≠ some ['('] ∧ CmdsOf cmds (Precedence.feed precedence Tree.node [] x l) ∧
      makeCommandLoop sub line none (ts ++ rest) [] [] =
        makeCommandLoop sub line prev rest
          (opersOf (Precedence.feed precedence Tree.node [] x l).1) cmds := by
  cases h with
  | single h =>
    have hnone : (none : Option Text) ≠ some ['('] := by simp
    obtain ⟨prev, c, hprev, ht, hloop⟩ := h.loop hb line hn hnone rest [] []
    exact ⟨prev, [c], hprev, by simp [CmdsOf, Precedence.feed, ht], hloop⟩
  | @snoc _ _ _ y l _ type hc hs ho =>
    rw [arraySize_append, arraySize_cons] at hn
    obtain ⟨prev, cmds, -, hcmds, hloop⟩ := Chain.loop hb line hc (by omega) (_ :: (_ ++ rest))
    obtain ⟨cmds', hpop, hcmds'⟩ := popOperators_tree line type _ _ _ hcmds
    have htext : some type.text ≠ some ['('] := by simp [text_ne type]
    obtain ⟨prev', c, hprev', ht, hloop'⟩ := ho.loop hb line (by omega) htext rest
      (type.text :: opersOf _) cmds'
    refine ⟨prev', c :: cmds', hprev', ?_, ?_⟩
    rotate_left
    · rw [List.append_assoc, List.cons_append, hloop, loop_binary hs hpop, hloop']
      rw [Precedence.feed_append]
      rfl
    · rw [Precedence.feed_append]
      simp only [Precedence.feed]
      unfold CmdsOf at hcmds' ⊢
      simp only [List.map_cons, ht, hcmds']
termination_by l.length

/-- By induction on the depth bound: a subshell's array is smaller. -/
theorem makeCommandAux_builds (n : Nat) : Builds (makeCommandAux n) n := by
  refine ⟨?_, makeCommandAux_trimLast n⟩
  induction n with
  | zero => intro ts x l t _ _ hn; omega
  | succ n ih =>
    intro ts x l t hc hp hn
    obtain ⟨prev, cmds, -, hcmds, hloop⟩ := hc.loop ⟨ih, makeCommandAux_trimLast n⟩
      ((ts.map Token.lineNum).headD (-1)) (by omega) []
    rw [List.append_nil, makeCommandLoop_nil] at hloop
    obtain ⟨d, hd, ht⟩ := finish_tree ((ts.map Token.lineNum).headD (-1)) hcmds
    refine ⟨d, by rw [makeCommandAux, hloop, hd], ?_⟩
    rw [ht]
    exact hp.shiftReduce_eq

theorem Operand.operands {ts : List Token} {t : Tree} (h : Operand ts t) :
    t.operands = [t] ∧ t.operators = [] := by
  match h with
  | .word _ => exact ⟨rfl, rfl⟩
  | .subshell _ _ _ _ _ => exact ⟨rfl, rfl⟩
  | .input (t := t) h _ _ =>
    have ih := Operand.operands h
    cases t with
    | compound => simp [Tree.operators] at ih
    | _ => exact ⟨rfl, rfl⟩
  | .output (t := t) h _ _ =>
    have ih := Operand.operands h
    cases t with
    | compound => simp [Tree.operators] at ih
    | _ => exact ⟨rfl, rfl⟩

theorem Chain.operand {ts : List Token} {x : Tree} {l : List (CommandType × Tree)}
    (h : Chain ts x l) : ∀ y ∈ x :: l.map Prod.snd, y.operands = [y] ∧ y.operators = [] := by
  match h with
  | .single h =>
    intro y hy
    obtain rfl : y = x := by simpa using hy
    exact h.operands
  | @Chain.snoc _ _ _ z l _ _ hc _ ho =>
    intro y hy
    have hy : y ∈ x :: l.map Prod.snd ∨ y = z := by simpa [or_assoc] using hy
    rcases hy with hy | rfl
    · exact Chain.operand hc y hy
    · exact ho.operands

/-- A tree holds the operands and the operators of its chain in order. -/
theorem parse_inorder {x t : Tree} {l : List (CommandType × Tree)}
    (h : Parse precedence Tree.node x l t) :
    (∀ y ∈ x :: l.map Prod.snd, y.operands = [y] ∧ y.operators = []) →
      t.operands = x :: l.map Prod.snd ∧ t.operators = l.map Prod.fst := by
  induction h with
  | atom x => intro hx; exact hx x (by simp)
  | @node x y a b l r op _ _ _ _ iha ihb =>
    intro hx
    obtain ⟨ha, ha'⟩ := iha fun z hz => hx z (by
      rcases List.mem_cons.1 hz with rfl | hz
      · simp
      · simp only [List.map_append, List.mem_cons, List.mem_append]; exact .inr (.inl hz))
    obtain ⟨hb, hb'⟩ := ihb fun z hz => hx z (by
      simp only [List.map_append, List.map_cons, List.mem_cons, List.mem_append] at hz ⊢
      exact .inr (.inr hz))
    simp [Tree.node, Tree.operands, Tree.operators, ha, ha', hb, hb']

/-- **Parsing builds the grammar's tree**: the tree of the chain under the
binding strengths, with every operand once and in order. -/
theorem makeCommand_parses {ts : List Token} {x : Tree} {l : List (CommandType × Tree)}
    (h : Chain ts x l) :
    ∃ c, makeCommand ts = some c ∧ Parse precedence Tree.node x l c.tree ∧
      c.tree.operands = x :: l.map Prod.snd ∧ c.tree.operators = l.map Prod.fst := by
  obtain ⟨t, ht⟩ := Parse.exists precedence Tree.node x l
  obtain ⟨c, hc, rfl⟩ := (makeCommandAux_builds (arraySize ts + 1)).tree h ht (by omega)
  exact ⟨c, hc, ht, parse_inorder ht h.operand⟩

/-- `a | ( b ; c ) > f`. -/
theorem makeCommand_parses_subshell :
    ∃ c, makeCommand [⟨['a', ' '], 1⟩, ⟨['|'], 1⟩, ⟨['('], 1⟩, ⟨[' ', 'b', ';', 'c', ' '], 1⟩,
        ⟨[')'], 1⟩, ⟨['>'], 1⟩, ⟨['f'], 1⟩] = some c ∧
      Parse precedence Tree.node (.simple {} [['a']])
        [(.pipeCommand, .subshell { output := some ['f'] }
          (.node .sequenceCommand (.simple {} [['b']]) (.simple {} [['c']])))] c.tree ∧
      c.tree.operands = [.simple {} [['a']], .subshell { output := some ['f'] }
        (.node .sequenceCommand (.simple {} [['b']]) (.simple {} [['c']]))] ∧
      c.tree.operators = [.pipeCommand] := by
  have hbody : Chain (tokenize [' ', 'b', ';', 'c', ' '] 1) (.simple {} [['b']])
      [(.sequenceCommand, .simple {} [['c']])] := by
    have he : tokenize [' ', 'b', ';', 'c', ' '] 1 =
        [⟨['b'], 1⟩] ++ ⟨[';'], 1⟩ :: [⟨['c', ' '], 1⟩] := by decide
    rw [he]
    exact .snoc (.single (.word (by decide))) (by decide) (.word (by decide))
  refine makeCommand_parses (x := .simple {} [['a']]) (l := [(.pipeCommand, .subshell _ _)]) ?_
  refine .snoc (.single (.word (t := ⟨['a', ' '], 1⟩) (by decide))) (by decide)
    (.output (.subshell (by decide) (by decide) (by decide) hbody ?_) (by decide) (by decide))
  exact .node (by simp) (by simp) (.atom _) (.atom _)

end OsLabs.Shell
