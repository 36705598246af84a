import OsLabs.Shell.Stacks
import OsLabs.Shell.Validate
import Mathlib.Data.List.Forall2
import Mathlib.Data.List.Perm.Subperm

/-!
# Shell scripts: what becomes of the words

`Built ts`: `make_command` returns on the array `ts`, one command is left on its stack, every
word token has a place of its own in the tree, and the same goes for the texts of the subshells.
`validate` does not ensure it. For a chain of the grammar it holds when no operand is redirected
twice in one direction (`makeCommand_built_iff`): the second redirection replaces the first.
-/

namespace OsLabs.Shell

open Precedence (Parse)

/-- What a word token is in a tree: a simple command, the body of a subshell or the target of a
redirection. -/
inductive Part where
  | simple (word : List Text)
  | body (t : Tree)
  | target (word : Text)

def Redirect.parts (io : Redirect) : List Part :=
  (io.input.toList ++ io.output.toList).map Part.target

namespace Tree

def io : Tree → Redirect
  | simple io _ => io
  | subshell io _ => io
  | compound _ io _ _ => io

/-- The parts of a tree, of a subshell only the body as a whole. -/
def parts : Tree → List Part
  | simple io word => .simple word :: io.parts
  | subshell io t => .body t :: io.parts
  | compound _ io l r => l.parts ++ r.parts ++ io.parts

end Tree

/-- The tokens that `make_command` does not take for operators. -/
def wordTokens (ts : List Token) : List Token :=
  ts.filter fun t => !isOperator (eatTailWhiteSpace t.word)

/-- What a word token may become. -/
def Becomes (t : Token) (p : Part) : Prop :=
  p = .simple (fields (eatTailWhiteSpace t.word)) ∨ p = .target (eatTailWhiteSpace t.word) ∨
    ∃ c, makeCommand (tokenize (eatTailWhiteSpace t.word) t.lineNum) = some c ∧ p = .body c.tree

/-- Every word token has a place of its own in the tree. -/
def Placed (ts : List Token) (c : Command) : Prop :=
  ∃ ps, List.Forall₂ Becomes (wordTokens ts) ps ∧ ps.Subperm c.tree.parts

/-- `w` is the text of a subshell: a word behind an opening parenthesis. -/
def IsBody (ts : List Token) (w : Token) : Prop :=
  isOperator (eatTailWhiteSpace w.word) = false ∧ ∃ o : Token, o.word = ['('] ∧ [o, w] <:+: ts

/-- No stack is empty when it is popped or read, one command is left, and no word is lost, in the
subshells neither. -/
inductive Built : List Token → Prop where
  | intro {ts : List Token} {c : Command} : makeCommand ts = some c →
      (commandsLeft ts).map List.length = some 1 → Placed (live ts) c →
      (∀ w, IsBody (live ts) w → Built (tokenize (eatTailWhiteSpace w.word) w.lineNum)) → Built ts

/-- The binary operators and the semicolon. -/
def isSeparator (t : Token) : Bool := isBinary t.word || t.word == [';']

def inputs (ts : List Token) : Nat := (ts.map Token.word).count ['<']

def outputs (ts : List Token) : Nat := (ts.map Token.word).count ['>']

/-- At most one redirection in each direction. -/
def RedirectedOnce (ts : List Token) : Prop := inputs ts ≤ 1 ∧ outputs ts ≤ 1

instance (ts : List Token) : Decidable (RedirectedOnce ts) :=
  inferInstanceAs (Decidable (inputs ts ≤ 1 ∧ outputs ts ≤ 1))

/-- The operands of an array are redirected at most once in each direction. -/
def OperandsOnce (ts : List Token) : Prop := ∀ us ∈ ts.splitOnP isSeparator, RedirectedOnce us

instance (ts : List Token) : Decidable (OperandsOnce ts) :=
  inferInstanceAs (Decidable (∀ us ∈ ts.splitOnP isSeparator, RedirectedOnce us))

/-- So are those in the subshells. -/
inductive RedirectsOnce : List Token → Prop where
  | intro {ts : List Token} : OperandsOnce (live ts) →
      (∀ w, IsBody (live ts) w → RedirectsOnce (tokenize (eatTailWhiteSpace w.word) w.lineNum)) →
      RedirectsOnce ts

/-! ## Words and symbols in the array -/

theorem IsWord.word_ne {w : Token} (h : IsWord w) {s : Text} (he : eatTailWhiteSpace s = s)
    (hs : isOperator s = true) : w.word ≠ s := by
  intro hw
  have hop := h.noOperator
  rw [hw, he, hs] at hop
  cases hop

theorem IsWord.isSeparator {w : Token} (h : IsWord w) : OsLabs.Shell.isSeparator w = false := by
  unfold OsLabs.Shell.isSeparator isBinary
  have h1 := h.word_ne (s := ['&', '&']) (by decide) (by decide)
  have h2 := h.word_ne (s := ['|', '|']) (by decide) (by decide)
  have h3 := h.word_ne (s := ['|']) (by decide) (by decide)
  have h4 := h.word_ne (s := [';']) (by decide) (by decide)
  simp [h1, h2, h3, h4]

theorem IsSymbol.isSeparator {t : Token} {type : CommandType} (h : IsSymbol type.text t) :
    OsLabs.Shell.isSeparator t = true := by
  unfold OsLabs.Shell.isSeparator
  rw [h.word]
  cases type <;> decide

@[simp] theorem wordTokens_append (ts us : List Token) :
    wordTokens (ts ++ us) = wordTokens ts ++ wordTokens us :=
  List.filter_append ..

theorem IsWord.wordTokens {w : Token} (h : IsWord w) (ts : List Token) :
    OsLabs.Shell.wordTokens (w :: ts) = w :: OsLabs.Shell.wordTokens ts := by
  unfold OsLabs.Shell.wordTokens
  rw [List.filter_cons_of_pos]
  rw [h.noOperator]
  rfl

theorem IsSymbol.wordTokens {s : Text} {t : Token} (h : IsSymbol s t)
    (he : eatTailWhiteSpace s = s) (hs : isOperator s = true) (ts : List Token) :
    OsLabs.Shell.wordTokens (t :: ts) = OsLabs.Shell.wordTokens ts := by
  unfold OsLabs.Shell.wordTokens
  rw [List.filter_cons_of_neg]
  rw [h.word, he, hs]
  decide

/-- What the tokens of an operand are. -/
structure OperandToken (t : Token) : Prop where
  live : t.lineNum ≠ -1
  noSeparator : isSeparator t = false

theorem Operand.tokens {ts : List Token} {t : Tree} (h : Operand ts t) :
    ∀ u ∈ ts, OperandToken u := by
  have hword {w : Token} (hw : IsWord w) : OperandToken w := ⟨hw.live, hw.isSeparator⟩
  have hsymbol {s : Token} {c : Char} (hs : IsSymbol [c] s)
      (hc : c = '(' ∨ c = ')' ∨ c = '<' ∨ c = '>') : OperandToken s := by
    refine ⟨hs.live, ?_⟩
    unfold isSeparator
    rw [hs.word]
    rcases hc with rfl | rfl | rfl | rfl <;> decide
  match h with
  | .word hw =>
    intro u hu
    rw [List.mem_singleton.1 hu]
    exact hword hw
  | .subshell ho hw hc _ _ =>
    intro u hu
    simp only [List.mem_cons, List.not_mem_nil, or_false] at hu
    rcases hu with rfl | rfl | rfl
    · exact hsymbol ho (by decide)
    · exact hword hw
    · exact hsymbol hc (by decide)
  | .input h hs hw =>
    intro u hu
    simp only [List.mem_append, List.mem_cons, List.not_mem_nil, or_false] at hu
    rcases hu with hu | rfl | rfl
    · exact h.tokens u hu
    · exact hsymbol hs (by decide)
    · exact hword hw
  | .output h hs hw =>
    intro u hu
    simp only [List.mem_append, List.mem_cons, List.not_mem_nil, or_false] at hu
    rcases hu with hu | rfl | rfl
    · exact h.tokens u hu
    · exact hsymbol hs (by decide)
    · exact hword hw

theorem Chain.lines {ts : List Token} {x : Tree} {l : List (CommandType × Tree)}
    (h : Chain ts x l) : ∀ u ∈ ts, u.lineNum ≠ -1 := by
  match h with
  | .single h => exact fun u hu => (h.tokens u hu).live
  | .snoc hc hs ho =>
    intro u hu
    rcases List.mem_append.1 hu with hu | hu
    · exact hc.lines u hu
    rcases List.mem_cons.1 hu with rfl | hu
    · exact hs.live
    · exact (ho.tokens u hu).live

theorem Chain.live {ts : List Token} {x : Tree} {l : List (CommandType × Tree)}
    (h : Chain ts x l) : OsLabs.Shell.live ts = ts := by
  unfold OsLabs.Shell.live
  rw [List.takeWhile_eq_self_iff]
  intro t ht
  rw [bne_iff_ne]
  exact h.lines t ht

/-! ## The parts of operands -/

namespace Tree

theorem mapIo_id (t : Tree) : t.mapIo (fun io => io) = t := by
  cases t <;> rfl

theorem mapIo_mapIo (t : Tree) (f g : Redirect → Redirect) :
    (t.mapIo g).mapIo f = t.mapIo fun io => f (g io) := by
  cases t <;> rfl

@[simp] theorem io_mapIo (t : Tree) (f : Redirect → Redirect) : (t.mapIo f).io = f t.io := by
  cases t <;> rfl

end Tree

/-- The words of an operand beside the parts of its tree: `p` is the command itself. -/
structure OperandParts (ts : List Token) (t : Tree) (p : Part) (ps : List Part) : Prop where
  becomes : List.Forall₂ Becomes (wordTokens ts) ps
  parts : ∀ f : Redirect → Redirect, (t.mapIo f).parts = p :: (f t.io).parts
  length : ps.length = 1 + inputs ts + outputs ts
  input : t.io.input.toList.length = min 1 (inputs ts)
  output : t.io.output.toList.length = min 1 (outputs ts)
  perm : RedirectedOnce ts → ps.Perm t.parts

theorem OperandParts.tree {ts : List Token} {t : Tree} {p : Part} {ps : List Part}
    (h : OperandParts ts t p ps) : t.parts = p :: t.io.parts := by
  have := h.parts fun io => io
  rwa [t.mapIo_id] at this

/-- The tree of an operand has a part for the command and one for each direction. -/
theorem OperandParts.tree_length {ts : List Token} {t : Tree} {p : Part} {ps : List Part}
    (h : OperandParts ts t p ps) :
    t.parts.length = 1 + min 1 (inputs ts) + min 1 (outputs ts) := by
  rw [h.tree, List.length_cons, Redirect.parts, List.length_map, List.length_append, h.input,
    h.output]
  omega

theorem inputs_append (ts us : List Token) : inputs (ts ++ us) = inputs ts + inputs us := by
  unfold inputs
  rw [List.map_append, List.count_append]

theorem outputs_append (ts us : List Token) : outputs (ts ++ us) = outputs ts + outputs us := by
  unfold outputs
  rw [List.map_append, List.count_append]

theorem IsWord.redirects {w : Token} (h : IsWord w) : inputs [w] = 0 ∧ outputs [w] = 0 := by
  have h1 := h.word_ne (s := ['<']) (by decide) (by decide)
  have h2 := h.word_ne (s := ['>']) (by decide) (by decide)
  simp [inputs, outputs, h1, h2]

theorem IsWord.inputs_pair {s w : Token} {c : Char} (h : IsWord w) (hs : IsSymbol [c] s) :
    inputs [s, w] = if c = '<' then 1 else 0 := by
  have happ := inputs_append [s] [w]
  rw [h.redirects.1, Nat.add_zero] at happ
  refine Eq.trans happ ?_
  simp [inputs, hs.word, List.count_singleton]

theorem IsWord.outputs_pair {s w : Token} {c : Char} (h : IsWord w) (hs : IsSymbol [c] s) :
    outputs [s, w] = if c = '>' then 1 else 0 := by
  have happ := outputs_append [s] [w]
  rw [h.redirects.2, Nat.add_zero] at happ
  refine Eq.trans happ ?_
  simp [outputs, hs.word, List.count_singleton]

theorem becomes_snoc {ts : List Token} {ps : List Part} {s w : Token} {c : Char}
    (h : List.Forall₂ Becomes (wordTokens ts) ps) (hs : IsSymbol [c] s)
    (hc : c = '<' ∨ c = '>') (hw : IsWord w) :
    List.Forall₂ Becomes (wordTokens (ts ++ [s, w]))
      (ps ++ [.target (eatTailWhiteSpace w.word)]) := by
  have he : eatTailWhiteSpace [c] = [c] ∧ isOperator [c] = true := by
    rcases hc with rfl | rfl <;> decide
  rw [wordTokens_append, hs.wordTokens he.1 he.2, hw.wordTokens]
  exact List.rel_append h (.cons (.inr (.inl rfl)) .nil)

section Redirect

variable {ts : List Token} {t : Tree} {p : Part} {ps : List Part} {s w : Token}

theorem RedirectedOnce.of_append {us : List Token} (h : RedirectedOnce (ts ++ us)) :
    RedirectedOnce ts := by
  unfold RedirectedOnce at h ⊢
  rw [inputs_append, outputs_append] at h
  omega

theorem OperandParts.redirectInput (h : OperandParts ts t p ps) (hs : IsSymbol ['<'] s)
    (hw : IsWord w) : OperandParts (ts ++ [s, w]) (t.redirectInput (eatTailWhiteSpace w.word)) p
      (ps ++ [.target (eatTailWhiteSpace w.word)]) := by
  have hi : inputs (ts ++ [s, w]) = inputs ts + 1 := by
    rw [inputs_append, hw.inputs_pair hs]
    rfl
  have ho : outputs (ts ++ [s, w]) = outputs ts := by
    rw [outputs_append, hw.outputs_pair hs]
    rfl
  refine ⟨becomes_snoc h.becomes hs (.inl rfl) hw, fun f => ?_, ?_, ?_, ?_, fun hr => ?_⟩
  · rw [Tree.redirectInput, Tree.mapIo_mapIo, h.parts, Tree.io_mapIo]
  · rw [List.length_append, h.length, hi, ho, List.length_singleton]
    omega
  · rw [Tree.redirectInput, Tree.io_mapIo, hi]
    simp
  · rw [Tree.redirectInput, Tree.io_mapIo, ho]
    exact h.output
  · -- the command had no input before
    have hnone : t.io.input = none := by
      have hlen := h.input
      have hr := hr.1
      rcases hti : t.io.input with _ | v
      · rfl
      · rw [hti, Option.toList_some, List.length_singleton] at hlen
        omega
    have hps := h.perm hr.of_append
    rw [h.tree, Redirect.parts, hnone] at hps
    rw [Tree.redirectInput, h.parts, Redirect.parts]
    exact ((hps.append_right _).trans (List.perm_append_singleton _ _)).trans (.swap ..)

theorem OperandParts.redirectOutput (h : OperandParts ts t p ps) (hs : IsSymbol ['>'] s)
    (hw : IsWord w) : OperandParts (ts ++ [s, w]) (t.redirectOutput (eatTailWhiteSpace w.word)) p
      (ps ++ [.target (eatTailWhiteSpace w.word)]) := by
  have hi : inputs (ts ++ [s, w]) = inputs ts := by
    rw [inputs_append, hw.inputs_pair hs]
    rfl
  have ho : outputs (ts ++ [s, w]) = outputs ts + 1 := by
    rw [outputs_append, hw.outputs_pair hs]
    rfl
  refine ⟨becomes_snoc h.becomes hs (.inr rfl) hw, fun f => ?_, ?_, ?_, ?_, fun hr => ?_⟩
  · rw [Tree.redirectOutput, Tree.mapIo_mapIo, h.parts, Tree.io_mapIo]
  · rw [List.length_append, h.length, hi, ho, List.length_singleton]
    omega
  · rw [Tree.redirectOutput, Tree.io_mapIo, hi]
    exact h.input
  · rw [Tree.redirectOutput, Tree.io_mapIo, ho]
    simp
  · -- the command had no output before
    have hnone : t.io.output = none := by
      have hlen := h.output
      have hr := hr.2
      rcases hto : t.io.output with _ | v
      · rfl
      · rw [hto, Option.toList_some, List.length_singleton] at hlen
        omega
    have hps := h.perm hr.of_append
    rw [h.tree, Redirect.parts, hnone] at hps
    rw [Tree.redirectOutput, h.parts, Redirect.parts, Option.toList_some, List.map_append]
    rw [Option.toList_none, List.append_nil] at hps
    exact hps.append_right _

end Redirect

theorem Operand.parts {ts : List Token} {t : Tree} (h : Operand ts t) :
    ∃ p ps, OperandParts ts t p ps := by
  match h with
  | .word (t := w) hw =>
    obtain ⟨hi, ho⟩ := hw.redirects
    refine ⟨.simple (fields (eatTailWhiteSpace w.word)), [_], ?_, fun _ => rfl, ?_, ?_, ?_,
      fun _ => .refl _⟩
    · rw [hw.wordTokens]
      exact .cons (.inl rfl) .nil
    · rw [hi, ho]
      rfl
    · rw [hi]
      rfl
    · rw [ho]
      rfl
  | .subshell (o := o) (w := w) (c := c) (t := t) ho hw hc hchain hparse =>
    obtain ⟨d, hd, ht⟩ := (makeCommandAux_builds (w.word.length + 1)).body hchain hparse
      (Nat.lt_succ_self _)
    have hcount : inputs [o, w, c] = 0 ∧ outputs [o, w, c] = 0 := by
      have hi := inputs_append [o, w] [c]
      have hu := outputs_append [o, w] [c]
      have hc : inputs [c] = 0 ∧ outputs [c] = 0 := by simp [inputs, outputs, hc.word]
      rw [hw.inputs_pair ho, if_neg (by decide), hc.1] at hi
      rw [hw.outputs_pair ho, if_neg (by decide), hc.2] at hu
      exact ⟨hi, hu⟩
    refine ⟨.body t, [_], ?_, fun _ => rfl, ?_, ?_, ?_, fun _ => .refl _⟩
    · rw [ho.wordTokens (by decide) (by decide), hw.wordTokens,
        hc.wordTokens (by decide) (by decide)]
      refine .cons (.inr (.inr ⟨d, ?_, by rw [ht]⟩)) .nil
      rw [← hd]
      symm
      apply makeCommandAux_eq
      have h1 := arraySize_tokenize (eatTailWhiteSpace w.word) w.lineNum
      have h2 := eatTailWhiteSpace_length w.word
      omega
    · rw [hcount.1, hcount.2]
      rfl
    · rw [hcount.1]
      rfl
    · rw [hcount.2]
      rfl
  | .input h hs hw =>
    obtain ⟨p, ps, hp⟩ := h.parts
    exact ⟨p, _, hp.redirectInput hs hw⟩
  | .output h hs hw =>
    obtain ⟨p, ps, hp⟩ := h.parts
    exact ⟨p, _, hp.redirectOutput hs hw⟩

/-! ## The parts of chains -/

/-- A tree has the parts of its operands, in order. -/
theorem parse_parts {x t : Tree} {l : List (CommandType × Tree)}
    (h : Parse precedence Tree.node x l t) :
    t.parts = (x :: l.map Prod.snd).flatMap Tree.parts := by
  induction h with
  | atom x => simp
  | node _ _ _ _ iha ihb =>
    rw [Tree.node, Tree.parts, iha, ihb]
    simp [Redirect.parts]

theorem Operand.splitOnP {ts : List Token} {t : Tree} (h : Operand ts t) :
    ts.splitOnP isSeparator = [ts] :=
  List.splitOnP_eq_singleton fun u hu => (h.tokens u hu).noSeparator

/-- The words of a chain beside the parts of its operands: there are as many unless an operand is
redirected twice. -/
theorem Chain.parts {ts : List Token} {x : Tree} {l : List (CommandType × Tree)}
    (h : Chain ts x l) : ∃ ps, List.Forall₂ Becomes (wordTokens ts) ps ∧
      ((x :: l.map Prod.snd).flatMap Tree.parts).length ≤ ps.length ∧
      (OperandsOnce ts → ps.Perm ((x :: l.map Prod.snd).flatMap Tree.parts)) ∧
      (((x :: l.map Prod.snd).flatMap Tree.parts).length = ps.length → OperandsOnce ts) := by
  have honce {us : List Token} {y : Tree} {p : Part} {ps : List Part}
      (h : OperandParts us y p ps) :
      y.parts.length ≤ ps.length ∧ (y.parts.length = ps.length → RedirectedOnce us) := by
    have h1 := h.tree_length
    have h2 := h.length
    unfold RedirectedOnce
    omega
  match h with
  | .single h =>
    obtain ⟨p, ps, hp⟩ := h.parts
    have hflat : ([x].flatMap Tree.parts) = x.parts := by simp
    refine ⟨ps, hp.becomes, ?_, ?_, ?_⟩ <;> rw [List.map_nil, hflat]
    · exact (honce hp).1
    · intro ho
      exact hp.perm (ho ts (by rw [h.splitOnP]; exact List.mem_singleton_self ts))
    · intro hlen us hus
      rw [h.splitOnP, List.mem_singleton] at hus
      rw [hus]
      exact (honce hp).2 hlen
  | @Chain.snoc ts us _ y l s type hc hs ho =>
    obtain ⟨ps, hbecomes, hle, hperm, heq⟩ := hc.parts
    obtain ⟨q, qs, hq⟩ := ho.parts
    have hflat : (x :: (l ++ [(type, y)]).map Prod.snd).flatMap Tree.parts =
        (x :: l.map Prod.snd).flatMap Tree.parts ++ y.parts := by
      simp
    have hsplit : OperandsOnce (ts ++ s :: us) ↔ OperandsOnce ts ∧ RedirectedOnce us := by
      unfold OperandsOnce
      rw [List.splitOnP_append_cons _ _ hs.isSeparator, ho.splitOnP]
      simp [or_imp, forall_and]
    refine ⟨ps ++ qs, ?_, ?_, ?_, ?_⟩
    · rw [wordTokens_append, hs.wordTokens (eatTailWhiteSpace_text type) (isOperator_text type)]
      exact List.rel_append hbecomes hq.becomes
    · rw [hflat, List.length_append, List.length_append]
      exact Nat.add_le_add hle (honce hq).1
    · intro hr
      obtain ⟨hr, hr'⟩ := hsplit.1 hr
      rw [hflat]
      exact (hperm hr).append (hq.perm hr')
    · rw [hflat, List.length_append, List.length_append]
      intro hlen
      have hle' := (honce hq).1
      exact hsplit.2 ⟨heq (by omega), (honce hq).2 (by omega)⟩

/-- **No word of a chain is lost** if and only if no operand is redirected twice in one
direction. -/
theorem Chain.placed_iff {ts : List Token} {x : Tree} {l : List (CommandType × Tree)}
    (h : Chain ts x l) {c : Command} (hc : makeCommand ts = some c) :
    Placed ts c ↔ OperandsOnce ts := by
  obtain ⟨d, hd, hparse, -⟩ := makeCommand_parses h
  obtain rfl : d = c := Option.some_inj.1 (hd.symm.trans hc)
  obtain ⟨ps, hbecomes, hle, hperm, heq⟩ := h.parts
  rw [← parse_parts hparse] at hle hperm heq
  constructor
  · rintro ⟨qs, hqs, hsub⟩
    apply heq
    have h1 := hsub.length_le
    have h2 := hqs.length_eq
    have h3 := hbecomes.length_eq
    omega
  · intro ho
    exact ⟨ps, hbecomes, (hperm ho).subperm⟩

/-- One command is left. -/
theorem Chain.commandsLeft {ts : List Token} {x : Tree} {l : List (CommandType × Tree)}
    (h : Chain ts x l) : (OsLabs.Shell.commandsLeft ts).map List.length = some 1 := by
  obtain ⟨c, hc, -⟩ := makeCommand_parses h
  obtain ⟨cmds, hcmds⟩ := commandsLeft_isSome hc
  have hlen := commandsLeft_length hcmds
  have hbal := h.balance []
  rw [List.append_nil] at hbal
  rw [hbal] at hlen
  rw [hcmds, Option.map_some]
  exact congrArg some (Int.ofNat_inj.1 hlen)

/-! ## The texts of subshells -/

/-- Two neighbours of a list stand in one of its parts, or on both sides of the cut. -/
theorem pair_infix_append {α : Type} {a b : α} {xs ys : List α} (h : [a, b] <:+: xs ++ ys) :
    [a, b] <:+: xs ∨ [a, b] <:+: ys ∨ xs.getLast? = some a := by
  induction xs with
  | nil => exact .inr (.inl h)
  | cons x xs ih =>
    rcases List.infix_cons_iff.1 h with h | h
    · obtain ⟨hx, hb⟩ := List.cons_prefix_cons.1 h
      rcases xs with _ | ⟨y, xs⟩
      · exact .inr (.inr (by rw [hx]; rfl))
      · obtain ⟨hy, -⟩ := List.cons_prefix_cons.1 hb
        exact .inl ⟨[], xs, by rw [hx, hy]; rfl⟩
    · rcases ih h with h | h | h
      · exact .inl (h.trans (List.suffix_cons x xs).isInfix)
      · exact .inr (.inl h)
      · refine .inr (.inr ?_)
        rw [List.getLast?_cons, h]
        rfl

theorem Operand.getLast {ts : List Token} {t : Tree} (h : Operand ts t) :
    ∀ u ∈ ts.getLast?, u.word ≠ ['('] := by
  have hopen {w : Token} (hw : IsWord w) : w.word ≠ ['('] := hw.word_ne (by decide) (by decide)
  match h with
  | .word hw =>
    rintro u ⟨⟩
    exact hopen hw
  | .subshell (c := c) _ _ hc _ _ =>
    intro u hu
    obtain rfl : c = u := Option.some_inj.1 hu
    rw [hc.word]
    decide
  | .input _ _ hw | .output _ _ hw =>
    intro u hu
    simp only [List.getLast?_append, List.getLast?_cons, List.getLast?_nil, Option.getD_none,
      Option.getD_some, Option.some_or, Option.mem_some_iff] at hu
    rw [← hu]
    exact hopen hw

theorem Chain.getLast {ts : List Token} {x : Tree} {l : List (CommandType × Tree)}
    (h : Chain ts x l) : ∀ u ∈ ts.getLast?, u.word ≠ ['('] := by
  match h with
  | .single h => exact h.getLast
  | @Chain.snoc _ us _ _ _ _ _ _ _ ho =>
    intro u hu
    obtain ⟨vs, v, he, -⟩ := ho.last
    apply ho.getLast
    rw [he] at hu ⊢
    rw [← List.cons_append, ← List.append_assoc, List.getLast?_concat] at hu
    rwa [List.getLast?_concat]

theorem singleton_no_pair {o w : Token} (v : Token) : ¬ [o, w] <:+: [v] := by
  intro h
  have := h.length_le
  simp at this

theorem Operand.body {ts : List Token} {t : Tree} (h : Operand ts t) {w : Token}
    (hw : IsBody ts w) : ∃ x l, Chain (tokenize w.word w.lineNum) x l := by
  obtain ⟨hop, o, ho, hinf⟩ := hw
  -- a redirection is no opening parenthesis
  have hredirect {us : List Token} {u : Tree} {s v : Token} {c : Char} (h : Operand us u)
      (hs : IsSymbol [c] s) (hc : c = '<' ∨ c = '>') (hinf : [o, w] <:+: us ++ [s, v]) :
      [o, w] <:+: us := by
    rcases pair_infix_append hinf with hinf | hinf | hlast
    · exact hinf
    · rcases List.infix_cons_iff.1 hinf with hp | hinf
      · obtain ⟨rfl, -⟩ := List.cons_prefix_cons.1 hp
        rw [hs.word] at ho
        rcases hc with rfl | rfl <;> cases ho
      · exact absurd hinf (singleton_no_pair v)
    · exact absurd ho (h.getLast o hlast)
  match h with
  | .word (t := v) _ => exact absurd hinf (singleton_no_pair v)
  | .subshell (w := v) (c := c) _ hv _ hchain _ =>
    rcases List.infix_cons_iff.1 hinf with hp | hinf
    · obtain ⟨-, hp⟩ := List.cons_prefix_cons.1 hp
      obtain ⟨rfl, -⟩ := List.cons_prefix_cons.1 hp
      exact ⟨_, _, hchain⟩
    · rcases List.infix_cons_iff.1 hinf with hp | hinf
      · obtain ⟨rfl, -⟩ := List.cons_prefix_cons.1 hp
        exact absurd ho (hv.word_ne (by decide) (by decide))
      · exact absurd hinf (singleton_no_pair c)
  | .input h hs _ => exact h.body ⟨hop, o, ho, hredirect h hs (.inl rfl) hinf⟩
  | .output h hs _ => exact h.body ⟨hop, o, ho, hredirect h hs (.inr rfl) hinf⟩

/-- The text of a subshell of a chain is a chain. -/
theorem Chain.body {ts : List Token} {x : Tree} {l : List (CommandType × Tree)}
    (h : Chain ts x l) {w : Token} (hw : IsBody ts w) :
    ∃ y m, Chain (tokenize w.word w.lineNum) y m := by
  match h with
  | .single h => exact h.body hw
  | @Chain.snoc _ _ _ _ _ _ type hc hs ho' =>
    obtain ⟨hop, o, ho, hinf⟩ := hw
    rcases pair_infix_append hinf with hinf | hinf | hlast
    · exact hc.body ⟨hop, o, ho, hinf⟩
    · rcases List.infix_cons_iff.1 hinf with hp | hinf
      · obtain ⟨rfl, -⟩ := List.cons_prefix_cons.1 hp
        exact absurd (hs.word.symm.trans ho) (text_ne type).1
      · exact ho'.body ⟨hop, o, ho, hinf⟩
    · exact absurd ho (hc.getLast o hlast)

/-! ## Texts without their trailing blanks -/

/-- `t` is `u` with blanks behind it. -/
structure BlankTail (t u : Token) : Prop where
  line : u.lineNum = t.lineNum
  word : ∃ v : Text, (∀ c ∈ v, isBlank c) ∧ t.word = u.word ++ v

theorem BlankTail.eat {t u : Token} (h : BlankTail t u) :
    eatTailWhiteSpace u.word = eatTailWhiteSpace t.word := by
  obtain ⟨-, v, hv, he⟩ := h
  rw [he, eatTailWhiteSpace_append hv]

theorem BlankTail.isWord {t u : Token} (h : BlankTail t u) (ht : IsWord t) : IsWord u := by
  refine ⟨?_, ?_, ?_⟩
  · rw [h.line]
    exact ht.live
  · rw [h.eat]
    exact ht.nonblank
  · rw [h.eat]
    exact ht.noOperator

theorem BlankTail.close {t u : Token} (h : BlankTail t u) (ht : IsSymbol [')'] t) :
    IsSymbol [')'] u := by
  obtain ⟨hl, v, hv, he⟩ := h
  refine ⟨hl ▸ ht.live, ?_⟩
  rw [ht.word] at he
  rcases hu : u.word with _ | ⟨c, w⟩
  · rw [hu, List.nil_append] at he
    rw [← he] at hv
    have := hv ')' (List.mem_singleton_self _)
    cases this
  · rw [hu, List.cons_append, List.cons.injEq] at he
    have hw := (List.append_eq_nil_iff.1 he.2.symm).1
    rw [hw, ← he.1]

/-- `tokenize` of a trimmed text has the last word trimmed. -/
theorem tokenize_trim {text : Text} {lineNum : Int} {ts : List Token} {t : Token}
    (h : tokenize text lineNum = ts ++ [t]) (ht : eatTailWhiteSpace t.word ≠ []) :
    ∃ u, BlankTail t u ∧ tokenize (eatTailWhiteSpace text) lineNum = ts ++ [u] := by
  obtain ⟨v, he, hv⟩ := eatTailWhiteSpace_split text
  generalize eatTailWhiteSpace text = w at he
  subst he
  rcases v with _ | ⟨c, v⟩
  · rw [List.append_nil] at h
    exact ⟨t, ⟨rfl, [], nofun, (List.append_nil _).symm⟩, h⟩
  obtain ⟨b, hb, hloop⟩ := Tokenizer.loop_blanks lineNum (Tokenizer.loop lineNum {} w) (c :: v) hv
  rw [← Tokenizer.loop_append_blank lineNum {} w (hv c List.mem_cons_self) v] at hloop
  rw [tokenize_eq, hloop] at h
  rw [tokenize_eq]
  generalize Tokenizer.loop lineNum {} w = s at *
  dsimp only at h ⊢
  rcases hs : s.buffer with _ | ⟨d, buffer⟩
  · rw [hs, List.nil_append] at h
    rcases b with _ | ⟨e, b⟩
    · exact ⟨t, ⟨rfl, [], nofun, (List.append_nil _).symm⟩, h⟩
    · exfalso
      rw [if_neg (by simp)] at h
      obtain ⟨-, h⟩ := List.append_inj' h rfl
      rw [← List.singleton_inj.1 h] at ht
      exact ht (List.rdropWhile_eq_nil_iff.2 hb)
  · rw [hs, if_neg (by simp)] at h
    rw [if_neg (by simp)]
    obtain ⟨rfl, hlast⟩ := List.append_inj' h rfl
    rw [← List.singleton_inj.1 hlast]
    exact ⟨⟨d :: buffer, lineNum + s.lineOffset⟩, ⟨rfl, b, hb, rfl⟩, rfl⟩

theorem Operand.trim {ts : List Token} {t u : Token} {y : Tree} (h : Operand (ts ++ [t]) y)
    (hu : BlankTail t u) : Operand (ts ++ [u]) y := by
  generalize he : ts ++ [t] = us at h
  match h with
  | .word (t := w) hw =>
    obtain ⟨rfl, ht⟩ := List.append_inj' (he.trans (List.nil_append [w]).symm) rfl
    obtain rfl := List.singleton_inj.1 ht
    rw [← hu.eat]
    exact .word (hu.isWord hw)
  | .subshell (o := o) (w := w) (c := c) ho hw hc hchain hparse =>
    have he : ts ++ [t] = [o, w] ++ [c] := he
    obtain ⟨rfl, ht⟩ := List.append_inj' he rfl
    obtain rfl := List.singleton_inj.1 ht
    exact .subshell ho hw (hu.close hc) hchain hparse
  | @Operand.input vs _ s w h hs hw =>
    obtain ⟨rfl, ht⟩ := List.append_inj' (he.trans (List.append_cons vs s [w])) rfl
    obtain rfl := List.singleton_inj.1 ht
    rw [← hu.eat, List.append_assoc]
    exact .input h hs (hu.isWord hw)
  | @Operand.output vs _ s w h hs hw =>
    obtain ⟨rfl, ht⟩ := List.append_inj' (he.trans (List.append_cons vs s [w])) rfl
    obtain rfl := List.singleton_inj.1 ht
    rw [← hu.eat, List.append_assoc]
    exact .output h hs (hu.isWord hw)

theorem Chain.trim {ts : List Token} {t u : Token} {x : Tree} {l : List (CommandType × Tree)}
    (h : Chain (ts ++ [t]) x l) (hu : BlankTail t u) : Chain (ts ++ [u]) x l := by
  generalize he : ts ++ [t] = us at h
  match h with
  | .single h =>
    subst he
    exact .single (h.trim hu)
  | @Chain.snoc vs us _ _ _ s _ hc hs ho =>
    obtain ⟨ws, w, rfl, -⟩ := ho.last
    rw [← List.cons_append, ← List.append_assoc] at he
    obtain ⟨rfl, ht⟩ := List.append_inj' he rfl
    obtain rfl := List.singleton_inj.1 ht
    rw [List.append_assoc, List.cons_append]
    exact .snoc hc hs (ho.trim hu)

/-- What `make_command` parses for a subshell is a chain as well. -/
theorem Chain.trimmed {text : Text} {lineNum : Int} {x : Tree} {l : List (CommandType × Tree)}
    (h : Chain (tokenize text lineNum) x l) :
    Chain (tokenize (eatTailWhiteSpace text) lineNum) x l := by
  obtain ⟨ts, t, he, hne⟩ := h.last
  obtain ⟨u, hu, hu'⟩ := tokenize_trim he hne
  rw [hu']
  rw [he] at h
  exact h.trim hu

/-! ## Building -/

theorem IsBody.size {ts : List Token} {w : Token} (h : IsBody ts w) :
    arraySize (tokenize (eatTailWhiteSpace w.word) w.lineNum) < arraySize ts := by
  obtain ⟨-, o, ho, us, vs, rfl⟩ := h
  have h1 := arraySize_tokenize (eatTailWhiteSpace w.word) w.lineNum
  have h2 := eatTailWhiteSpace_length w.word
  simp only [arraySize_append, arraySize_cons, ho, List.length_singleton]
  omega

theorem Chain.built_iff {ts : List Token} {x : Tree} {l : List (CommandType × Tree)}
    (h : Chain ts x l) : Built ts ↔ RedirectsOnce ts := by
  induction hn : arraySize ts using Nat.strong_induction_on generalizing ts x l with
  | h n ih =>
  have hsub (w : Token) (hw : IsBody (OsLabs.Shell.live ts) w) :
      Built (tokenize (eatTailWhiteSpace w.word) w.lineNum) ↔
        RedirectsOnce (tokenize (eatTailWhiteSpace w.word) w.lineNum) := by
    rw [h.live] at hw
    obtain ⟨y, m, hc⟩ := h.body hw
    have hsize := hw.size
    exact ih _ (by omega) hc.trimmed rfl
  constructor
  · rintro ⟨hc, -, hplaced, hbodies⟩
    rw [h.live, h.placed_iff hc] at hplaced
    refine .intro ?_ fun w hw => (hsub w hw).1 (hbodies w hw)
    rw [h.live]
    exact hplaced
  · rintro ⟨honce, hbodies⟩
    obtain ⟨c, hc, -⟩ := makeCommand_parses h
    rw [h.live] at honce
    refine .intro hc h.commandsLeft ?_ fun w hw => (hsub w hw).2 (hbodies w hw)
    rw [h.live]
    exact (h.placed_iff hc).2 honce

/-- **What `make_command` builds.** It builds a chain of operands and operators, the subshells
included, if and only if no operand is redirected twice in one direction; and it builds no array,
accepted by `validate` or not, whose operands are not one more than its operators. -/
theorem makeCommand_built_iff (ts : List Token) :
    (∀ x l, Chain ts x l → (Built ts ↔ RedirectsOnce ts)) ∧ (Built ts → balance ts = 1) := by
  refine ⟨fun x l h => h.built_iff, ?_⟩
  rintro ⟨hc, hone, -, -⟩
  obtain ⟨cmds, hcmds⟩ := commandsLeft_isSome hc
  rw [hcmds, Option.map_some, Option.some_inj] at hone
  rw [← commandsLeft_length hcmds, hone]
  rfl

/-- `a > f | b`. -/
theorem redirectedPipe_built : Built (tokenize ['a', '>', 'f', '|', 'b'] 1) := by
  have he : tokenize ['a', '>', 'f', '|', 'b'] 1 =
      ([⟨['a'], 1⟩] ++ [⟨['>'], 1⟩, ⟨['f'], 1⟩]) ++ ⟨['|'], 1⟩ :: [⟨['b'], 1⟩] := by decide
  have hchain : Chain (tokenize ['a', '>', 'f', '|', 'b'] 1)
      (.simple { output := some ['f'] } [['a']]) [(.pipeCommand, .simple {} [['b']])] := by
    rw [he]
    exact .snoc (.single (.output (.word (by decide)) (by decide) (by decide))) (by decide)
      (.word (by decide))
  have hnone (w : Token) : ¬ IsBody (live (tokenize ['a', '>', 'f', '|', 'b'] 1)) w := by
    rintro ⟨-, o, ho, hinf⟩
    have hall : ∀ t ∈ live (tokenize ['a', '>', 'f', '|', 'b'] 1), t.word ≠ ['('] := by decide
    exact hall o (hinf.subset List.mem_cons_self) ho
  exact ((makeCommand_built_iff _).1 _ _ hchain).2
    (.intro (by decide) fun w hw => absurd hw (hnone w))

/-- `a && ; b`: the semicolon pops the operator, which has one operand. -/
theorem semicolon_not_built : validate (tokenize ['a', '&', '&', ';', 'b'] 1) = .ok 1 ∧
    ¬ Built (tokenize ['a', '&', '&', ';', 'b'] 1) := by
  refine ⟨by decide, ?_⟩
  rintro ⟨hc, -, -, -⟩
  have hnone : makeCommand (tokenize ['a', '&', '&', ';', 'b'] 1) = none := by decide
  rw [hnone] at hc
  cases hc

end OsLabs.Shell
