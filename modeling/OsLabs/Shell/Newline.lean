import OsLabs.Shell.Building
import OsLabs.Shell.Resume

/-!
# Shell scripts: a newline between two commands

`tokenize` turns the newline behind a command into a semicolon unless its flags say that the
command goes on. They are not reset by a parenthesis, so behind a subshell that stands first or
follows an operator the newline is dropped (`newline_iff`).
-/

namespace OsLabs.Shell

open Precedence (Parse)
open Tokenizer

/-! ## Like arrays -/

theorem alike_of_words {ts us : List Token} (hw : ts.map Token.word = us.map Token.word)
    (ht : ∀ t ∈ ts, 0 ≤ t.lineNum) (hu : ∀ u ∈ us, 0 ≤ u.lineNum) (b : Bool) :
    Alike b ts us := by
  induction ts generalizing us b with
  | nil =>
    rw [List.map_nil] at hw
    rw [List.map_eq_nil_iff.1 hw.symm]
    exact .nil
  | cons t ts ih =>
    rcases us with _ | ⟨u, us⟩
    · cases hw
    · rw [List.map_cons, List.map_cons, List.cons.injEq] at hw
      refine .cons (ht t List.mem_cons_self) (hu u List.mem_cons_self) (.inl hw.1) ?_
      exact ih hw.2 (fun t h => ht t (List.mem_cons_of_mem _ h))
        (fun u h => hu u (List.mem_cons_of_mem _ h)) _

theorem Alike.lines {b : Bool} {ts us : List Token} (h : Alike b ts us) :
    ∀ t ∈ ts, 0 ≤ t.lineNum := by
  induction h with
  | nil => exact nofun
  | cons hl _ _ _ ih =>
    intro u hu
    rcases List.mem_cons.1 hu with rfl | hu
    · exact hl
    · exact ih u hu

theorem tokenize_lines (text : Text) {lineNum : Int} (h : 0 ≤ lineNum) :
    ∀ t ∈ tokenize text lineNum, 0 ≤ t.lineNum :=
  (tokenize_alike text h h).lines

theorem Alike.append {b : Bool} {ts ts' us us' : List Token} (h : Alike b ts ts')
    (hu : ∀ b, Alike b us us') : Alike b (ts ++ us) (ts' ++ us') := by
  induction h with
  | nil => exact hu _
  | cons hl hl' hw _ ih => exact .cons hl hl' hw ih

/-! ## Chains -/

/-- Two chains with an operator between them. -/
theorem Chain.append {ts us : List Token} {x y : Tree} {l m : List (CommandType × Tree)}
    {s : Token} {type : CommandType} (h : Chain ts x l) (hs : IsSymbol type.text s)
    (hu : Chain us y m) : Chain (ts ++ s :: us) x (l ++ (type, y) :: m) := by
  match hu with
  | .single ho => exact .snoc h hs ho
  | @Chain.snoc vs ws _ _ m t _ hc ht ho =>
    have happ := Chain.snoc (h.append hs hc) ht ho
    rw [List.append_assoc, List.append_assoc] at happ
    exact happ

/-- The last two tokens of an operand of more than one. -/
theorem Operand.lastTwo {ts : List Token} {t : Tree} (h : Operand ts t) :
    (∃ w, ts = [w]) ∨ ∃ us o w, ts = us ++ [o, w] ∧ o.word ≠ ['('] := by
  match h with
  | .word (t := w) _ => exact .inl ⟨w, rfl⟩
  | .subshell (o := o) (w := w) (c := c) _ hw _ _ _ =>
    exact .inr ⟨[o], w, c, rfl, hw.word_ne (by decide) (by decide)⟩
  | @Operand.input us _ s w _ hs _ =>
    refine .inr ⟨us, s, w, rfl, ?_⟩
    rw [hs.word]
    decide
  | @Operand.output us _ s w _ hs _ =>
    refine .inr ⟨us, s, w, rfl, ?_⟩
    rw [hs.word]
    decide

/-- Behind an opening parenthesis stand two tokens at least. -/
theorem Chain.lastTwo {us : List Token} {o w : Token} {x : Tree} {l : List (CommandType × Tree)}
    (h : Chain (us ++ [o, w]) x l) : o.word ≠ ['('] := by
  have hlast {vs : List Token} {p v : Token} (he : us ++ [o, w] = vs ++ [p, v])
      (hp : p.word ≠ ['(']) : o.word ≠ ['('] := by
    obtain ⟨-, he⟩ := List.append_inj' he rfl
    rw [(List.cons.inj he).1]
    exact hp
  generalize he : us ++ [o, w] = ts at h
  match h with
  | .single ho =>
    rcases ho.lastTwo with ⟨v, rfl⟩ | ⟨vs, p, v, rfl, hp⟩
    · have hlen := congrArg List.length he
      rw [List.length_append, List.length_cons, List.length_singleton] at hlen
      simp at hlen
    · exact hlast he hp
  | @Chain.snoc vs _ _ _ _ s type _ hs ho =>
    rcases ho.lastTwo with ⟨v, rfl⟩ | ⟨ws, p, v, rfl, hp⟩
    · refine hlast he ?_
      rw [hs.word]
      exact (text_ne type).1
    · have hws : us ++ [o, w] = (vs ++ s :: ws) ++ [p, v] := by
        rw [he, List.append_assoc]
        rfl
      exact hlast hws hp

/-- A complete command leaves the tokenizer outside subshells and comments. -/
theorem Chain.lineEnd {text : Text} {lineNum : Int} {x : Tree} {l : List (CommandType × Tree)}
    (h : Chain (tokenize text lineNum) x l) (hn : '\n' ∉ text) (hh : '#' ∉ text) :
    LineEnd (Tokenizer.loop lineNum {} text) := by
  have hflags := loop_flags lineNum (s := {}) rfl text hn hh
  refine ⟨steady_start.loop text, hflags.inComment, ?_⟩
  by_contra hs
  obtain ⟨o, ho, hopen⟩ := (opens_start.loop text).last (Bool.not_eq_false _ ▸ hs)
  rw [tokenize_eq] at h
  generalize Tokenizer.loop lineNum {} text = s at h ho
  obtain ⟨us, hus⟩ := List.getLast?_eq_some_iff.1 ho
  dsimp only at h
  rw [hus] at h
  by_cases hb : s.buffer = []
  · rw [if_pos hb, List.append_nil] at h
    exact h.getLast o List.getLast?_concat hopen
  · rw [if_neg hb, List.append_assoc] at h
    exact h.lastTwo hopen

/-! ## Counting operators -/

/-- The operators in the commands and on the operator stack. -/
def weight (opers : List Text) (cmds : List Command) : Nat :=
  opers.length + (cmds.map fun c => c.tree.operators.length).sum

section Weight

variable {sub : List Token → Option Command} {line : Int}

theorem combine_weight {oper : Text} {opers : List Text} {cmds cmds' : List Command}
    (h : combine line oper cmds = some cmds') :
    weight opers cmds' = weight (oper :: opers) cmds := by
  rcases cmds with _ | ⟨c, _ | ⟨d, cmds⟩⟩
  · cases h
  · cases h
  · cases h
    simp only [weight, makeCompoundCommand, Command.tree, Tree.operators, List.map_cons,
      List.sum_cons, List.length_append, List.length_cons]
    omega

theorem popOperators_weight {token : Text} (opers : List Text) :
    ∀ {cmds : List Command} {r : List Text × List Command},
      popOperators line token opers cmds = some r → weight r.1 r.2 = weight opers cmds := by
  induction opers with
  | nil =>
    intro cmds r h
    cases h
    rfl
  | cons oper opers ih =>
    intro cmds r h
    unfold popOperators at h
    split at h
    · obtain ⟨cmds', hc, h⟩ := Option.bind_eq_some_iff.1 h
      rw [ih h, combine_weight hc]
    · cases h
      rfl

theorem popAll_weight (opers : List Text) : ∀ {cmds cmds' : List Command},
    popAll line opers cmds = some cmds' → weight [] cmds' = weight opers cmds := by
  induction opers with
  | nil =>
    intro cmds cmds' h
    cases h
    rfl
  | cons oper opers ih =>
    intro cmds cmds' h
    obtain ⟨cmds'', hc, h⟩ := Option.bind_eq_some_iff.1 h
    rw [ih h, combine_weight hc]

theorem head_weight {cmds : List Command} {c : Command} (h : cmds.head? = some c) :
    c.tree.operators.length ≤ weight [] cmds := by
  rcases cmds with _ | ⟨d, cmds⟩
  · cases h
  · cases h
    simp only [weight, List.map_cons, List.sum_cons]
    omega

/-- The result has no more operators than the stacks. -/
theorem finish_weight {opers : List Text} {cmds : List Command} {c : Command}
    (h : finish line opers cmds = some c) : c.tree.operators.length ≤ weight opers cmds := by
  rcases opers with _ | ⟨oper, opers⟩
  · obtain ⟨d, hd, rfl⟩ := Option.map_eq_some_iff.1 h
    rw [tree_setLine]
    exact head_weight hd
  · obtain ⟨cmds', hp, h⟩ := Option.bind_eq_some_iff.1 h
    rw [← popAll_weight (oper :: opers) hp]
    exact head_weight h

/-- A chain on top of any stacks adds its operators, if no operand is missing below. -/
theorem Chain.loop_weight {n : Nat} (hb : Builds sub n) {ts : List Token} {x : Tree}
    {l : List (CommandType × Tree)} (h : Chain ts x l) (hn : arraySize ts ≤ n)
    {prev : Option Text} (hprev : prev ≠ some ['(']) (rest : List Token) (opers : List Text)
    (cmds : List Command) :
    ∃ (prev' : Option Text) (r : Option (List Text × List Command)), prev' ≠ some ['('] ∧
      makeCommandLoop sub line prev (ts ++ rest) opers cmds =
        r.bind (fun r => makeCommandLoop sub line prev' rest r.1 r.2) ∧
      ∀ q ∈ r, weight q.1 q.2 = weight opers cmds + l.length := by
  have hpush {c : Command} (hc : c.tree.operators = []) (opers : List Text)
      (cmds : List Command) : weight opers (c :: cmds) = weight opers cmds := by
    simp [weight, hc]
  cases h with
  | single ho =>
    obtain ⟨prev', c, hprev', hc, hloop⟩ := ho.loop hb line hn hprev rest opers cmds
    refine ⟨prev', some (opers, c :: cmds), hprev', hloop, ?_⟩
    rintro q ⟨⟩
    exact hpush (by rw [hc]; exact ho.operands.2) opers cmds
  | @snoc ts us _ _ l s type hc hs ho =>
    rw [arraySize_append, arraySize_cons] at hn
    obtain ⟨prev', r, hprev', hloop, hr⟩ := hc.loop_weight hb (by omega) hprev (s :: (us ++ rest))
      opers cmds
    rw [List.append_assoc, List.cons_append, hloop]
    rcases r with _ | ⟨opers', cmds'⟩
    · exact ⟨none, none, (Option.some_ne_none _).symm, rfl, fun q hq => by cases hq⟩
    have hw : weight opers' cmds' = weight opers cmds + l.length := hr _ rfl
    rw [Option.bind_some]
    dsimp only
    cases hpop : popOperators line type.text opers' cmds' with
    | none =>
      refine ⟨none, none, (Option.some_ne_none _).symm, ?_, fun q hq => by cases hq⟩
      rw [makeCommandLoop.eq_def]
      simp only [hs.live, hs.word, eatTailWhiteSpace_text, text_ne type, isOperator_text, hpop,
        if_false, if_true]
      rfl
    | some q =>
      obtain ⟨opers'', cmds''⟩ := q
      have htext : some type.text ≠ some ['('] := by simp [text_ne type]
      have hpw : weight opers'' cmds'' = weight opers' cmds' := popOperators_weight opers' hpop
      obtain ⟨prev'', c, hprev'', hc', hloop'⟩ := ho.loop hb line (by omega) htext rest
        (type.text :: opers'') cmds''
      refine ⟨prev'', some (type.text :: opers'', c :: cmds''), hprev'', ?_, ?_⟩
      · rw [loop_binary hs hpop, hloop', Option.bind_some]
      · rintro q ⟨⟩
        have hlast := hpush (by rw [hc']; exact ho.operands.2) (type.text :: opers'') cmds''
        have hcons : weight (type.text :: opers'') cmds'' = weight opers'' cmds'' + 1 := by
          simp only [weight, List.length_cons]
          omega
        rw [List.length_append, List.length_singleton]
        dsimp only
        omega
termination_by l.length

/-- Two chains without an operator between them have no more operators in the tree than they have
themselves. -/
theorem Chain.operators_le {ts us : List Token} {x y : Tree} {l m : List (CommandType × Tree)}
    (h : Chain ts x l) (hu : Chain us y m) {c : Command}
    (hc : makeCommand (ts ++ us) = some c) : c.tree.operators.length ≤ l.length + m.length := by
  unfold makeCommand makeCommandAux at hc
  have hb := makeCommandAux_builds (arraySize (ts ++ us))
  have hsize := arraySize_append ts us
  obtain ⟨prev, r, hprev, hloop, hr⟩ := h.loop_weight hb (by omega)
    (Option.some_ne_none ['(']).symm us [] []
  rw [hloop] at hc
  obtain ⟨⟨opers, cmds⟩, hq, hc'⟩ := Option.bind_eq_some_iff.1 hc
  obtain ⟨prev', r', -, hloop', hr'⟩ := hu.loop_weight hb (by omega) hprev [] opers cmds
  rw [List.append_nil] at hloop'
  rw [hloop'] at hc'
  obtain ⟨⟨opers', cmds'⟩, hq', hfinish⟩ := Option.bind_eq_some_iff.1 hc'
  have h1 : weight opers cmds = weight [] [] + l.length := hr _ hq
  have h2 : weight opers' cmds' = weight opers cmds + m.length := hr' _ hq'
  have h3 : c.tree.operators.length ≤ weight opers' cmds' := finish_weight hfinish
  have h0 : weight [] [] = 0 := rfl
  omega

end Weight

/-! ## Newlines and semicolons -/

/-- A newline behind the text ends a command: the last character outside subshells, blanks,
semicolons and parentheses apart, is there and is no `|` or `&`. -/
def endsCommand (text : Text) : Bool := (marks false text).getLast?.any fun c => !setsOperator c

theorem flags_iff {text : Text} {lineNum : Int} (hn : '\n' ∉ text) (hh : '#' ∉ text) :
    (loop lineNum {} text).afterOperator = false ∧ (loop lineNum {} text).inFirstLine = false ↔
      endsCommand text = true := by
  have hf := loop_flags lineNum (s := {}) rfl text hn hh
  rw [hf.afterOperator, hf.inFirstLine]
  unfold endsCommand
  rcases hm : marks false text with _ | ⟨c, m⟩
  · simp
  · have hlast : ∃ d, (marks false text).getLast? = some d := by
      rw [hm]
      exact ⟨_, List.getLast?_cons⟩
    obtain ⟨d, hd⟩ := hlast
    rw [← hm, hd]
    simp [hm]

/-- **A newline between two commands means a semicolon** if and only if the first command does not
end in a subshell that stands first or behind `&&`, `||` or `|`. -/
theorem newline_iff {u v : Text} {lineNum : Int} (h0 : 0 ≤ lineNum) (hu : '\n' ∉ u)
    (hv : '\n' ∉ v) (hh : '#' ∉ u) {x y : Tree} {l m : List (CommandType × Tree)}
    (ha : Chain (tokenize u lineNum) x l) (hb : Chain (tokenize v lineNum) y m) :
    SameTree (makeCommand (tokenize (u ++ '\n' :: v) lineNum))
        (makeCommand (tokenize (u ++ [' ', ';', ' '] ++ v) lineNum)) ↔
      endsCommand u = true := by
  have hend := ha.lineEnd hu hh
  have hlines (u : Text) : ∀ t ∈ tokenize u lineNum, 0 ≤ t.lineNum := tokenize_lines u h0
  -- the array of the two commands with a semicolon between them
  have hjoined (u : Text) : ∀ t ∈ tokenize u lineNum ++ ⟨[';'], lineNum⟩ :: tokenize v lineNum,
      0 ≤ t.lineNum := by
    intro t ht
    rcases List.mem_append.1 ht with ht | ht
    · exact hlines u t ht
    rcases List.mem_cons.1 ht with rfl | ht
    · exact h0
    · exact hlines v t ht
  have hright : SameTree (makeCommand (tokenize (u ++ [' ', ';', ' '] ++ v) lineNum))
      (makeCommand (tokenize u lineNum ++ ⟨[';'], lineNum⟩ :: tokenize v lineNum)) := by
    have hlast : u.getLast? ≠ some '\n' := fun he => hu (List.mem_of_getLast? he)
    have htrail : Alike false (tokenize (u ++ [' '] ++ []) lineNum) (tokenize (u ++ []) lineNum) :=
      tokenize_trailing h0 h0 (by simp [isBlank]) (.inl rfl) hlast hend.inSubshell
    rw [List.append_nil, List.append_nil] at htrail
    have htail : ∀ t ∈ ⟨[';'], lineNum⟩ :: tokenize v lineNum, 0 ≤ t.lineNum := by
      intro t ht
      exact hjoined u t (List.mem_append_right _ ht)
    refine Eq.trans ?_ (makeCommand_alike (htrail.append (alike_of_words rfl htail htail)))
    apply makeCommand_alike
    apply alike_of_words _ (hlines _) (hjoined _)
    rw [tokenize_semicolon hv hend lineNum]
    simp
  have hleft : (tokenize (u ++ '\n' :: v) lineNum).map Token.word = _ :=
    tokenize_newline hu hv hend lineNum
  rw [show SameTree _ _ ↔ SameTree _ _ from ⟨fun h => h.trans hright, fun h => h.trans hright.symm⟩]
  by_cases hflags : endsCommand u = true
  · rw [if_pos ((flags_iff hu hh).2 hflags)] at hleft
    refine iff_of_true ?_ hflags
    apply makeCommand_alike
    apply alike_of_words _ (hlines _) (hjoined u)
    rw [hleft]
    simp
  · rw [if_neg (mt (flags_iff hu hh).1 hflags), List.append_nil] at hleft
    refine iff_of_false (fun hsame => ?_) hflags
    have happ : SameTree (makeCommand (tokenize (u ++ '\n' :: v) lineNum))
        (makeCommand (tokenize u lineNum ++ tokenize v lineNum)) := by
      apply makeCommand_alike
      apply alike_of_words _ (hlines _)
      · intro t ht
        rcases List.mem_append.1 ht with ht | ht
        · exact hlines u t ht
        · exact hlines v t ht
      · rw [hleft, List.map_append]
    -- one operator is missing
    have hs : IsSymbol CommandType.sequenceCommand.text ⟨[';'], lineNum⟩ :=
      ⟨fun h : lineNum = -1 => by omega, rfl⟩
    obtain ⟨c, hc, -, -, hopers⟩ := makeCommand_parses (ha.append hs hb)
    have htree := happ.symm.trans hsame
    rw [hc, Option.map_some] at htree
    obtain ⟨d, hd, hdc⟩ := Option.map_eq_some_iff.1 htree
    have hle := ha.operators_le hb hd
    rw [hdc, hopers] at hle
    simp only [List.map_append, List.map_cons, List.length_append, List.length_cons,
      List.length_map] at hle
    omega

/-- `(a) > f` in front of `b`. -/
theorem redirectedSubshell_newline :
    SameTree (makeCommand (tokenize (['(', 'a', ')', '>', 'f'] ++ '\n' :: ['b']) 1))
      (makeCommand (tokenize (['(', 'a', ')', '>', 'f'] ++ [' ', ';', ' '] ++ ['b']) 1)) := by
  have hu : tokenize ['(', 'a', ')', '>', 'f'] 1 =
      [⟨['('], 1⟩, ⟨['a'], 1⟩, ⟨[')'], 1⟩] ++ [⟨['>'], 1⟩, ⟨['f'], 1⟩] := by decide
  have hbody : tokenize ['a'] 1 = [⟨['a'], 1⟩] := by decide
  have hv : tokenize ['b'] 1 = [⟨['b'], 1⟩] := by decide
  have ha : Chain (tokenize ['(', 'a', ')', '>', 'f'] 1)
      (.subshell { output := some ['f'] } (.simple {} [['a']])) [] := by
    rw [hu]
    refine .single (.output (.subshell (x := .simple {} [['a']]) (l := []) (by decide) (by decide)
      (by decide) ?_ (.atom _)) (by decide) (by decide))
    exact hbody ▸ .single (.word (by decide))
  have hb : Chain (tokenize ['b'] 1) (.simple {} [['b']]) [] := by
    rw [hv]
    exact .single (.word (by decide))
  exact (newline_iff (by decide) (by decide) (by decide) (by decide) ha hb).2 (by decide)

/-- `(a)` in front of `b`: the newline is dropped, and the subshell is lost. -/
theorem subshell_newline :
    validate (tokenize ['(', 'a', ')'] 1) = .ok 1 ∧ validate (tokenize ['b'] 1) = .ok 1 ∧
      ¬ SameTree (makeCommand (tokenize (['(', 'a', ')'] ++ '\n' :: ['b']) 1))
        (makeCommand (tokenize (['(', 'a', ')'] ++ [' ', ';', ' '] ++ ['b']) 1)) := by
  refine ⟨by decide, by decide, ?_⟩
  unfold SameTree
  decide

end OsLabs.Shell
