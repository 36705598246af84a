import OsLabs.Shell.Grammar

/-!
# Shell scripts: the stacks of `make_command`

`makeCommandStacks` is the loop of `make_command` up to its last loop, so that what stays on the
command stack can be counted. An operand puts one command more on it than an operator takes, so
the commands left are the array's `balance`.
-/

namespace OsLabs.Shell

/-- The operator and the command stack behind the last token. -/
def makeCommandStacks (sub : List Token → Option Command) (line : Int) :
    Option Text → List Token → List Text → List Command → Option (List Text × List Command)
  | _, [], opers, cmds => some (opers, cmds)
  | prev, t :: rest, opers, cmds =>
    if t.lineNum = -1 then some (opers, cmds)
    else
      let token := eatTailWhiteSpace t.word
      if token = ['<'] then
        match rest, cmds with
        | w :: rest, c :: cmds =>
          makeCommandStacks sub line (some w.word) rest opers
            (c.mapIo (fun io => { io with input := some (eatTailWhiteSpace w.word) }) :: cmds)
        | _, _ => none
      else if token = ['>'] then
        match rest, cmds with
        | w :: rest, c :: cmds =>
          makeCommandStacks sub line (some w.word) rest opers
            (c.mapIo (fun io => { io with output := some (eatTailWhiteSpace w.word) }) :: cmds)
        | _, _ => none
      else if token = [')'] then
        match opers, cmds with
        | oper :: opers, c :: cmds =>
          if oper = ['('] then
            makeCommandStacks sub line (some t.word) rest opers (makeSubshellCommand c line :: cmds)
          else none
        | _, _ => none
      else if isOperator token then do
        let r ← popOperators line token opers cmds
        makeCommandStacks sub line (some t.word) rest (token :: r.1) r.2
      else if prev = some ['('] then do
        let c ← sub (tokenize token t.lineNum)
        makeCommandStacks sub line (some t.word) rest opers (c.setLine line :: cmds)
      else
        makeCommandStacks sub line (some t.word) rest opers (makeSimpleCommand token line :: cmds)

/-- The commands on the stack of `make_command` at its end, the result among them. -/
def commandsLeft (tokenArray : List Token) : Option (List Command) := do
  let line := (tokenArray.map Token.lineNum).headD (-1)
  let r ← makeCommandStacks (makeCommandAux (arraySize tokenArray)) line none tokenArray [] []
  popAll line r.1 r.2

/-- Operands less operators: an opening parenthesis is popped like an operator, a closing one
takes it off again, and the word behind a redirection is no operand. -/
def balance : List Token → Int
  | [] => 0
  | t :: rest =>
    if t.lineNum = -1 then 0
    else
      let token := eatTailWhiteSpace t.word
      if token = ['<'] ∨ token = ['>'] then
        match rest with
        | [] => 0
        | _ :: rest => balance rest
      else if token = [')'] then balance rest + 1
      else if isOperator token then balance rest - 1
      else balance rest + 1

/-! ## The loop and its end -/

variable {sub : List Token → Option Command} {line : Int}

/-- `make_command` is the loop and then its end. -/
theorem makeCommandLoop_eq (ts : List Token) :
    ∀ (prev : Option Text) (opers : List Text) (cmds : List Command),
      makeCommandLoop sub line prev ts opers cmds =
        (makeCommandStacks sub line prev ts opers cmds).bind fun r => finish line r.1 r.2 := by
  induction ts using loop_induction with
  | nil => intro _ _ _; rfl
  | cons t rest ih ih' =>
    intro prev opers cmds
    unfold makeCommandLoop makeCommandStacks
    split
    · rfl
    dsimp only
    split
    · rcases rest with _ | ⟨w, rest⟩
      · rfl
      rcases cmds with _ | ⟨c, cmds⟩
      · rfl
      exact ih' w rest rfl _ _ _
    split
    · rcases rest with _ | ⟨w, rest⟩
      · rfl
      rcases cmds with _ | ⟨c, cmds⟩
      · rfl
      exact ih' w rest rfl _ _ _
    split
    · rcases opers with _ | ⟨oper, opers⟩
      · rfl
      rcases cmds with _ | ⟨c, cmds⟩
      · rfl
      dsimp only
      split
      · exact ih _ _ _
      · rfl
    split
    · cases popOperators line (eatTailWhiteSpace t.word) opers cmds with
      | none => rfl
      | some r => exact ih _ _ _
    split
    · cases sub (tokenize (eatTailWhiteSpace t.word) t.lineNum) with
      | none => rfl
      | some c => exact ih _ _ _
    · exact ih _ _ _

/-! ## Counting -/

/-- Combining takes an operator and one of its two operands. -/
theorem combine_length {oper : Text} {cmds cmds' : List Command}
    (h : combine line oper cmds = some cmds') : cmds.length = cmds'.length + 1 := by
  rcases cmds with _ | ⟨c, _ | ⟨d, cmds⟩⟩
  · cases h
  · cases h
  · cases h
    rfl

theorem popOperators_length {token : Text} (opers : List Text) :
    ∀ {cmds : List Command} {r : List Text × List Command},
      popOperators line token opers cmds = some r →
      (r.2.length : Int) - r.1.length = cmds.length - opers.length := by
  induction opers with
  | nil =>
    intro cmds r h
    cases h
    rfl
  | cons oper opers ih =>
    intro cmds r h
    unfold popOperators at h
    split at h
    · obtain ⟨cmds', hc, h⟩ := Option.bind_eq_some_iff.1 h
      have hl := combine_length hc
      have hr := ih h
      rw [List.length_cons]
      omega
    · cases h
      rfl

theorem popAll_length (opers : List Text) : ∀ {cmds cmds' : List Command},
    popAll line opers cmds = some cmds' → (cmds'.length : Int) = cmds.length - opers.length := by
  induction opers with
  | nil =>
    intro cmds cmds' h
    cases h
    simp
  | cons oper opers ih =>
    intro cmds cmds' h
    obtain ⟨cmds'', hc, h⟩ := Option.bind_eq_some_iff.1 h
    have hl := combine_length hc
    have hr := ih h
    rw [List.length_cons]
    omega

/-- The loop changes the number of commands less that of operators by the balance. -/
theorem makeCommandStacks_length (ts : List Token) :
    ∀ {prev : Option Text} {opers : List Text} {cmds : List Command}
      {r : List Text × List Command},
      makeCommandStacks sub line prev ts opers cmds = some r →
      (r.2.length : Int) - r.1.length = cmds.length - opers.length + balance ts := by
  induction ts using loop_induction with
  | nil =>
    intro prev opers cmds r h
    cases h
    simp [balance]
  | cons t rest ih ih' =>
    intro prev opers cmds r h
    unfold makeCommandStacks at h
    unfold balance
    by_cases hl : t.lineNum = -1
    · rw [if_pos hl] at h ⊢
      cases h
      exact (Int.add_zero _).symm
    rw [if_neg hl] at h ⊢
    dsimp only at h ⊢
    generalize eatTailWhiteSpace t.word = token at h ⊢
    by_cases h12 : token = ['<'] ∨ token = ['>']
    · -- the command on top is changed, and a token skipped
      rw [if_pos h12]
      rcases rest with _ | ⟨w, rest⟩
      · rcases h12 with rfl | rfl <;> cases h
      rcases cmds with _ | ⟨c, cmds⟩
      · rcases h12 with rfl | rfl <;> cases h
      rcases h12 with rfl | rfl
      · rw [if_pos rfl] at h
        have hr := ih' w rest rfl h
        rwa [List.length_cons] at hr
      · rw [if_neg (by decide), if_pos rfl] at h
        have hr := ih' w rest rfl h
        rwa [List.length_cons] at hr
    rw [if_neg h12]
    obtain ⟨h1, h2⟩ := not_or.1 h12
    rw [if_neg h1, if_neg h2] at h
    by_cases h3 : token = [')']
    · rw [if_pos h3] at h ⊢
      rcases opers with _ | ⟨oper, opers⟩
      · cases h
      rcases cmds with _ | ⟨c, cmds⟩
      · cases h
      dsimp only at h
      split at h
      · have hr := ih h
        rw [List.length_cons, List.length_cons] at *
        omega
      · cases h
    rw [if_neg h3] at h ⊢
    by_cases h4 : isOperator token = true
    · rw [if_pos h4] at h ⊢
      obtain ⟨q, hq, h⟩ := Option.bind_eq_some_iff.1 h
      have hp := popOperators_length opers hq
      have hr := ih h
      rw [List.length_cons] at hr
      omega
    rw [if_neg h4] at h ⊢
    split at h
    · obtain ⟨c, -, h⟩ := Option.bind_eq_some_iff.1 h
      have hr := ih h
      rw [List.length_cons] at hr
      omega
    · have hr := ih h
      rw [List.length_cons] at hr
      omega

/-- The commands left are the balance of the array. -/
theorem commandsLeft_length {ts : List Token} {cmds : List Command}
    (h : commandsLeft ts = some cmds) : (cmds.length : Int) = balance ts := by
  obtain ⟨r, hr, h⟩ := Option.bind_eq_some_iff.1 h
  have h1 := makeCommandStacks_length ts hr
  have h2 := popAll_length r.1 h
  rw [List.length_nil, List.length_nil] at h1
  omega

/-- Where `make_command` returns its last loop has ended. -/
theorem commandsLeft_isSome {ts : List Token} {c : Command} (h : makeCommand ts = some c) :
    ∃ cmds, commandsLeft ts = some cmds := by
  unfold makeCommand makeCommandAux at h
  rw [makeCommandLoop_eq] at h
  obtain ⟨r, hr, h⟩ := Option.bind_eq_some_iff.1 h
  unfold commandsLeft
  dsimp only
  rw [hr]
  obtain ⟨opers, cmds⟩ := r
  rcases opers with _ | ⟨oper, opers⟩
  · exact ⟨cmds, rfl⟩
  · obtain ⟨cmds', hp, -⟩ := Option.bind_eq_some_iff.1 h
    exact ⟨cmds', hp⟩

/-! ## Operands -/

theorem Operand.balance {ts : List Token} {t : Tree} (h : Operand ts t) (rest : List Token) :
    OsLabs.Shell.balance (ts ++ rest) = 1 + OsLabs.Shell.balance rest := by
  have hword {w : Token} (hw : IsWord w) (rest : List Token) :
      OsLabs.Shell.balance (w :: rest) = 1 + OsLabs.Shell.balance rest := by
    rw [OsLabs.Shell.balance.eq_def]
    simp only [hw.live, hw.ne, hw.noOperator, if_false, or_self, Bool.false_eq_true]
    omega
  have hredirect {s w : Token} {c : Char} (hs : IsSymbol [c] s) (hc : c = '<' ∨ c = '>') :
      OsLabs.Shell.balance (s :: w :: rest) = OsLabs.Shell.balance rest := by
    have he : eatTailWhiteSpace [c] = [c] := by rcases hc with rfl | rfl <;> decide
    have hor : [c] = ['<'] ∨ [c] = ['>'] := by rcases hc with rfl | rfl <;> decide
    rw [OsLabs.Shell.balance.eq_def]
    simp only [hs.live, hs.word, he, hor, if_false, if_true]
  match h with
  | .word hw => exact hword hw rest
  | .subshell (o := o) (c := c) ho hw hc _ _ =>
    have heo : eatTailWhiteSpace ['('] = ['('] := by decide
    have hec : eatTailWhiteSpace [')'] = [')'] := by decide
    have hopen (ts : List Token) :
        OsLabs.Shell.balance (o :: ts) = OsLabs.Shell.balance ts - 1 := by
      rw [OsLabs.Shell.balance.eq_def]
      simp only [ho.live, ho.word, heo, if_false]
      rfl
    have hclose : OsLabs.Shell.balance (c :: rest) = OsLabs.Shell.balance rest + 1 := by
      rw [OsLabs.Shell.balance.eq_def]
      simp only [hc.live, hc.word, hec, if_false]
      rfl
    rw [List.cons_append, List.cons_append, List.cons_append, List.nil_append, hopen, hword hw,
      hclose]
    omega
  | .input h hs _ =>
    rw [List.append_assoc, h.balance]
    exact congrArg (1 + ·) (hredirect hs (.inl rfl))
  | .output h hs _ =>
    rw [List.append_assoc, h.balance]
    exact congrArg (1 + ·) (hredirect hs (.inr rfl))

/-- Operands and operators alternate. -/
theorem Chain.balance {ts : List Token} {x : Tree} {l : List (CommandType × Tree)}
    (h : Chain ts x l) (rest : List Token) :
    OsLabs.Shell.balance (ts ++ rest) = 1 + OsLabs.Shell.balance rest := by
  match h with
  | .single h => exact h.balance rest
  | @Chain.snoc _ us _ _ _ s type hc hs ho =>
    have hoper : OsLabs.Shell.balance (s :: (us ++ rest)) =
        OsLabs.Shell.balance (us ++ rest) - 1 := by
      rw [OsLabs.Shell.balance.eq_def]
      simp only [hs.live, hs.word, eatTailWhiteSpace_text, text_ne type, isOperator_text, if_false,
        or_self, if_true]
    rw [List.append_assoc, List.cons_append, hc.balance, hoper, ho.balance]
    omega

end OsLabs.Shell
