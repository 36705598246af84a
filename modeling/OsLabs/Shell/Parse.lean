import OsLabs.Shell.Command

/-!
# Shell scripts: the recursion of `make_command`

Subshell arrays have shorter words than the array they stand in, so the depth
bound of `makeCommandAux` is never reached (`makeCommandAux_eq`). Trailing
blanks of the last token make no difference (`makeCommandLoop_trimLast`), which
is how much `tokenize` of a trimmed text can differ from `tokenize` of the text.
-/

namespace OsLabs.Shell

/-! ## Trailing blanks -/

theorem eatTailWhiteSpace_append {v : Text} (hv : ∀ c ∈ v, isBlank c) (u : Text) :
    eatTailWhiteSpace (u ++ v) = eatTailWhiteSpace u := by
  unfold eatTailWhiteSpace List.rdropWhile
  rw [List.reverse_append, List.dropWhile_append_of_pos]
  intro c hc
  exact hv c (List.mem_reverse.1 hc)

theorem eatTailWhiteSpace_idem (u : Text) :
    eatTailWhiteSpace (eatTailWhiteSpace u) = eatTailWhiteSpace u :=
  List.rdropWhile_idempotent ..

theorem eatTailWhiteSpace_split (u : Text) :
    ∃ v, u = eatTailWhiteSpace u ++ v ∧ ∀ c ∈ v, isBlank c :=
  ⟨u.rtakeWhile isBlank, (List.rdropWhile_append_rtakeWhile ..).symm,
    fun _ hc => List.mem_rtakeWhile_imp hc⟩

theorem eatTailWhiteSpace_length (u : Text) : (eatTailWhiteSpace u).length ≤ u.length := by
  obtain ⟨v, he, -⟩ := eatTailWhiteSpace_split u
  have hlen := congrArg List.length he
  rw [List.length_append] at hlen
  omega

/-- The array with the trailing blanks of its last word removed. -/
def trimLast : List Token → List Token
  | [] => []
  | [t] => [{ t with word := eatTailWhiteSpace t.word }]
  | t :: u :: ts => t :: trimLast (u :: ts)

theorem trimLast_concat (ts : List Token) (t : Token) :
    trimLast (ts ++ [t]) = ts ++ [{ t with word := eatTailWhiteSpace t.word }] := by
  induction ts with
  | nil => rfl
  | cons u ts ih =>
    rcases ts with _ | ⟨v, ts⟩
    · rfl
    · simpa [trimLast] using ih

theorem tokenize_eq (text : Text) (lineNum : Int) :
    tokenize text lineNum =
      let s := Tokenizer.loop lineNum {} text
      s.tokenArray ++ if s.buffer = [] then [] else [⟨s.buffer, lineNum + s.lineOffset⟩] := by
  unfold tokenize Tokenizer.flush
  dsimp only
  rcases h : (Tokenizer.loop lineNum {} text).buffer with _ | ⟨c, b⟩ <;>
    simp [Tokenizer.makeToken]

/-- Trimming a text leaves its tokens as they are, but for blanks at the end of the last one. -/
theorem trimLast_tokenize {text : Text} {lineNum : Int}
    (h : ∀ t ∈ (tokenize text lineNum).getLast?, eatTailWhiteSpace t.word ≠ []) :
    trimLast (tokenize (eatTailWhiteSpace text) lineNum) = trimLast (tokenize text lineNum) := by
  obtain ⟨v, he, hv⟩ := eatTailWhiteSpace_split text
  generalize eatTailWhiteSpace text = u at he
  subst he
  rcases v with _ | ⟨c, v⟩
  · rw [List.append_nil]
  obtain ⟨b, hb, hloop⟩ := Tokenizer.loop_blanks lineNum (Tokenizer.loop lineNum {} u) (c :: v) hv
  rw [← Tokenizer.loop_append_blank lineNum {} u (hv c (by simp)) v] at hloop
  rw [tokenize_eq, hloop] at h
  rw [tokenize_eq, tokenize_eq, hloop]
  generalize Tokenizer.loop lineNum {} u = s at *
  rcases hs : s.buffer with _ | ⟨d, w⟩
  · rcases b with _ | ⟨e, b⟩
    · simp [hs]
    · exfalso
      refine h ⟨e :: b, lineNum + s.lineOffset⟩ (by simp [hs]) ?_
      exact List.rdropWhile_eq_nil_iff.2 hb
  · have hbuf : d :: w ++ b ≠ [] := by simp
    simp only [hs, reduceCtorEq, if_false, hbuf, trimLast_concat, eatTailWhiteSpace_append hb]

/-! ## Subshells are smaller -/

variable {sub sub' : List Token → Option Command} {line : Int}

@[simp] theorem makeCommandLoop_nil (prev : Option Text) (opers : List Text)
    (cmds : List Command) : makeCommandLoop sub line prev [] opers cmds = finish line opers cmds :=
  rfl

def prevSize (prev : Option Text) : Nat := (prev.getD []).length

/-- Induction along the loop, which goes on by one or by two tokens. -/
theorem loop_induction {P : List Token → Prop} (nil : P [])
    (cons : ∀ t rest, P rest → (∀ w rest', rest = w :: rest' → P rest') → P (t :: rest)) :
    ∀ ts, P ts
  | [] => nil
  | [t] => cons t [] nil fun _ _ h => absurd h (by simp)
  | t :: u :: ts =>
    cons t (u :: ts) (loop_induction nil cons (u :: ts)) fun w rest h => by
      cases h
      exact loop_induction nil cons ts

/-- The loop hands only smaller arrays to the parser of subshells. -/
theorem makeCommandLoop_congr {n : Nat} (h : ∀ a, arraySize a < n → sub a = sub' a)
    (ts : List Token) : ∀ (prev : Option Text) (opers : List Text) (cmds : List Command),
      prevSize prev + arraySize ts ≤ n →
      makeCommandLoop sub line prev ts opers cmds =
        makeCommandLoop sub' line prev ts opers cmds := by
  induction ts using loop_induction with
  | nil => intro _ _ _ _; rfl
  | cons t rest ih ih' =>
    intro prev opers cmds hn
    rw [arraySize_cons] at hn
    have hword (w : Text) : prevSize (some w) = w.length := rfl
    unfold makeCommandLoop
    split
    · rfl
    dsimp only
    split
    · rcases rest with _ | ⟨w, rest⟩
      · rfl
      rcases cmds with _ | ⟨c, cmds⟩
      · rfl
      rw [arraySize_cons] at hn
      exact ih' w rest rfl _ _ _ (by rw [hword]; omega)
    split
    · rcases rest with _ | ⟨w, rest⟩
      · rfl
      rcases cmds with _ | ⟨c, cmds⟩
      · rfl
      rw [arraySize_cons] at hn
      exact ih' w rest rfl _ _ _ (by rw [hword]; omega)
    have hnext := hword t.word
    split
    · split
      · split
        · exact ih _ _ _ (by omega)
        · rfl
      · rfl
    split
    · cases popOperators line (eatTailWhiteSpace t.word) opers cmds with
      | none => rfl
      | some r => exact ih _ _ _ (by omega)
    split
    · next hprev =>
      have hsub : sub (tokenize (eatTailWhiteSpace t.word) t.lineNum) =
          sub' (tokenize (eatTailWhiteSpace t.word) t.lineNum) := by
        apply h
        have h1 := arraySize_tokenize (eatTailWhiteSpace t.word) t.lineNum
        have h2 := eatTailWhiteSpace_length t.word
        have h3 : prevSize prev = 1 := by rw [hprev]; rfl
        omega
      rw [hsub]
      cases sub' (tokenize (eatTailWhiteSpace t.word) t.lineNum) with
      | none => rfl
      | some c => exact ih _ _ _ (by omega)
    · exact ih _ _ _ (by omega)

/-- A depth bound above the size of the array is enough. -/
theorem makeCommandAux_eq {n : Nat} {ts : List Token} (h : arraySize ts < n) :
    makeCommandAux n ts = makeCommand ts := by
  induction n using Nat.strongRecOn generalizing ts with
  | ind n ih =>
    rcases n with _ | n
    · omega
    unfold makeCommand makeCommandAux
    apply makeCommandLoop_congr (n := arraySize ts)
    · intro a ha
      rw [ih n (by omega) (by omega)]
      rcases Nat.lt_or_ge (arraySize ts) n with hn | hn
      · exact (ih (arraySize ts) (by omega) (by omega)).symm
      · rw [show arraySize ts = n by omega]
        exact (ih n (by omega) (by omega)).symm
    · simp [prevSize]

/-! ## The last word -/

/-- The loop reads the last word without its trailing blanks. -/
theorem makeCommandLoop_trimLast (ts : List Token) :
    ∀ (prev : Option Text) (opers : List Text) (cmds : List Command),
      makeCommandLoop sub line prev (trimLast ts) opers cmds =
        makeCommandLoop sub line prev ts opers cmds := by
  induction ts using loop_induction with
  | nil => intro _ _ _; rfl
  | cons t rest ih ih' =>
    intro prev opers cmds
    rcases rest with _ | ⟨u, rest⟩
    · unfold trimLast makeCommandLoop
      simp only [eatTailWhiteSpace_idem, makeCommandLoop_nil]
    rw [trimLast]
    have ih'' := ih' u rest rfl
    unfold makeCommandLoop
    simp only [ih]
    rcases rest with _ | ⟨v, rest⟩
    · cases cmds <;> simp only [trimLast, eatTailWhiteSpace_idem, makeCommandLoop_nil]
    · cases cmds <;> simp only [trimLast, ih'']

theorem makeCommandAux_trimLast (n : Nat) (ts : List Token) :
    makeCommandAux n (trimLast ts) = makeCommandAux n ts := by
  rcases n with _ | n
  · rfl
  unfold makeCommandAux
  rw [makeCommandLoop_trimLast]
  rcases ts with _ | ⟨t, _ | ⟨u, ts⟩⟩ <;> rfl

end OsLabs.Shell
