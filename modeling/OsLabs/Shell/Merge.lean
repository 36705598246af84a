import OsLabs.Shell.Separation
import OsLabs.Shell.Trailing

/-!
# Shell scripts: texts with and without trailing blanks

Two lists of texts that agree, or that differ in the blanks at the end of one line, are joined
to separations of the same commands (`mergeLoop_same`, `mergeLoop_trimmed`).
-/

namespace OsLabs.Shell

/-! ## Texts that differ in trailing blanks -/

def isParen (c : Char) : Bool := c == '(' || c == ')'

/-- The last parenthesis is not an opening one. -/
def Closed (text : Text) : Prop := (text.filter isParen).getLast? ≠ some '('

theorem Closed.of_append {u v : Text} (h : Closed (u ++ v)) : Closed v := by
  unfold Closed at h ⊢
  rw [List.filter_append, List.getLast?_append] at h
  intro hv
  rw [hv] at h
  exact h rfl

/-- A character in front of the rest of a text. -/
theorem open_cons {c : Char} {text : Text} {P Q : Prop} (hc : Q → c = '(' ∨ c ≠ ')' ∧ P)
    (h : (text.filter isParen).getLast? = some '(' ∨ text.filter isParen = [] ∧ Q) :
    ((c :: text).filter isParen).getLast? = some '(' ∨ (c :: text).filter isParen = [] ∧ P := by
  rcases h with h | ⟨h, hq⟩
  · left
    by_cases hp : isParen c = true
    · rw [List.filter_cons_of_pos hp, List.getLast?_cons, h]
      rfl
    · rw [List.filter_cons_of_neg hp, h]
  · by_cases h2 : c = '('
    · left
      rw [h2, List.filter_cons_of_pos rfl, h]
      rfl
    · right
      obtain ⟨h1, hp⟩ := (hc hq).resolve_left h2
      rw [List.filter_cons_of_neg (by simp [isParen, h1, h2])]
      exact ⟨h, hp⟩

open Tokenizer in
/-- The text of a subshell is read only behind an opening parenthesis. -/
theorem inSubshell_loop {lineNum : Int} (u : Text) : ∀ s : Tokenizer,
    (s.inSubshell = true → s.inComment = false) → (loop lineNum s u).inSubshell = true →
    (u.filter isParen).getLast? = some '(' ∨ u.filter isParen = [] ∧ s.inSubshell = true := by
  intro s hs hr
  fun_induction loop lineNum s u with
  | case1 s => exact .inr ⟨rfl, hr⟩
  | case2 s c1 =>
    have hi := @iter_inSubshell lineNum s hs c1 ' '
    exact open_cons (fun h => (hi h).2) (.inr ⟨rfl, hr⟩)
  | case3 s c1 c2 text r hflag ih =>
    have hi := @iter_inSubshell lineNum s hs c1 c2
    obtain ⟨rfl, ha⟩ := iter_ahead hflag
    have hne : c1 ≠ '(' ∧ c1 ≠ ')' := by
      rcases ha with rfl | rfl <;> decide
    have hp : isParen c1 = false := by simp [isParen, hne]
    rw [List.filter_cons_of_neg (by rw [hp]; decide), List.filter_cons_of_neg (by rw [hp]; decide)]
    refine (ih (fun h => (hi h).1) hr).imp_right fun h => ⟨h.1, ?_⟩
    exact ((hi h.2).2.resolve_left hne.1).2
  | case4 s c1 c2 text r hflag ih =>
    have hi := @iter_inSubshell lineNum s hs c1 c2
    exact open_cons (fun h => (hi h).2) (ih (fun h => (hi h).1) hr)

theorem inSubshell_of_closed {lineNum : Int} {u : Text} (h : Closed u) :
    (Tokenizer.loop lineNum {} u).inSubshell = false := by
  by_contra hs
  rcases inSubshell_loop u {} nofun (Bool.not_eq_false _ ▸ hs) with hu | ⟨-, hu⟩
  · exact h hu
  · cases hu

/-- The first text is the second one with blanks at the end of a line outside subshells. -/
def TrimText (text text' : Text) : Prop :=
  text = text' ∨ ∃ u bs v : Text, text = u ++ bs ++ v ∧ text' = u ++ v ∧
    (∀ c ∈ bs, isBlank c) ∧ (v = [] ∨ v.head? = some '\n') ∧ u.getLast? ≠ some '\n' ∧ Closed u

theorem TrimText.alike {text text' : Text} (h : TrimText text text') {lineNum lineNum' : Int}
    (hl : 0 ≤ lineNum) (hl' : 0 ≤ lineNum') :
    Alike false (tokenize text lineNum) (tokenize text' lineNum') := by
  rcases h with rfl | ⟨u, bs, v, rfl, rfl, hbs, hv, hu, hc⟩
  · exact tokenize_alike _ hl hl'
  · exact tokenize_trailing hl hl' hbs hv hu (inSubshell_of_closed hc)

/-- Separations of the same commands. -/
structure AlikeSeparation (c c' : Separation) : Prop where
  cmd : TrimText c.mCmd c'.mCmd
  line : 0 ≤ c.mLine
  line' : 0 ≤ c'.mLine

/-- The same verdict, and the same trees. -/
def SameResult : Except Int (Option (List Command)) → Except Int (Option (List Command)) → Prop
  | .ok cmds, .ok cmds' => cmds.map (List.map Command.tree) = cmds'.map (List.map Command.tree)
  | .error _, .error _ => True
  | _, _ => False

instance (r r' : Except Int (Option (List Command))) : Decidable (SameResult r r') :=
  match r, r' with
  | .ok cmds, .ok cmds' =>
    inferInstanceAs (Decidable (cmds.map (List.map Command.tree) =
      cmds'.map (List.map Command.tree)))
  | .error _, .error _ => isTrue trivial
  | .ok _, .error _ => isFalse id
  | .error _, .ok _ => isFalse id

theorem validateAll_alike {cs cs' : List Separation} (h : List.Forall₂ AlikeSeparation cs cs') :
    (validateAll cs = .ok 1 ∧ validateAll cs' = .ok 1) ∨
      ∃ line line', validateAll cs = .error line ∧ validateAll cs' = .error line' := by
  induction h with
  | nil => exact .inl ⟨rfl, rfl⟩
  | @cons c c' cs cs' hc _ ih =>
    have hv := validate_alike (hc.cmd.alike hc.line hc.line')
    have h1 := hc.line
    have h2 := hc.line'
    have hone {ts : List Token} {r : Int} (h : validate ts = .ok r) : r = 1 := validateAux_ok h
    unfold validateAll
    rw [if_neg (show c.mLine ≠ -1 by omega), if_neg (show c'.mLine ≠ -1 by omega)]
    cases hl : validate (tokenize c.mCmd c.mLine) with
    | error line =>
      rw [hl] at hv
      cases hr : validate (tokenize c'.mCmd c'.mLine) with
      | error line' => exact .inr ⟨line, line', rfl, rfl⟩
      | ok r =>
        rw [hr, hone hr] at hv
        cases hv.2 rfl
    | ok r =>
      rw [hl, hone hl] at hv
      rw [hv.1 rfl, hone hl]
      rcases ih with ⟨h1, h2⟩ | ⟨line, line', h1, h2⟩
      · left
        rw [h1, h2]
        exact ⟨rfl, rfl⟩
      · right
        rw [h1, h2]
        exact ⟨line, line', rfl, rfl⟩

theorem makeAll_alike {cs cs' : List Separation} (h : List.Forall₂ AlikeSeparation cs cs') :
    (makeAll cs).map (List.map Command.tree) = (makeAll cs').map (List.map Command.tree) := by
  induction h with
  | nil => rfl
  | @cons c c' cs cs' hc _ ih =>
    have hm := makeCommand_alike (hc.cmd.alike hc.line hc.line')
    have h1 := hc.line
    have h2 := hc.line'
    unfold makeAll
    rw [if_neg (show c.mLine ≠ -1 by omega), if_neg (show c'.mLine ≠ -1 by omega)]
    unfold SameTree at hm
    cases hl : makeCommand (tokenize c.mCmd c.mLine) <;>
      cases hr : makeCommand (tokenize c'.mCmd c'.mLine) <;> rw [hl, hr] at hm
    · rfl
    · cases hm
    · cases hm
    · cases hl' : makeAll cs <;> cases hr' : makeAll cs' <;> rw [hl', hr'] at ih
      · rfl
      · cases ih
      · cases ih
      · simp only [Option.map_some, Option.some_inj] at hm ih
        simp [hm, ih]

/-- Separations of the same commands give the same result. -/
theorem sameResult_of_alike {g : Locals} {script script' : Text}
    (h : List.Forall₂ AlikeSeparation (makeSeparation g script) (makeSeparation g script')) :
    SameResult (makeCommands g script) (makeCommands g script') := by
  unfold makeCommands
  dsimp only
  rcases validateAll_alike h with ⟨h1, h2⟩ | ⟨line, line', h1, h2⟩
  · rw [h1, h2]
    exact makeAll_alike h
  · rw [h1, h2]
    trivial

/-! ## Joining the texts -/

/-- The lists of two runs without a difference. -/
def SameTexts (words words' : List (Text × Int)) : Prop :=
  words.map Prod.fst = words'.map Prod.fst ∧ (∀ w ∈ words, 0 ≤ w.2) ∧ ∀ w ∈ words', 0 ≤ w.2

theorem SameTexts.cases {w : Text × Int} {words words' : List (Text × Int)}
    (h : SameTexts (w :: words) words') : ∃ line' rest, words' = (w.1, line') :: rest ∧
      0 ≤ w.2 ∧ 0 ≤ line' ∧ SameTexts words rest := by
  obtain ⟨h, hl, hl'⟩ := h
  rcases words' with _ | ⟨⟨w', line'⟩, rest⟩
  · cases h
  · rw [List.map_cons, List.map_cons, List.cons.injEq] at h
    obtain ⟨rfl, h⟩ := h
    exact ⟨line', rest, rfl, hl _ List.mem_cons_self, hl' _ List.mem_cons_self, h,
      fun u hu => hl u (List.mem_cons_of_mem _ hu), fun u hu => hl' u (List.mem_cons_of_mem _ hu)⟩

theorem SameTexts.nil {words' : List (Text × Int)} (h : SameTexts [] words') : words' = [] :=
  List.map_eq_nil_iff.1 h.1.symm

/-- What has been joined so far, with two lines. -/
def SameRun (acc acc' : Option (List Text × Int)) : Prop :=
  acc.map Prod.fst = acc'.map Prod.fst ∧ (∀ a ∈ acc, 0 ≤ a.2) ∧ ∀ a ∈ acc', 0 ≤ a.2

theorem sameRun_none : SameRun none none := ⟨rfl, nofun, nofun⟩

theorem sameRun_some {texts : List Text} {line line' : Int} (hl : 0 ≤ line) (hl' : 0 ≤ line') :
    SameRun (some (texts, line)) (some (texts, line')) := by
  refine ⟨rfl, ?_, ?_⟩
  · rintro a ⟨⟩
    exact hl
  · rintro a ⟨⟩
    exact hl'

theorem SameRun.cases {acc acc' : Option (List Text × Int)} (h : SameRun acc acc') :
    acc = none ∧ acc' = none ∨ ∃ texts line line', acc = some (texts, line) ∧
      acc' = some (texts, line') ∧ 0 ≤ line ∧ 0 ≤ line' := by
  obtain ⟨h, hl, hl'⟩ := h
  rcases acc with _ | ⟨texts, line⟩ <;> rcases acc' with _ | ⟨texts', line'⟩
  · exact .inl ⟨rfl, rfl⟩
  · cases h
  · cases h
  · obtain rfl := Option.some_inj.1 h
    exact .inr ⟨texts, line, line', rfl, rfl, hl _ rfl, hl' _ rfl⟩

theorem mergeLoop_same {words : List (Text × Int)} : ∀ {words' : List (Text × Int)}
    {acc acc' : Option (List Text × Int)}, SameTexts words words' → SameRun acc acc' →
    List.Forall₂ AlikeSeparation (mergeLoop acc words) (mergeLoop acc' words') := by
  induction words with
  | nil =>
    intro words' acc acc' h hacc
    obtain rfl := h.nil
    rcases hacc.cases with ⟨rfl, rfl⟩ | ⟨texts, line, line', rfl, rfl, hl, hl'⟩
    · exact .nil
    · exact .cons ⟨.inl rfl, hl, hl'⟩ .nil
  | cons w words ih =>
    intro words' acc acc' h hacc
    obtain ⟨line', rest, rfl, hw, hw', h⟩ := h.cases
    rcases hacc.cases with ⟨rfl, rfl⟩ | ⟨texts, l, l', rfl, rfl, hl, hl'⟩
    · unfold mergeLoop
      split
      · exact ih h (sameRun_some hw hw')
      · exact .cons ⟨.inl rfl, hw, hw'⟩ (ih h sameRun_none)
    · unfold mergeLoop
      split
      · exact ih h (sameRun_some hl hl')
      · exact .cons ⟨.inl rfl, hl, hl'⟩ (ih h sameRun_none)

/-- Blanks at the end of a line in one of the texts that are joined. -/
structure Trimmed (as : List Text) (p bs v : Text) : Prop where
  blanks : ∀ c ∈ bs, isBlank c
  rest : v = [] ∨ v.head? = some '\n'
  ne : p ≠ []
  last : p.getLast? ≠ some '\n'
  closed : Closed (as.flatten ++ p)
  tailing : tailingOperator (p ++ bs ++ v) = tailingOperator (p ++ v)
  tailing_nil : v = [] → tailingOperator p = false

theorem Trimmed.text {as : List Text} {p bs v : Text} (h : Trimmed as p bs v) {us : List Text}
    (hv : us.flatten = [] ∨ v ≠ []) :
    TrimText (as ++ (p ++ bs ++ v) :: us).flatten (as ++ (p ++ v) :: us).flatten := by
  refine .inr ⟨as.flatten ++ p, bs, v ++ us.flatten, ?_, ?_, h.blanks, ?_, ?_, h.closed⟩
  · simp
  · simp
  · rcases h.rest with hr | hr
    · rw [hr, List.nil_append]
      exact .inl (hv.resolve_right fun hne => hne hr)
    · right
      rw [List.head?_append, hr]
      rfl
  · rw [List.getLast?_append_of_ne_nil _ h.ne]
    exact h.last

/-- A run of joined texts with the trimmed one among them. -/
theorem mergeLoop_run {as : List Text} {p bs v : Text} (h : Trimmed as p bs v) (hv : v ≠ [])
    {words : List (Text × Int)} : ∀ {words' : List (Text × Int)} {us : List Text}
    {line line' : Int}, SameTexts words words' → 0 ≤ line → 0 ≤ line' →
    List.Forall₂ AlikeSeparation
      (mergeLoop (some (as ++ (p ++ bs ++ v) :: us, line)) words)
      (mergeLoop (some (as ++ (p ++ v) :: us, line')) words') := by
  induction words with
  | nil =>
    intro words' us line line' hw hl hl'
    obtain rfl := hw.nil
    refine .cons ⟨?_, hl, hl'⟩ .nil
    rw [List.length_append, List.length_append, List.length_cons, List.length_cons]
    generalize (as.length + (us.length + 1) + 1) / 2 = k
    rw [List.take_append, List.take_append]
    rcases hk : k - as.length with _ | m
    · exact .inl rfl
    · rw [List.take_succ_cons, List.take_succ_cons, List.take_of_length_le (by omega)]
      exact h.text (.inr hv)
  | cons w words ih =>
    intro words' us line line' hw hl hl'
    obtain ⟨wline', rest, rfl, -, -, hw⟩ := hw.cases
    have hcat (x : Text) : as ++ x :: us ++ [w.1] = as ++ x :: (us ++ [w.1]) := by simp
    unfold mergeLoop
    rw [hcat, hcat]
    split
    · exact ih hw hl hl'
    · exact .cons ⟨h.text (.inr hv), hl, hl'⟩ (mergeLoop_same hw sameRun_none)

/-- Two lists of texts that differ in the trimmed one. -/
def TrimmedTexts (cs : List Text) (p bs v : Text) (words words' : List (Text × Int)) : Prop :=
  ∃ us, words.map Prod.fst = cs ++ (p ++ bs ++ v) :: us ∧
    words'.map Prod.fst = cs ++ (p ++ v) :: us ∧ (∀ w ∈ words, 0 ≤ w.2) ∧ ∀ w ∈ words', 0 ≤ w.2

theorem Trimmed.of_append {as cs : List Text} {p bs v : Text} (h : Trimmed (as ++ cs) p bs v) :
    Trimmed cs p bs v := by
  refine { h with closed := ?_ }
  have hc := h.closed
  rw [List.flatten_append, List.append_assoc] at hc
  exact hc.of_append

theorem mergeLoop_trimmed {p bs v : Text} {cs : List Text} : ∀ {words words' : List (Text × Int)}
    {acc acc' : Option (List Text × Int)}, TrimmedTexts cs p bs v words words' →
    SameRun acc acc' → Trimmed ((acc.map Prod.fst).getD [] ++ cs) p bs v →
    List.Forall₂ AlikeSeparation (mergeLoop acc words) (mergeLoop acc' words') := by
  induction cs with
  | nil =>
    rintro words words' acc acc' ⟨us, h, h', hl, hl'⟩ hacc ht
    rcases words with _ | ⟨⟨w, line⟩, words⟩
    · cases h
    rcases words' with _ | ⟨⟨w', line'⟩, words'⟩
    · cases h'
    rw [List.nil_append, List.map_cons, List.cons.injEq] at h h'
    obtain ⟨rfl, h⟩ := h
    obtain ⟨rfl, h'⟩ := h'
    have hsame : SameTexts words words' := ⟨h.trans h'.symm,
      fun w hw => hl w (List.mem_cons_of_mem _ hw), fun w hw => hl' w (List.mem_cons_of_mem _ hw)⟩
    have hline := hl _ List.mem_cons_self
    have hline' := hl' _ List.mem_cons_self
    rw [List.append_nil] at ht
    have hv (h : tailingOperator (p ++ v) = true) : v ≠ [] := by
      rintro rfl
      rw [List.append_nil, ht.tailing_nil rfl] at h
      cases h
    have hnil : ([] : List Text).flatten = [] ∨ v ≠ [] := .inl rfl
    rcases hacc.cases with ⟨rfl, rfl⟩ | ⟨texts, l, l', rfl, rfl, hr, hr'⟩
    · unfold mergeLoop
      rw [ht.tailing]
      split
      · exact mergeLoop_run ht (hv ‹_›) hsame hline hline'
      · refine .cons ⟨?_, hline, hline'⟩ (mergeLoop_same hsame sameRun_none)
        have htext := ht.text hnil
        rwa [Option.map_none, Option.getD_none, List.nil_append, List.nil_append,
          List.flatten_singleton, List.flatten_singleton] at htext
    · unfold mergeLoop
      rw [ht.tailing]
      split
      · exact mergeLoop_run ht (hv ‹_›) hsame hr hr'
      · exact .cons ⟨ht.text hnil, hr, hr'⟩ (mergeLoop_same hsame sameRun_none)
  | cons c cs ih =>
    rintro words words' acc acc' ⟨us, h, h', hl, hl'⟩ hacc ht
    rcases words with _ | ⟨⟨w, line⟩, words⟩
    · cases h
    rcases words' with _ | ⟨⟨w', line'⟩, words'⟩
    · cases h'
    rw [List.cons_append, List.map_cons, List.cons.injEq] at h h'
    obtain ⟨rfl, h⟩ := h
    obtain ⟨hw, h'⟩ := h'
    dsimp only at hw
    subst hw
    have hrest : TrimmedTexts cs p bs v words words' := ⟨us, h, h',
      fun w hw => hl w (List.mem_cons_of_mem _ hw), fun w hw => hl' w (List.mem_cons_of_mem _ hw)⟩
    have hline := hl _ List.mem_cons_self
    have hline' := hl' _ List.mem_cons_self
    rcases hacc.cases with ⟨rfl, rfl⟩ | ⟨texts, l, l', rfl, rfl, hr, hr'⟩
    · unfold mergeLoop
      split
      · exact ih hrest (sameRun_some hline hline') ht
      · refine .cons ⟨.inl rfl, hline, hline'⟩ (ih hrest sameRun_none ?_)
        exact Trimmed.of_append (show Trimmed ([w'] ++ cs) p bs v from ht)
    · rw [Option.map_some, Option.getD_some, ← List.singleton_append, ← List.append_assoc] at ht
      unfold mergeLoop
      split
      · exact ih hrest (sameRun_some hr hr') ht
      · exact .cons ⟨.inl rfl, hr, hr'⟩ (ih hrest sameRun_none ht.of_append)

/-! ## Runs with a difference -/

/-- Two texts behind the texts `cs`, with more blanks in front of a newline in the first one. -/
def NearText (cs : List Text) (x x' : Text) : Prop :=
  ∃ p bs q : Text, x = p ++ bs ++ '\n' :: q ∧ x' = p ++ '\n' :: q ∧ (∀ c ∈ bs, isBlank c) ∧
    bs ≠ [] ∧ p ≠ [] ∧ p.getLast? ≠ some '\n' ∧ Closed (cs.flatten ++ p) ∧
    (q = [] → tailingOperator p = false)

def Near (ws ws' : List Text) : Prop :=
  ∃ (cs us : List Text) (x x' : Text), ws = cs ++ x :: us ∧ ws' = cs ++ x' :: us ∧ NearText cs x x'

theorem NearText.append {cs : List Text} {x x' : Text} (h : NearText cs x x') (u : Text) :
    NearText cs (x ++ u) (x' ++ u) := by
  obtain ⟨p, bs, q, rfl, rfl, hbs, hb, hp, hl, hc, ht⟩ := h
  refine ⟨p, bs, q ++ u, ?_, ?_, hbs, hb, hp, hl, hc, fun hq => ht (List.append_eq_nil_iff.1 hq).1⟩
  · simp
  · simp

theorem NearText.ne {cs : List Text} {x x' : Text} (h : NearText cs x x') : x ≠ [] ∧ x' ≠ [] := by
  obtain ⟨p, bs, q, rfl, rfl, -⟩ := h
  simp

/-- The difference is in the text that is being collected, or in a finished one. -/
theorem near_concat {ws ws' : List Text} {x x' : Text} : Near (ws ++ [x]) (ws' ++ [x']) ↔
    ws = ws' ∧ NearText ws x x' ∨ x = x' ∧ Near ws ws' := by
  constructor
  · rintro ⟨cs, us, y, y', h, h', hn⟩
    rcases List.eq_nil_or_concat us with rfl | ⟨us, u, rfl⟩
    · obtain ⟨rfl, hx⟩ := List.append_inj' h rfl
      obtain ⟨rfl, hx'⟩ := List.append_inj' h' rfl
      cases hx
      cases hx'
      exact .inl ⟨rfl, hn⟩
    · rw [List.concat_eq_append, ← List.cons_append, ← List.append_assoc] at h h'
      obtain ⟨rfl, hx⟩ := List.append_inj' h rfl
      obtain ⟨rfl, hx'⟩ := List.append_inj' h' rfl
      cases hx
      cases hx'
      exact .inr ⟨rfl, cs, us, y, y', rfl, rfl, hn⟩
  · rintro (⟨rfl, hn⟩ | ⟨rfl, cs, us, y, y', rfl, rfl, hn⟩)
    · exact ⟨ws, [], x, x', rfl, rfl, hn⟩
    · exact ⟨cs, us ++ [x], y, y', by simp, by simp, hn⟩

theorem Near.length {ws ws' : List Text} (h : Near ws ws') : ws.length = ws'.length := by
  obtain ⟨cs, us, x, x', rfl, rfl, -⟩ := h
  simp

/-! ## The end of a text -/

theorem tailingOperator_newline (a q : Text) :
    tailingOperator (a ++ '\n' :: q) = tailingOperator ('\n' :: q) := by
  unfold tailingOperator
  rw [List.reverse_append, List.reverse_cons, List.append_assoc]
  rcases q.reverse with _ | ⟨c, _ | ⟨d, r⟩⟩ <;> rfl

theorem tailingOperator_blank (a : Text) {bs : Text} (hbs : ∀ c ∈ bs, isBlank c) (h : bs ≠ []) :
    tailingOperator (a ++ bs) = false := by
  rcases List.eq_nil_or_concat bs with rfl | ⟨bs, c, rfl⟩
  · exact absurd rfl h
  · have hc := hbs c (by simp)
    unfold tailingOperator
    rw [List.concat_eq_append, ← List.append_assoc, List.reverse_append, List.reverse_singleton,
      List.singleton_append]
    rcases Tokenizer.isBlank_iff.1 hc with rfl | rfl <;> rfl

/-- `chomp` on a text with a newline in it. -/
def chompRest (q : Text) : Text := if q = [] then [] else '\n' :: chomp q

theorem chomp_newline (a q : Text) : chomp (a ++ '\n' :: q) = a ++ chompRest q := by
  unfold chomp chompRest
  rcases List.eq_nil_or_concat q with rfl | ⟨q, c, rfl⟩
  · rw [if_pos (by simp), if_pos rfl, List.dropLast_concat, List.append_nil]
  · have hne : q.concat c ≠ [] := by simp
    rw [if_neg hne]
    have hlast : (a ++ '\n' :: q.concat c).getLast? = (q.concat c).getLast? := by
      rw [List.getLast?_append_cons, List.getLast?_cons, List.concat_eq_append,
        List.getLast?_concat]
      rfl
    have hdrop : (a ++ '\n' :: q.concat c).dropLast = a ++ '\n' :: q := by
      rw [List.concat_eq_append, ← List.cons_append, ← List.append_assoc, List.dropLast_concat]
    unfold chomp
    rw [hlast, hdrop, List.concat_eq_append, List.dropLast_concat]
    split <;> rfl

theorem filter_chomp (w : Text) : (chomp w).filter isParen = w.filter isParen := by
  unfold chomp
  split
  · rename_i h
    obtain ⟨v, rfl⟩ := List.getLast?_eq_some_iff.1 h
    rw [List.dropLast_concat, List.filter_append]
    exact (List.append_nil _).symm
  · rfl

theorem Closed.chomp {cs : List Text} {p : Text} (h : Closed (cs.flatten ++ p)) :
    Closed ((cs.map OsLabs.Shell.chomp).flatten ++ p) := by
  have he : (cs.map OsLabs.Shell.chomp).flatten.filter isParen = cs.flatten.filter isParen := by
    induction cs with
    | nil => rfl
    | cons c cs ih =>
      rw [List.flatten_cons, List.append_assoc] at h
      rw [List.map_cons, List.flatten_cons, List.flatten_cons, List.filter_append,
        List.filter_append, filter_chomp, ih h.of_append]
  unfold Closed at h ⊢
  rwa [List.filter_append, he, ← List.filter_append]

/-- The difference of two finished texts. -/
theorem NearText.trimmed {cs : List Text} {x x' : Text} (h : NearText cs x x') :
    ∃ p bs v, chomp x = p ++ bs ++ v ∧ chomp x' = p ++ v ∧ Trimmed (cs.map chomp) p bs v := by
  obtain ⟨p, bs, q, rfl, rfl, hbs, hb, hp, hl, hc, ht⟩ := h
  refine ⟨p, bs, chompRest q, chomp_newline _ q, chomp_newline _ q, hbs, ?_, hp, hl, hc.chomp, ?_,
    ?_⟩
  · unfold chompRest
    split
    · exact .inl rfl
    · exact .inr rfl
  · unfold chompRest
    split
    · rename_i hq
      rw [List.append_nil, List.append_nil, tailingOperator_blank p hbs hb, ht hq]
    · rw [tailingOperator_newline, tailingOperator_newline]
  · intro hv
    apply ht
    unfold chompRest at hv
    by_contra hq
    rw [if_neg hq] at hv
    cases hv

end OsLabs.Shell
