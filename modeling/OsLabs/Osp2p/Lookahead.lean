import OsLabs.Osp2p.Scanformat

/-!
# Peer messages: the scanner and the end of the message

`osp2p_vsnscanf` on its pointers: `pos` is `s - begin_s`, the bytes `mem` are the
memory from `s` on, and the loops stop where `pos = len`. A result `none` is a read
where no memory is. In front of the end this is the scanner of `Osp2p.Writescan`
(`Stands`); the test for a quoted byte alone looks further than the byte at `s`, and
a `%` near the end of the message makes it look behind the end (`cutOff_iff`).
-/

namespace OsLabs.Osp2p

open Scan

/-! ## The pointers -/

/-- The byte that a test `s != end_s && .. *s` looks at, where there is one. -/
def peekAt (len pos : Nat) (mem : Bytes) : Option (Option UInt8) :=
  if pos = len then some none else mem.head?.map some

/-- A loop `while (s != end_s && ..) s++`. -/
def scanWhileAt {σ : Type} (len : Nat) (step : σ → UInt8 → Option σ) :
    σ → Nat → Bytes → Option (σ × Nat × Bytes)
  | x, pos, [] => if pos = len then some (x, pos, []) else none
  | x, pos, c :: mem =>
    if pos = len then some (x, pos, c :: mem)
    else
      match step x c with
      | none => some (x, pos, c :: mem)
      | some x => scanWhileAt len step x (pos + 1) mem

def scanStringAt (len : Nat) : Nat → Bytes → Option (Bytes × Nat × Bytes)
  | pos, [] => if pos = len then some ([], pos, []) else none
  | pos, c :: mem =>
    if pos = len ∨ isspace c then some ([], pos, c :: mem)
    else
      match isQuoted c mem with
      | none => none
      | some false => (scanStringAt len (pos + 1) mem).map fun r => (c :: r.1, r.2)
      | some true =>
        match mem with
        | c1 :: c2 :: mem =>
          (scanStringAt len (pos + 3) mem).map fun r => ((xvalue c1 * 16 + xvalue c2) :: r.1, r.2)
        | _ => none

/-- The loop of `%I`, with `i + 1` rounds to go; an inner `none` is a `goto exit`. -/
def scanAddrAt (len : Nat) : (i value pos : Nat) → Bytes → Option (Option (Nat × Nat × Bytes))
  | i, value, pos, mem => do
    let (x, pos, mem) ← scanWhileAt len octetStep (-1) pos mem
    if x < 0 ∨ x > 255 then return none
    else
      match i with
      | 0 => return some (value * 256 + x.toNat, pos, mem)
      | i + 1 =>
        match ← peekAt len pos mem with
        | some c =>
          if c = byte '.' then scanAddrAt len i (value * 256 + x.toNat) (pos + 1) mem.tail
          else return none
        | none => return none

def scanIntAt (len pos : Nat) (mem : Bytes) : Option (Option (Nat × Nat × Bytes)) := do
  if (← peekAt len pos mem).any isdigit then
    let (value, pos, mem) ← scanWhileAt len intStep 0 pos mem
    if (← peekAt len pos mem).any isdigit then return none else return some (value, pos, mem)
  else return none

def spaceStep (_ : Unit) (c : UInt8) : Option Unit := if isspace c then some () else none

def scanLoopAt (len : Nat) : Bool → List Char → Nat → Bytes → Option (Int × List Arg)
  | _, [], _, _ => some (0, [])
  | _, '%' :: 's' :: format, pos, mem => do
    let (str, pos, mem) ← scanStringAt len pos mem
    let r ← scanLoopAt len false format pos mem
    some (r.1, .str str :: r.2)
  | _, '%' :: 'I' :: format, pos, mem => do
    match ← scanAddrAt len 3 0 pos mem with
    | none => some (-1, [])
    | some (value, pos, mem) =>
      let r ← scanLoopAt len false format pos mem
      some (r.1, .addr (htonl value) :: r.2)
  | _, '%' :: 'd' :: format, pos, mem => do
    match ← scanIntAt len pos mem with
    | none => some (-1, [])
    | some (value, pos, mem) =>
      let r ← scanLoopAt len false format pos mem
      some (r.1, .int value :: r.2)
  | _, '%' :: 'n' :: format, pos, mem => do
    let r ← scanLoopAt len false format pos mem
    some (r.1, .int pos :: r.2)
  | _, '%' :: '%' :: format, pos, mem => do
    if (← peekAt len pos mem) = some (byte '%') then
      scanLoopAt len false format (pos + 1) mem.tail
    else some (-1, [])
  | inSpace, c :: format, pos, mem =>
    if isspace (byte c) then
      if inSpace then scanLoopAt len true format pos mem
      else do
        if (← peekAt len pos mem).any isspace then
          let (_, pos, mem) ← scanWhileAt len spaceStep () pos mem
          scanLoopAt len true format pos mem
        else some (-1, [])
    else do
      if (← peekAt len pos mem) = some (byte c) then
        scanLoopAt len false format (pos + 1) mem.tail
      else some (-1, [])

/-- `osp2p_snscanf` on `s`, with `after` in memory behind it and nothing behind that. -/
def osp2pSnscanfAt (s after : Bytes) (format : List Char) : Option (Int × List Arg) :=
  scanLoopAt s.length false format 0 (s ++ after)

/-- The call ends with the same result and the same values stored whatever lies behind the
message; it does so as well where there is no memory to be read. -/
def StaysBefore (s : Bytes) (format : List Char) : Prop :=
  ∃ r, ∀ after, osp2pSnscanfAt s after format = some r

/-! ## In front of the end -/

/-- The message has still `s` to read. -/
structure Stands (len : Nat) (after : Bytes) (pos : Nat) (mem s : Bytes) : Prop where
  pos : pos + s.length = len
  mem : mem = s ++ after

section

variable {len pos : Nat} {after mem s rest w : Bytes} {c c1 c2 : UInt8} {format : List Char}

theorem stands_zero (s after : Bytes) : Stands s.length after 0 (s ++ after) s :=
  ⟨Nat.zero_add _, rfl⟩

theorem Stands.at_end (h : Stands len after pos mem []) : pos = len := h.pos

theorem Stands.before_end (h : Stands len after pos mem (c :: s)) : pos ≠ len := by
  have := h.pos
  rw [List.length_cons] at this
  omega

theorem Stands.next (h : Stands len after pos mem (c :: s)) :
    Stands len after (pos + 1) (s ++ after) s := by
  refine ⟨?_, rfl⟩
  have := h.pos
  rw [List.length_cons] at this
  omega

theorem Stands.peek (h : Stands len after pos mem s) : peekAt len pos mem = some s.head? := by
  cases s with
  | nil => rw [peekAt, if_pos h.at_end]; rfl
  | cons c s =>
    rw [peekAt, if_neg h.before_end, h.mem]
    rfl

theorem Stands.tail (h : Stands len after pos mem (c :: s)) :
    Stands len after (pos + 1) mem.tail s := by
  rw [h.mem]
  exact h.next

theorem Stands.scanWhile {σ : Type} (step : σ → UInt8 → Option σ) :
    ∀ {s pos mem} (x : σ), Stands len after pos mem s →
      ∃ pos' mem', scanWhileAt len step x pos mem = some ((Scan.scanWhile step x s).1, pos', mem') ∧
        Stands len after pos' mem' (Scan.scanWhile step x s).2
  | [], pos, mem, x, h => by
    refine ⟨pos, mem, ?_, h⟩
    cases mem <;> simp [scanWhileAt, h.at_end, Scan.scanWhile]
  | c :: s, pos, mem, x, h => by
    obtain rfl := h.mem
    rw [List.cons_append, scanWhileAt, if_neg h.before_end, Scan.scanWhile]
    cases hs : step x c with
    | none => exact ⟨pos, _, rfl, h⟩
    | some y => exact h.next.scanWhile step y

theorem scanWhile_space : ∀ s : Bytes, (Scan.scanWhile spaceStep () s).2 = s.dropWhile isspace
  | [] => rfl
  | c :: s => by
    rw [Scan.scanWhile, spaceStep]
    cases hc : isspace c with
    | true =>
      rw [List.dropWhile_cons_of_pos hc]
      exact scanWhile_space s
    | false => rw [List.dropWhile_cons_of_neg (by simp [hc])]; rfl

/-- A field read on the pointers and in the message. -/
def Reads {α : Type} (len : Nat) (after : Bytes) (o : Option (Option (α × Nat × Bytes))) :
    Option (α × Bytes) → Prop
  | none => o = some none
  | some (a, rest) => ∃ pos mem, o = some (some (a, pos, mem)) ∧ Stands len after pos mem rest

theorem Stands.scanAddr : ∀ {i value s pos mem}, Stands len after pos mem s →
    Reads len after (scanAddrAt len i value pos mem) (Osp2p.scanAddr i value s) := by
  intro i
  induction i with
  | zero =>
    intro value s pos mem h
    obtain ⟨pos', mem', hscan, h'⟩ := h.scanWhile octetStep (-1)
    rw [Osp2p.scanAddr, scanAddrAt, hscan]
    simp only [Option.bind_eq_bind, Option.bind_some]
    split
    · rfl
    · exact ⟨pos', mem', rfl, h'⟩
  | succ i ih =>
    intro value s pos mem h
    obtain ⟨pos', mem', hscan, h'⟩ := h.scanWhile octetStep (-1)
    rw [Osp2p.scanAddr, scanAddrAt, hscan]
    simp only [Option.bind_eq_bind, Option.bind_some, h'.peek]
    split
    · rfl
    · cases hs : (Scan.scanWhile octetStep (-1) s).2 with
      | nil => rfl
      | cons c rest =>
        rw [hs] at h'
        simp only [List.head?_cons]
        split
        · exact ih h'.tail
        · rfl

theorem Stands.scanInt (h : Stands len after pos mem s) :
    Reads len after (scanIntAt len pos mem) (Osp2p.scanInt s) := by
  obtain ⟨pos', mem', hscan, h'⟩ := h.scanWhile intStep 0
  rw [Osp2p.scanInt, scanIntAt, h.peek]
  simp only [Option.bind_eq_bind, Option.bind_some, hscan, h'.peek]
  split
  · split
    · rfl
    · exact ⟨pos', mem', rfl, h'⟩
  · rfl

/-! ## Words -/

theorem isQuoted_nil_none : isQuoted c s = none ↔
    c = byte '%' ∧ (s = [] ∨ ∃ x, isxdigit x = true ∧ s = [x]) := by
  rcases s with _ | ⟨c1, _ | ⟨c2, s⟩⟩ <;> simp [isQuoted]

theorem isQuoted_true : isQuoted c s = some true ↔ c = byte '%' ∧
    ∃ c1 c2 t, s = c1 :: c2 :: t ∧ isxdigit c1 = true ∧ isxdigit c2 = true := by
  rcases s with _ | ⟨c1, _ | ⟨c2, s⟩⟩ <;> simp [isQuoted]

theorem isQuoted_append {q : Bool} (h : isQuoted c s = some q) (after : Bytes) :
    isQuoted c (s ++ after) = some q := by
  rcases s with _ | ⟨c1, _ | ⟨c2, s⟩⟩
  · have hc : c ≠ byte '%' := by
      rintro rfl
      cases h
    rw [isQuoted_of_ne hc] at h ⊢
    exact h
  · by_cases hc : c = byte '%'
    · subst hc
      cases hx : isxdigit c1 <;> rcases after with _ | ⟨c2, after⟩ <;> simp_all [isQuoted]
    · rw [isQuoted_of_ne hc] at h ⊢
      exact h
  · exact h

/-- Induction along a word: the message ends, white space comes, the test for a quoted byte looks
behind the end, or the word goes on with a byte as it is or with a quoted one. -/
@[elab_as_elim]
theorem word_induct {P : Bytes → Prop} (nil : P [])
    (space : ∀ c s, isspace c = true → P (c :: s))
    (cut : ∀ c s, isspace c = false → isQuoted c s = none → P (c :: s))
    (plain : ∀ c s, isspace c = false → isQuoted c s = some false → P s → P (c :: s))
    (quoted : ∀ c c1 c2 s, isspace c = false → isQuoted c (c1 :: c2 :: s) = some true →
      P s → P (c :: c1 :: c2 :: s)) : ∀ s, P s
  | [] => nil
  | c :: s => by
    cases hc : isspace c with
    | true => exact space c s hc
    | false =>
      cases hq : isQuoted c s with
      | none => exact cut c s hc hq
      | some q =>
        cases q with
        | false => exact plain c s hc hq (word_induct nil space cut plain quoted s)
        | true =>
          obtain ⟨-, c1, c2, t, rfl, -, -⟩ := isQuoted_true.mp hq
          exact quoted c c1 c2 t hc hq (word_induct nil space cut plain quoted t)

theorem scanString_space (hc : isspace c = true) :
    Osp2p.scanString after (c :: s) = some ([], c :: s) := by
  rw [scanString_cons, if_pos hc]

theorem scanString_cut (hc : isspace c = false) (hq : isQuoted c s = none) :
    Osp2p.scanString [] (c :: s) = none := by
  rw [scanString_cons, if_neg (by simp [hc]), List.append_nil, hq]

theorem scanString_plain (hc : isspace c = false) (hq : isQuoted c s = some false) :
    Osp2p.scanString after (c :: s) =
      (Osp2p.scanString after s).map fun r => (c :: r.1, r.2) := by
  rw [scanString_cons, if_neg (by simp [hc]), isQuoted_append hq after]

theorem scanString_quoted (hc : isspace c = false)
    (hq : isQuoted c (c1 :: c2 :: s) = some true) :
    Osp2p.scanString after (c :: c1 :: c2 :: s) =
      (Osp2p.scanString after s).map fun r => ((xvalue c1 * 16 + xvalue c2) :: r.1, r.2) := by
  rw [scanString_cons, if_neg (by simp [hc]), isQuoted_append hq after]

theorem scanStringAt_cons (len pos : Nat) (c : UInt8) (mem : Bytes) :
    scanStringAt len pos (c :: mem) =
      if pos = len ∨ isspace c then some ([], pos, c :: mem)
      else
        match isQuoted c mem with
        | none => none
        | some false => (scanStringAt len (pos + 1) mem).map fun r => (c :: r.1, r.2)
        | some true =>
          match mem with
          | c1 :: c2 :: mem =>
            (scanStringAt len (pos + 3) mem).map fun r => ((xvalue c1 * 16 + xvalue c2) :: r.1, r.2)
          | _ => none := by
  rw [scanStringAt.eq_def]
  rfl

theorem scanStringAt_end (len : Nat) (mem : Bytes) :
    scanStringAt len len mem = some ([], len, mem) := by
  cases mem with
  | nil => rw [scanStringAt, if_pos rfl]
  | cons c mem => rw [scanStringAt_cons, if_pos (.inl rfl)]

theorem Stands.scanStringAt_plain (h : Stands len after pos mem (c :: s))
    (hc : isspace c = false) (hq : isQuoted c s = some false) :
    scanStringAt len pos mem =
      (scanStringAt len (pos + 1) (s ++ after)).map fun r => (c :: r.1, r.2) := by
  rw [h.mem, List.cons_append, scanStringAt_cons, if_neg (by simp [h.before_end, hc]),
    isQuoted_append hq after]

theorem Stands.scanStringAt_quoted (h : Stands len after pos mem (c :: c1 :: c2 :: s))
    (hc : isspace c = false) (hq : isQuoted c (c1 :: c2 :: s) = some true) :
    scanStringAt len pos mem = (scanStringAt len (pos + 3) (s ++ after)).map
      fun r => ((xvalue c1 * 16 + xvalue c2) :: r.1, r.2) := by
  rw [h.mem, List.cons_append, scanStringAt_cons, if_neg (by simp [h.before_end, hc]),
    isQuoted_append hq after]
  rfl

theorem Stands.scanString (h : Stands len after pos mem s)
    (hr : Osp2p.scanString [] s = some (w, rest)) : ∃ pos' mem',
      scanStringAt len pos mem = some (w, pos', mem') ∧ Stands len after pos' mem' rest := by
  induction s using word_induct generalizing pos mem w with
  | nil =>
    cases hr
    obtain rfl := h.at_end
    exact ⟨pos, mem, scanStringAt_end pos mem, h⟩
  | space c s hc =>
    rw [scanString_space hc] at hr
    cases hr
    refine ⟨pos, mem, ?_, h⟩
    rw [h.mem, List.cons_append, scanStringAt_cons, if_pos (.inr hc)]
  | cut c s hc hq =>
    rw [scanString_cut hc hq] at hr
    cases hr
  | plain c s hc hq ih =>
    rw [scanString_plain hc hq] at hr
    obtain ⟨r, hword, he⟩ := Option.map_eq_some_iff.mp hr
    cases he
    obtain ⟨pos', mem', hs, h'⟩ := ih h.next hword
    refine ⟨pos', mem', ?_, h'⟩
    rw [h.scanStringAt_plain hc hq, hs]
    rfl
  | quoted c c1 c2 s hc hq ih =>
    rw [scanString_quoted hc hq] at hr
    obtain ⟨r, hword, he⟩ := Option.map_eq_some_iff.mp hr
    cases he
    obtain ⟨pos', mem', hs, h'⟩ := ih h.next.next.next hword
    refine ⟨pos', mem', ?_, h'⟩
    rw [h.scanStringAt_quoted hc hq, hs]
    rfl

/-- Where the message ends the memory, a word that is cut off cannot be read. -/
theorem Stands.scanString_none (h : Stands len [] pos mem s)
    (hr : Osp2p.scanString [] s = none) : scanStringAt len pos mem = none := by
  induction s using word_induct generalizing pos mem with
  | nil => cases hr
  | space c s hc =>
    rw [scanString_space hc] at hr
    cases hr
  | cut c s hc hq =>
    rw [h.mem, List.append_nil, scanStringAt_cons, if_neg (by simp [h.before_end, hc]), hq]
  | plain c s hc hq ih =>
    rw [scanString_plain hc hq, Option.map_eq_none_iff] at hr
    rw [h.scanStringAt_plain hc hq, ih h.next hr]
    rfl
  | quoted c c1 c2 s hc hq ih =>
    rw [scanString_quoted hc hq, Option.map_eq_none_iff] at hr
    rw [h.scanStringAt_quoted hc hq, ih h.next.next.next hr]
    rfl

theorem scanString_mono (h : Osp2p.scanString [] s = some (w, rest)) :
    Osp2p.scanString after s = some (w, rest) := by
  induction s using word_induct generalizing w with
  | nil => exact h
  | space c s hc => rwa [scanString_space hc] at h ⊢
  | cut c s hc hq =>
    rw [scanString_cut hc hq] at h
    cases h
  | plain c s hc hq ih =>
    rw [scanString_plain hc hq] at h ⊢
    obtain ⟨⟨u, t⟩, hr, he⟩ := Option.map_eq_some_iff.mp h
    cases he
    exact Option.map_eq_some_iff.mpr ⟨_, ih hr, rfl⟩
  | quoted c c1 c2 s hc hq ih =>
    rw [scanString_quoted hc hq] at h ⊢
    obtain ⟨⟨u, t⟩, hr, he⟩ := Option.map_eq_some_iff.mp h
    cases he
    exact Option.map_eq_some_iff.mpr ⟨_, ih hr, rfl⟩

theorem scanString_word (h : Osp2p.scanString [] s = some (w, rest)) :
    w = unquote (s.takeWhile (!isspace ·)) ∧ rest = s.dropWhile (!isspace ·) := by
  have h0 : Osp2p.scanString [0] s = some (w, rest) := scanString_mono h
  rw [scanString_eq] at h0
  cases h0
  exact ⟨rfl, rfl⟩

/-! ## Words cut off by the end -/

/-- The message ends in this word, and behind a `%` it ends in the middle of what may be a
quoted byte. -/
def CutOff (s : Bytes) : Prop :=
  (∀ c ∈ s, isspace c = false) ∧
    ([byte '%'] <:+ s ∨ ∃ x, isxdigit x = true ∧ [byte '%', x] <:+ s)

theorem cutOff_cons (hc : isspace c = false) (hq : isQuoted c s ≠ none) :
    CutOff (c :: s) ↔ CutOff s := by
  rw [Ne, isQuoted_nil_none] at hq
  have h0 : [byte '%'] ≠ c :: s := by
    rintro ⟨⟩
    exact hq ⟨rfl, .inl rfl⟩
  have h1 (x : UInt8) (hx : isxdigit x = true) : [byte '%', x] ≠ c :: s := by
    rintro ⟨⟩
    exact hq ⟨rfl, .inr ⟨x, hx, rfl⟩⟩
  simp only [CutOff, List.forall_mem_cons, hc, true_and, List.suffix_cons_iff, h0, false_or]
  refine and_congr_right fun _ => or_congr_right (exists_congr fun x => ?_)
  refine and_congr_right fun hx => ?_
  simp only [h1 x hx, false_or]

theorem isQuoted_of_isxdigit (h : isxdigit c = true) : isQuoted c s = some false :=
  isQuoted_of_ne (by rintro rfl; cases h) s

theorem cutOff_quoted (hc : isspace c = false) (hq : isQuoted c (c1 :: c2 :: s) = some true) :
    CutOff (c :: c1 :: c2 :: s) ↔ CutOff s := by
  obtain ⟨-, _, _, _, he, h1, h2⟩ := isQuoted_true.mp hq
  cases he
  rw [cutOff_cons hc (by simp [hq]),
    cutOff_cons (isspace_of_isxdigit h1) (by simp [isQuoted_of_isxdigit h1]),
    cutOff_cons (isspace_of_isxdigit h2) (by simp [isQuoted_of_isxdigit h2])]

theorem cutOff_of_space (hc : isspace c = true) : ¬ CutOff (c :: s) := fun h => by
  have := h.1 c List.mem_cons_self
  rw [hc] at this
  cases this

theorem cutOff_iff (s : Bytes) : scanString [] s = none ↔ CutOff s := by
  induction s using word_induct with
  | nil => simp [scanString, CutOff]
  | space c s hc =>
    rw [scanString_space hc]
    exact iff_of_false (Option.some_ne_none _) (cutOff_of_space hc)
  | cut c s hc hq =>
    rw [scanString_cut hc hq]
    obtain ⟨rfl, rfl | ⟨x, hx, rfl⟩⟩ := isQuoted_nil_none.mp hq
    · exact iff_of_true rfl ⟨by simpa using hc, .inl (List.suffix_refl _)⟩
    · exact iff_of_true rfl ⟨by simp [hc, isspace_of_isxdigit hx],
        .inr ⟨x, hx, List.suffix_refl _⟩⟩
  | plain c s hc hq ih =>
    rw [scanString_plain hc hq, Option.map_eq_none_iff, ih, cutOff_cons hc (by simp [hq])]
  | quoted c c1 c2 s hc hq ih =>
    rw [scanString_quoted hc hq, Option.map_eq_none_iff, ih, cutOff_quoted hc hq]

/-! ## The whole format -/

/-- What the pointers give where the message gives `r`. -/
structure Agrees {β : Type} (after : Bytes) (r o : Option β) : Prop where
  value : ∀ x, r = some x → o = some x
  behind : r = none → after = [] → o = none

theorem Agrees.refl {β : Type} (o : Option β) : Agrees after o o := ⟨fun _ h => h, fun h _ => h⟩

theorem Agrees.bind {β γ : Type} {r o : Option β} (h : Agrees after r o) (f : β → γ) :
    Agrees after (r.bind fun x => some (f x)) (o.bind fun x => some (f x)) := by
  refine ⟨fun x hx => ?_, fun hx ha => ?_⟩
  · obtain ⟨y, hy, he⟩ := Option.bind_eq_some_iff.mp hx
    rw [h.value y hy]
    exact he
  · cases r with
    | none =>
      rw [h.behind rfl ha]
      rfl
    | some x => cases hx

/-- What is left to read at each `%s` that the scan comes to. -/
def wordsScanned : Bool → List Char → Bytes → List Bytes
  | _, [], _ => []
  | _, '%' :: 's' :: format, s => s :: wordsScanned false format (s.dropWhile (!isspace ·))
  | _, '%' :: 'I' :: format, s =>
    match Osp2p.scanAddr 3 0 s with
    | none => []
    | some (_, s) => wordsScanned false format s
  | _, '%' :: 'd' :: format, s =>
    match Osp2p.scanInt s with
    | none => []
    | some (_, s) => wordsScanned false format s
  | _, '%' :: 'n' :: format, s => wordsScanned false format s
  | _, '%' :: '%' :: format, s =>
    if s.head? = some (byte '%') then wordsScanned false format s.tail else []
  | inSpace, c :: format, s =>
    if isspace (byte c) then
      if inSpace then wordsScanned true format s
      else if s.head?.any isspace then wordsScanned true format (s.dropWhile isspace)
      else []
    else if s.head? = some (byte c) then wordsScanned false format s.tail
    else []

theorem Stands.scanLoop (inSpace : Bool) (format : List Char) (s : Bytes) :
    ∀ {pos mem}, Stands len after pos mem s →
      Agrees after (Osp2p.scanLoop [] len inSpace format s)
        (scanLoopAt len inSpace format pos mem) := by
  fun_induction Osp2p.scanLoop [] len inSpace format s with
  | case1 inSpace s =>
    intro pos mem h
    exact .refl _
  | case2 inSpace format s ih =>
    intro pos mem h
    rw [scanLoopAt]
    cases hs : Osp2p.scanString [] s with
    | none =>
      refine ⟨nofun, ?_⟩
      rintro - rfl
      rw [h.scanString_none hs]
      rfl
    | some r =>
      obtain ⟨pos', mem', he, h'⟩ := h.scanString hs
      rw [he]
      exact (ih _ h').bind _
  | case3 inSpace format s hs =>
    intro pos mem h
    have hr : Reads len after (scanAddrAt len 3 0 pos mem) (Osp2p.scanAddr 3 0 s) := h.scanAddr
    rw [hs] at hr
    rw [scanLoopAt, hr]
    exact .refl _
  | case4 inSpace format s value rest hs ih =>
    intro pos mem h
    have hr : Reads len after (scanAddrAt len 3 0 pos mem) (Osp2p.scanAddr 3 0 s) := h.scanAddr
    rw [hs] at hr
    obtain ⟨pos', mem', he, h'⟩ := hr
    rw [scanLoopAt, he]
    exact (ih h').bind _
  | case5 inSpace format s hs =>
    intro pos mem h
    have hr := h.scanInt
    rw [hs] at hr
    rw [scanLoopAt, hr]
    exact .refl _
  | case6 inSpace format s value rest hs ih =>
    intro pos mem h
    have hr := h.scanInt
    rw [hs] at hr
    obtain ⟨pos', mem', he, h'⟩ := hr
    rw [scanLoopAt, he]
    exact (ih h').bind _
  | case7 inSpace format s ih =>
    intro pos mem h
    have hpos : len - s.length = pos := by
      have := h.pos
      omega
    rw [scanLoopAt, hpos]
    exact (ih h).bind _
  | case8 inSpace format s ih =>
    intro pos mem h
    rw [scanLoopAt, h.peek]
    exact ih h.tail
  | case9 inSpace format c s hc =>
    intro pos mem h
    rw [scanLoopAt, h.peek]
    simp only [List.head?_cons, Option.bind_eq_bind, Option.bind_some, Option.some.injEq, hc,
      if_false]
    exact .refl _
  | case10 inSpace format =>
    intro pos mem h
    rw [scanLoopAt, h.peek]
    exact .refl _
  | case11 c format s h1 h2 h3 h4 h5 hs ih =>
    intro pos mem h
    rw [scanLoopAt, if_pos hs, if_pos rfl]
    · exact ih h
    all_goals assumption
  | case12 inSpace c format s h1 h2 h3 h4 h5 hs hin hany ih =>
    intro pos mem h
    obtain ⟨pos', mem', he, h'⟩ := h.scanWhile spaceStep ()
    rw [scanWhile_space] at h'
    rw [scanLoopAt, if_pos hs, if_neg hin, h.peek]
    · simp only [Option.bind_eq_bind, Option.bind_some, hany, if_true, he]
      exact ih h'
    all_goals assumption
  | case13 inSpace c format s h1 h2 h3 h4 h5 hs hin hany =>
    intro pos mem h
    rw [scanLoopAt, if_pos hs, if_neg hin, h.peek]
    · simp only [Option.bind_eq_bind, Option.bind_some, hany]
      exact .refl _
    all_goals assumption
  | case14 inSpace c format h1 h2 h3 h4 h5 hs s ih =>
    intro pos mem h
    rw [scanLoopAt, if_neg hs, h.peek]
    · simp only [Option.bind_eq_bind, Option.bind_some, List.head?_cons, if_true]
      exact ih h.tail
    all_goals assumption
  | case15 inSpace c format h1 h2 h3 h4 h5 hs b s hb =>
    intro pos mem h
    rw [scanLoopAt, if_neg hs, h.peek]
    · simp only [Option.bind_eq_bind, Option.bind_some, List.head?_cons, Option.some.injEq, hb,
        if_false]
      exact .refl _
    all_goals assumption
  | case16 inSpace c format h1 h2 h3 h4 h5 hs =>
    intro pos mem h
    rw [scanLoopAt, if_neg hs, h.peek]
    · exact .refl _
    all_goals assumption

theorem bind_some_none {β γ : Type} {o : Option β} (f : β → γ) :
    (o.bind fun x => some (f x)) = none ↔ o = none := by
  cases o <;> simp

/-- The scan looks behind the message iff it comes to a word that is cut off. -/
theorem scanLoop_none_iff (inSpace : Bool) (format : List Char) (s : Bytes) :
    Osp2p.scanLoop [] len inSpace format s = none ↔
      ∃ t ∈ wordsScanned inSpace format s, CutOff t := by
  fun_induction Osp2p.scanLoop [] len inSpace format s with
  | case1 inSpace s => simp [wordsScanned]
  | case2 inSpace format s ih =>
    rw [wordsScanned]
    simp only [List.mem_cons, exists_eq_or_imp, ← cutOff_iff s]
    cases hs : Osp2p.scanString [] s with
    | none => simp
    | some r =>
      have hi := ih r.2
      rw [← (scanString_word hs).2]
      exact (bind_some_none _).trans (hi.trans (by simp))
  | case3 inSpace format s hs => simp [wordsScanned, hs]
  | case4 inSpace format s value rest hs ih =>
    rw [wordsScanned, hs]
    exact (bind_some_none _).trans ih
  | case5 inSpace format s hs => simp [wordsScanned, hs]
  | case6 inSpace format s value rest hs ih =>
    rw [wordsScanned, hs]
    exact (bind_some_none _).trans ih
  | case7 inSpace format s ih =>
    rw [wordsScanned]
    exact (bind_some_none _).trans ih
  | case8 inSpace format s ih =>
    rw [wordsScanned, List.head?_cons, if_pos rfl]
    exact ih
  | case9 inSpace format c s hc => simp [wordsScanned, hc]
  | case10 inSpace format => simp [wordsScanned]
  | case11 c format s h1 h2 h3 h4 h5 hs ih =>
    rw [wordsScanned, if_pos hs, if_pos rfl]
    · exact ih
    all_goals assumption
  | case12 inSpace c format s h1 h2 h3 h4 h5 hs hin hany ih =>
    rw [wordsScanned, if_pos hs, if_neg hin, if_pos hany]
    · exact ih
    all_goals assumption
  | case13 inSpace c format s h1 h2 h3 h4 h5 hs hin hany =>
    rw [wordsScanned, if_pos hs, if_neg hin, if_neg hany]
    · simp
    all_goals assumption
  | case14 inSpace c format h1 h2 h3 h4 h5 hs s ih =>
    rw [wordsScanned, if_neg hs, List.head?_cons, if_pos rfl]
    · exact ih
    all_goals assumption
  | case15 inSpace c format h1 h2 h3 h4 h5 hs b s hb =>
    rw [wordsScanned, if_neg hs, List.head?_cons, if_neg (by simp [hb])]
    · simp
    all_goals assumption
  | case16 inSpace c format h1 h2 h3 h4 h5 hs =>
    rw [wordsScanned, if_neg hs]
    · simp
    all_goals assumption

end

/-- **The scanner stays in front of the end** iff no word that a `%s` comes to is cut off. -/
theorem staysBefore_iff (s : Bytes) (format : List Char) :
    StaysBefore s format ↔ ∀ t ∈ wordsScanned false format s, ¬ CutOff t := by
  have hstand := fun after => Stands.scanLoop false format s (stands_zero s after)
  have hnone : Osp2p.scanLoop [] s.length false format s = none ↔ _ :=
    scanLoop_none_iff false format s
  constructor
  · rintro ⟨r, hr⟩ t ht hc
    have h0 := (hstand []).behind (hnone.mpr ⟨t, ht, hc⟩) rfl
    have h1 := hr []
    rw [osp2pSnscanfAt, h0] at h1
    cases h1
  · intro h
    cases hs : Osp2p.scanLoop [] s.length false format s with
    | none =>
      obtain ⟨t, ht, hc⟩ := hnone.mp hs
      exact absurd hc (h t ht)
    | some r => exact ⟨r, fun after => (hstand after).value r hs⟩

/-- A request that ends within a quoted byte. -/
def cutRequest : Bytes := ['G', 'E', 'T', ' ', '%', '4'].map byte

/-- It depends on the bytes behind it whether the request is taken, and for which file. -/
theorem cutRequest_not_staysBefore : ¬ StaysBefore cutRequest getFormat ∧
    osp2pSnscanfAt cutRequest (['1', ' ', 'O', 'S', 'P', '2', 'P', '\n', 'x'].map byte) getFormat =
      some (0, [.str [byte 'A']]) ∧
    osp2pSnscanfAt cutRequest [byte '\n'] getFormat = some (-1, [.str [byte '%', byte '4']]) := by
  refine ⟨?_, by decide, by decide⟩
  rintro ⟨r, h⟩
  cases h []

end OsLabs.Osp2p
