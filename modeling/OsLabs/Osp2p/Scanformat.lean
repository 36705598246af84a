import OsLabs.Osp2p.Messages

/-!
# Peer messages: what a format accepts

`Matches` is what the comment of `osp2p_sscanf` says a string must be to match a
format. `longest` reads a string from left to right, every field as long as it can
be: this is how `osp2pSscanf` reads (`scanLoop_longest`), except that it asks neither
for a byte in a `%s` nor for the end of the string, and that it refuses the ten
largest values of `int`. `sscanf_exact_iff`: when the two agree.
-/

namespace OsLabs.Osp2p

open Scan

/-! ## Formats -/

/-- An item of a format; `space` is a run of white space. -/
inductive Directive where
  | lit (c : UInt8)
  | space
  | str
  | addr
  | int
  deriving DecidableEq, Repr

/-- The items of a format of literals, white space, `%s`, `%I`, `%d` and `%%`. The flag says
that a run of white space goes on. -/
def directives : Bool → List Char → Option (List Directive)
  | _, [] => some []
  | _, '%' :: 's' :: format => (directives false format).map (.str :: ·)
  | _, '%' :: 'I' :: format => (directives false format).map (.addr :: ·)
  | _, '%' :: 'd' :: format => (directives false format).map (.int :: ·)
  | _, '%' :: '%' :: format => (directives false format).map (.lit (byte '%') :: ·)
  | _, '%' :: _ => none
  | inSpace, c :: format =>
    if isspace (byte c) then
      if inSpace then directives true format else (directives true format).map (.space :: ·)
    else (directives false format).map (.lit (byte c) :: ·)

/-! ## The documented meaning -/

/-- The characters that a quoted string stands for. -/
def unquote : Bytes → Bytes
  | c :: c1 :: c2 :: s =>
    if c = byte '%' ∧ isxdigit c1 ∧ isxdigit c2 then (xvalue c1 * 16 + xvalue c2) :: unquote s
    else c :: unquote (c1 :: c2 :: s)
  | s => s

/-- The value of digits `w` read behind the value `v`. -/
def numberFrom (v : Nat) (w : Bytes) : Nat := w.foldl (fun v c => 10 * v + (c.toNat - 48)) v

def number (w : Bytes) : Nat := numberFrom 0 w

structure IsOctet (w : Bytes) (x : UInt8) : Prop where
  ne_nil : w ≠ []
  digits : ∀ c ∈ w, isdigit c = true
  value : number w = x.toNat

/-- A string matches a format, and what its fields denote. -/
inductive Matches : List Directive → Bytes → List Arg → Prop where
  | done : Matches [] [] []
  | lit {c ds s vs} : Matches ds s vs → Matches (.lit c :: ds) (c :: s) vs
  | space {w ds s vs} : w ≠ [] → (∀ c ∈ w, isspace c = true) → Matches ds s vs →
      Matches (.space :: ds) (w ++ s) vs
  | str {w ds s vs} : w ≠ [] → (∀ c ∈ w, isspace c = false) → Matches ds s vs →
      Matches (.str :: ds) (w ++ s) (.str (unquote w) :: vs)
  | addr {w0 w1 w2 w3 a ds s vs} : IsOctet w0 a.b0 → IsOctet w1 a.b1 → IsOctet w2 a.b2 →
      IsOctet w3 a.b3 → Matches ds s vs →
      Matches (.addr :: ds)
        (w0 ++ byte '.' :: (w1 ++ byte '.' :: (w2 ++ byte '.' :: (w3 ++ s)))) (.addr a :: vs)
  | int {w ds s vs} : w ≠ [] → (∀ c ∈ w, isdigit c = true) → number w ≤ intMax →
      Matches ds s vs → Matches (.int :: ds) (w ++ s) (.int (number w) :: vs)

/-! ## The longest reading -/

def octet (s : Bytes) : Option (UInt8 × Bytes) :=
  if s.takeWhile isdigit ≠ [] ∧ number (s.takeWhile isdigit) ≤ 255 then
    some (.ofNat (number (s.takeWhile isdigit)), s.dropWhile isdigit)
  else none

/-- A part of a dotted quad and the dot behind it. -/
def octetDot (s : Bytes) : Option (UInt8 × Bytes) :=
  match octet s with
  | some (b, c :: s) => if c = byte '.' then some (b, s) else none
  | _ => none

def quad (s : Bytes) : Option (InAddr × Bytes) := do
  let (b0, s) ← octetDot s
  let (b1, s) ← octetDot s
  let (b2, s) ← octetDot s
  let (b3, s) ← octet s
  return (⟨b0, b1, b2, b3⟩, s)

/-- Every field takes all it can; what is left is returned. A `%s` may be empty. -/
def longest : List Directive → Bytes → Option (List Arg × Bytes)
  | [], s => some ([], s)
  | .lit c :: ds, s =>
    match s with
    | b :: s => if b = c then longest ds s else none
    | [] => none
  | .space :: ds, s => if s.head?.any isspace then longest ds (s.dropWhile isspace) else none
  | .str :: ds, s =>
    (longest ds (s.dropWhile (!isspace ·))).map fun r =>
      (.str (unquote (s.takeWhile (!isspace ·))) :: r.1, r.2)
  | .addr :: ds, s =>
    match quad s with
    | some (a, s) => (longest ds s).map fun r => (.addr a :: r.1, r.2)
    | none => none
  | .int :: ds, s =>
    if s.head?.any isdigit then
      (longest ds (s.dropWhile isdigit)).map fun r =>
        (.int (number (s.takeWhile isdigit)) :: r.1, r.2)
    else none

def NumbersLe (n : Nat) (vs : List Arg) : Prop := ∀ i : Int, .int i ∈ vs → i ≤ n

structure Complete (vs : List Arg) (rest : Bytes) : Prop where
  rest : rest = []
  nonempty : .str [] ∉ vs
  numbers : NumbersLe intMax vs

variable {ds : List Directive} {s w rest : Bytes} {vs : List Arg} {v n : Nat} {c : UInt8}

/-! ## Numbers -/

theorem numberFrom_cons : numberFrom v (c :: w) = numberFrom (10 * v + (c.toNat - 48)) w := by
  unfold numberFrom
  rw [List.foldl_cons]

theorem le_numberFrom : v ≤ numberFrom v w := by
  induction w generalizing v with
  | nil => exact Nat.le_refl v
  | cons c w ih =>
    rw [numberFrom_cons]
    have := ih (v := 10 * v + (c.toNat - 48))
    omega

theorem digit_bound (hc : isdigit c = true) : 48 ≤ c.toNat ∧ c.toNat ≤ 57 := by
  have h0 : (byte '0').toNat = 48 := by decide
  have h9 : (byte '9').toNat = 57 := by decide
  unfold isdigit at hc
  rw [Bool.and_eq_true, decide_eq_true_eq, decide_eq_true_eq, UInt8.le_iff_toNat_le,
    UInt8.le_iff_toNat_le, h0, h9] at hc
  exact hc

/-- The largest number that `%d` accepts. -/
def intLimit : Nat := 2147483637

theorem intStep_eq (hc : isdigit c = true) :
    intStep v c =
      if 10 * v + (c.toNat - 48) ≤ intLimit then some (10 * v + (c.toNat - 48)) else none := by
  obtain ⟨hlo, hhi⟩ := digit_bound hc
  unfold intStep intMax intLimit
  by_cases h : 10 * v + (c.toNat - 48) ≤ 2147483637
  · rw [if_pos ⟨hc, by omega⟩, if_pos h]
  · rw [if_neg (fun h' => by omega), if_neg h]

theorem scanWhile_int (hw : ∀ c ∈ w, isdigit c = true) (hrest : NoDigit rest) (hv : v ≤ intLimit) :
    (numberFrom v w ≤ intLimit → scanWhile intStep v (w ++ rest) = (numberFrom v w, rest)) ∧
      (intLimit < numberFrom v w →
        (scanWhile intStep v (w ++ rest)).2.head?.any isdigit = true) := by
  induction w generalizing v with
  | nil =>
    refine ⟨fun _ => scanWhile_stop fun c hc => ?_, fun h => ?_⟩
    · simp [intStep, hrest c hc]
    · exact absurd hv (Nat.not_le.2 h)
  | cons c w ih =>
    have hc := hw c List.mem_cons_self
    have hle := le_numberFrom (v := 10 * v + (c.toNat - 48)) (w := w)
    rw [numberFrom_cons, List.cons_append, scanWhile, intStep_eq hc]
    by_cases h : 10 * v + (c.toNat - 48) ≤ intLimit
    · rw [if_pos h]
      exact ih (fun c hc => hw c (List.mem_cons_of_mem _ hc)) h
    · rw [if_neg h]
      exact ⟨fun h' => by omega, fun _ => hc⟩

theorem scanWhile_octet_digits (hw : ∀ c ∈ w, isdigit c = true) (hrest : NoDigit rest) :
    (numberFrom v w ≤ 255 →
      scanWhile octetStep (v : Int) (w ++ rest) = ((numberFrom v w : Int), rest)) ∧
    (255 < numberFrom v w → 255 < (scanWhile octetStep (v : Int) (w ++ rest)).1) := by
  induction w generalizing v with
  | nil =>
    have hstop : scanWhile octetStep (v : Int) rest = ((v : Int), rest) :=
      scanWhile_stop fun c hc => by simp [octetStep, hrest c hc]
    rw [List.nil_append, hstop]
    exact ⟨fun _ => rfl, fun h => Int.ofNat_lt.2 h⟩
  | cons c w ih =>
    have hc := hw c List.mem_cons_self
    obtain ⟨hlo, hhi⟩ := digit_bound hc
    have hle := le_numberFrom (v := 10 * v + (c.toNat - 48)) (w := w)
    rw [numberFrom_cons, List.cons_append, scanWhile]
    by_cases h : v ≤ 255
    · have hstep : octetStep (v : Int) c = some ((10 * v + (c.toNat - 48) : Nat) : Int) := by
        unfold octetStep
        rw [if_pos ⟨hc, by omega⟩, if_neg (by omega)]
        congr 1
        omega
      rw [hstep]
      exact ih fun c hc => hw c (List.mem_cons_of_mem _ hc)
    · have hstep : octetStep (v : Int) c = none := by
        unfold octetStep
        rw [if_neg fun h' => by omega]
      rw [hstep]
      exact ⟨fun h' => by omega, fun _ => by show 255 < (v : Int); omega⟩

theorem noDigit_dropWhile (s : Bytes) : NoDigit (s.dropWhile isdigit) := by
  intro c hc
  have := List.head?_dropWhile_not isdigit s
  rw [Option.mem_def.1 hc] at this
  simpa using this

theorem takeWhile_digits (s : Bytes) : ∀ c ∈ s.takeWhile isdigit, isdigit c = true :=
  List.all_eq_true.1 List.all_takeWhile

/-- `%d` takes all digits, and their value must be at most `intLimit`. -/
theorem scanInt_eq (s : Bytes) :
    scanInt s =
      if s.head?.any isdigit ∧ number (s.takeWhile isdigit) ≤ intLimit then
        some (number (s.takeWhile isdigit), s.dropWhile isdigit)
      else none := by
  have hscan := scanWhile_int (v := 0) (takeWhile_digits s) (noDigit_dropWhile s) (by decide)
  rw [List.takeWhile_append_dropWhile] at hscan
  unfold scanInt
  by_cases hd : s.head?.any isdigit = true
  · rw [if_pos hd]
    by_cases hn : number (s.takeWhile isdigit) ≤ intLimit
    · have hrest : (s.dropWhile isdigit).head?.any isdigit = false := by
        rcases he : s.dropWhile isdigit with _ | ⟨c, l⟩
        · rfl
        · exact noDigit_dropWhile s c (by rw [he]; rfl)
      rw [if_pos ⟨hd, hn⟩, hscan.1 hn]
      simp only [hrest]
      rfl
    · rw [if_neg fun h => hn h.2]
      have := hscan.2 (Nat.not_le.1 hn)
      simp only [this, if_true]
  · rw [if_neg hd, if_neg fun h => hd h.1]

theorem scanWhile_octet_eq (s : Bytes) :
    (octet s = none ∧ ((scanWhile octetStep (-1) s).1 < 0 ∨ 255 < (scanWhile octetStep (-1) s).1)) ∨
      ∃ b, octet s = some (b, s.dropWhile isdigit) ∧
        scanWhile octetStep (-1) s = ((b.toNat : Int), s.dropWhile isdigit) := by
  unfold octet
  rcases he : s.takeWhile isdigit with _ | ⟨c, w⟩
  · have hstop : scanWhile octetStep (-1) s = (-1, s) := by
      refine scanWhile_stop fun c hc => ?_
      have hdrop := noDigit_dropWhile s c
      rw [← List.takeWhile_append_dropWhile (p := isdigit) (l := s), he, List.nil_append] at hc
      simp [octetStep, hdrop hc]
    refine .inl ⟨if_neg fun h => h.1 rfl, .inl ?_⟩
    rw [hstop]
    show (-1 : Int) < 0
    decide
  · have hw := takeWhile_digits s
    rw [he] at hw
    have hc := hw c List.mem_cons_self
    obtain ⟨hlo, hhi⟩ := digit_bound hc
    have hstep : octetStep (-1) c = some ((10 * 0 + (c.toNat - 48) : Nat) : Int) := by
      unfold octetStep
      rw [if_pos ⟨hc, by decide⟩, if_pos (by decide)]
      congr 1
      omega
    have hscan := scanWhile_octet_digits (v := 10 * 0 + (c.toNat - 48))
      (fun c hc => hw c (List.mem_cons_of_mem _ hc)) (noDigit_dropWhile s)
    have hsplit : scanWhile octetStep (-1) s =
        scanWhile octetStep ((10 * 0 + (c.toNat - 48) : Nat) : Int) (w ++ s.dropWhile isdigit) := by
      conv_lhs => rw [← List.takeWhile_append_dropWhile (p := isdigit) (l := s), he]
      rw [List.cons_append, scanWhile, hstep]
    rw [hsplit]
    by_cases hn : number (c :: w) ≤ 255
    · refine .inr ⟨.ofNat (number (c :: w)), if_pos ⟨List.cons_ne_nil _ _, hn⟩, ?_⟩
      have hb : (UInt8.ofNat (number (c :: w))).toNat = number (c :: w) :=
        UInt8.toNat_ofNat_of_lt' (by unfold UInt8.size; omega)
      rw [hscan.1 hn, hb]
      rfl
    · exact .inl ⟨if_neg fun h => hn h.2, .inr (hscan.2 (Nat.not_le.1 hn))⟩

theorem scanAddr_succ (i value : Nat) (s : Bytes) :
    scanAddr (i + 1) value s =
      (octetDot s).bind fun r => scanAddr i (value * 256 + r.1.toNat) r.2 := by
  rw [scanAddr]
  unfold octetDot
  obtain ⟨he, hx⟩ | ⟨b, he, hx⟩ := scanWhile_octet_eq s
  · rw [he]
    simp only [hx, if_true]
    rfl
  · have hb := b.toNat_lt
    rw [he, hx]
    simp only
    rw [if_neg (by omega)]
    rcases s.dropWhile isdigit with _ | ⟨c, l⟩
    · rfl
    · by_cases hc : c = byte '.'
      · simp only [hc, if_true]
        rfl
      · simp only [hc, if_false]
        rfl

theorem scanAddr_zero (value : Nat) (s : Bytes) :
    scanAddr 0 value s = (octet s).map fun r => (value * 256 + r.1.toNat, r.2) := by
  rw [scanAddr]
  obtain ⟨he, hx⟩ | ⟨b, he, hx⟩ := scanWhile_octet_eq s
  · rw [he]
    simp only [hx, if_true]
    rfl
  · have hb := b.toNat_lt
    rw [he, hx]
    simp only
    rw [if_neg (by omega)]
    rfl

theorem scanAddr_quad (s : Bytes) :
    (scanAddr 3 0 s).map (fun r => (htonl r.1, r.2)) = quad s := by
  unfold quad
  rw [scanAddr_succ]
  rcases octetDot s with _ | ⟨b0, s⟩
  · rfl
  simp only [Option.bind_eq_bind, Option.bind_some]
  rw [scanAddr_succ]
  rcases octetDot s with _ | ⟨b1, s⟩
  · rfl
  simp only [Option.bind_some]
  rw [scanAddr_succ]
  rcases octetDot s with _ | ⟨b2, s⟩
  · rfl
  simp only [Option.bind_some]
  rw [scanAddr_zero]
  rcases octet s with _ | ⟨b3, s⟩
  · rfl
  rw [Option.map_some, Option.map_some, htonl_bytes ⟨b0, b1, b2, b3⟩]
  rfl

/-! ## Strings -/

theorem dropWhile_ends (s : Bytes) : Ends (s.dropWhile (!isspace ·)) := by
  intro c hc
  have := List.head?_dropWhile_not (!isspace ·) s
  rw [Option.mem_def.1 hc] at this
  simpa using this

theorem takeWhile_no_space (s : Bytes) : ∀ c ∈ s.takeWhile (!isspace ·), isspace c = false :=
  fun c hc => by simpa using List.all_eq_true.1 List.all_takeWhile c hc

theorem isspace_of_isxdigit (h : isxdigit c = true) : isspace c = false := by
  have hall : ∀ n : Nat, n < 256 → isxdigit (.ofNat n) = true → isspace (.ofNat n) = false := by
    decide +kernel
  have := hall c.toNat c.toNat_lt
  rw [UInt8.ofNat_toNat] at this
  exact this h

theorem head_not_xdigit (h : Ends rest) : ∀ c ∈ (rest ++ [0]).head?, isxdigit c = false := by
  intro c hc
  rcases rest with _ | ⟨d, rest⟩
  · obtain rfl : 0 = c := Option.some.inj hc
    decide
  · obtain rfl : d = c := Option.some.inj hc
    by_contra hx
    have := isspace_of_isxdigit ((Bool.not_eq_false _).mp hx)
    rw [h d rfl] at this
    cases this

theorem isQuoted_end (h : Ends rest) (c : UInt8) : isQuoted c (rest ++ [0]) = some false := by
  have hx := head_not_xdigit h
  rcases rest with _ | ⟨d, _ | ⟨e, rest⟩⟩
  · simp [isQuoted, hx 0 rfl]
  · simp [isQuoted, hx d rfl]
  · simp [isQuoted, hx d rfl]

theorem isQuoted_end_succ (h : Ends rest) (c c1 : UInt8) :
    isQuoted c (c1 :: (rest ++ [0])) = some false := by
  have hx := head_not_xdigit h
  rcases rest with _ | ⟨d, rest⟩
  · simp [isQuoted, hx 0 rfl]
  · simp [isQuoted, hx d rfl]

theorem scanString_unquote (hw : ∀ c ∈ w, isspace c = false) (hrest : Ends rest) :
    scanString [0] (w ++ rest) = some (unquote w, rest) := by
  have hlast (c : UInt8) (hc : isspace c = false) :
      scanString [0] (c :: rest) = some ([c], rest) := by
    rw [scanString_cons, hc, isQuoted_end hrest, scanString_ends hrest]
    rfl
  induction w using unquote.induct with
  | case1 c c1 c2 s hq ih =>
    have hrec := ih fun c hc => hw c (by simp [hc])
    have hquoted : isQuoted c (c1 :: c2 :: (s ++ rest) ++ [0]) = some true := by
      simp [isQuoted, hq]
    rw [List.cons_append, List.cons_append, List.cons_append, scanString_cons, hw c (by simp),
      hquoted, unquote, if_pos hq]
    simp [hrec]
  | case2 c c1 c2 s hq ih =>
    have hrec := ih fun c hc => hw c (List.mem_cons_of_mem _ hc)
    have hquoted : isQuoted c (c1 :: c2 :: (s ++ rest) ++ [0]) = some false := by
      simpa [isQuoted] using hq
    rw [List.cons_append, List.cons_append] at hrec
    rw [List.cons_append, List.cons_append, List.cons_append, scanString_cons, hw c (by simp),
      hquoted, unquote, if_neg hq]
    simp [hrec]
  | case3 s hs =>
    rcases s with _ | ⟨c, _ | ⟨c1, _ | ⟨c2, s⟩⟩⟩
    · exact scanString_ends hrest [0]
    · exact hlast c (hw c (by simp))
    · rw [List.cons_append, List.singleton_append, scanString_cons, hw c (by simp),
        List.cons_append, isQuoted_end_succ hrest]
      simp [hlast c1 (hw c1 (by simp)), unquote]
    · exact absurd rfl (hs c c1 c2 s)

theorem scanString_eq (s : Bytes) :
    scanString [0] s =
      some (unquote (s.takeWhile (!isspace ·)), s.dropWhile (!isspace ·)) := by
  have := scanString_unquote (takeWhile_no_space s) (dropWhile_ends s)
  rwa [List.takeWhile_append_dropWhile] at this

/-! ## The scanner and the longest reading -/

theorem numbersLe_cons {a : Arg} :
    NumbersLe n (a :: vs) ↔ (∀ i : Int, a = .int i → i ≤ n) ∧ NumbersLe n vs := by
  unfold NumbersLe
  simp only [List.mem_cons]
  constructor
  · intro h
    exact ⟨fun i hi => h i (.inl hi.symm), fun i hi => h i (.inr hi)⟩
  · rintro ⟨h, h'⟩ i (hi | hi)
    · exact h i hi.symm
    · exact h' i hi

theorem directives_char {c : Char} (hc : c ≠ '%') (inSpace : Bool) (format : List Char) :
    directives inSpace (c :: format) =
      if isspace (byte c) then
        if inSpace then directives true format else (directives true format).map (.space :: ·)
      else (directives false format).map (.lit (byte c) :: ·) := by
  rw [directives] <;> simp [hc]

theorem refused_iff (vs : List Arg) : (some (-1, []) : Option (Int × List Arg)) = some (0, vs) ↔
    ∃ rest, (none : Option (List Arg × Bytes)) = some (vs, rest) ∧ NumbersLe intLimit vs := by
  refine iff_of_false nofun ?_
  rintro ⟨rest, h, -⟩
  cases h

theorem read_field {scanned : Option (Int × List Arg)} {read : Option (List Arg × Bytes)} {a : Arg}
    (ha : ∀ i : Int, a = .int i → i ≤ intLimit)
    (h : ∀ vs, scanned = some (0, vs) ↔
      ∃ rest, read = some (vs, rest) ∧ NumbersLe intLimit vs) (vs : List Arg) :
    (scanned.bind fun r => some (r.1, a :: r.2)) = some (0, vs) ↔
      ∃ rest, read.map (fun r => (a :: r.1, r.2)) = some (vs, rest) ∧ NumbersLe intLimit vs := by
  constructor
  · intro hs
    obtain ⟨⟨ret, us⟩, hscan, he⟩ := Option.bind_eq_some_iff.1 hs
    cases he
    obtain ⟨rest, hread, hle⟩ := (h us).1 hscan
    rw [hread]
    exact ⟨rest, rfl, numbersLe_cons.2 ⟨ha, hle⟩⟩
  · rintro ⟨rest, hmap, hle⟩
    obtain ⟨⟨us, rest'⟩, hread, he⟩ := Option.map_eq_some_iff.1 hmap
    cases he
    rw [(h us).2 ⟨rest', hread, (numbersLe_cons.1 hle).2⟩]
    rfl

/-- **The scanner** accepts what has a longest reading without the largest numbers. -/
theorem scanLoop_longest (len : Nat) (inSpace : Bool) (format : List Char) :
    ∀ {ds s}, directives inSpace format = some ds → ∀ vs,
      (scanLoop [0] len inSpace format s = some (0, vs) ↔
        ∃ rest, longest ds s = some (vs, rest) ∧ NumbersLe intLimit vs) := by
  induction inSpace, format using directives.induct with
  | case1 inSpace =>
    intro ds s h vs
    cases h
    rw [scanLoop, longest]
    constructor
    · intro h
      cases h
      refine ⟨s, rfl, fun i hi => ?_⟩
      cases hi
    · rintro ⟨rest, h, -⟩
      cases h
      rfl
  | case2 inSpace format ih =>
    intro ds s h vs
    obtain ⟨ds, hds, rfl⟩ := Option.map_eq_some_iff.1 h
    rw [scanLoop, scanString_eq, longest]
    exact read_field (by rintro i ⟨⟩) (ih hds) vs
  | case3 inSpace format ih =>
    intro ds s h vs
    obtain ⟨ds, hds, rfl⟩ := Option.map_eq_some_iff.1 h
    have hquad := scanAddr_quad s
    rw [scanLoop, longest, ← hquad]
    rcases scanAddr 3 0 s with _ | ⟨value, s⟩
    · exact refused_iff vs
    · exact read_field (by rintro i ⟨⟩) (ih hds) vs
  | case4 inSpace format ih =>
    intro ds s h vs
    obtain ⟨ds, hds, rfl⟩ := Option.map_eq_some_iff.1 h
    rw [scanLoop, longest, scanInt_eq]
    by_cases hd : s.head?.any isdigit = true
    · rw [if_pos hd]
      by_cases hn : number (s.takeWhile isdigit) ≤ intLimit
      · rw [if_pos ⟨hd, hn⟩]
        refine read_field (fun i hi => ?_) (ih hds) vs
        cases hi
        exact Int.ofNat_le.2 hn
      · rw [if_neg fun h => hn h.2]
        refine iff_of_false (fun h => by cases h) ?_
        rintro ⟨rest, h, hle⟩
        obtain ⟨r, -, he⟩ := Option.map_eq_some_iff.1 h
        cases he
        exact hn (Int.ofNat_le.1 ((numbersLe_cons.1 hle).1 _ rfl))
    · rw [if_neg hd, if_neg fun h => hd h.1]
      exact refused_iff vs
  | case5 inSpace format ih =>
    intro ds s h vs
    obtain ⟨ds, hds, rfl⟩ := Option.map_eq_some_iff.1 h
    rcases s with _ | ⟨c, s⟩ <;> rw [scanLoop, longest]
    · exact refused_iff vs
    · by_cases hc : c = byte '%'
      · simp only [hc, if_true]
        exact ih hds vs
      · simp only [hc, if_false]
        exact refused_iff vs
  | case6 inSpace format h1 h2 h3 h4 =>
    intro ds s h
    rw [directives] at h
    · cases h
    all_goals assumption
  | case7 c format _ _ _ _ hc hs ih =>
    intro ds s h
    rw [directives_char hc, if_pos hs, if_pos rfl] at h
    rw [scanLoop_char hc, if_pos hs, if_pos rfl]
    exact ih h
  | case8 inSpace c format _ _ _ _ hc hs hsp ih =>
    intro ds s h vs
    rw [directives_char hc, if_pos hs, if_neg hsp] at h
    obtain ⟨ds, hds, rfl⟩ := Option.map_eq_some_iff.1 h
    rw [scanLoop_char hc, if_pos hs, if_neg hsp, longest]
    split
    · exact ih hds vs
    · exact refused_iff vs
  | case9 inSpace c format _ _ _ _ hc hs ih =>
    intro ds s h vs
    rw [directives_char hc, if_neg hs] at h
    obtain ⟨ds, hds, rfl⟩ := Option.map_eq_some_iff.1 h
    rw [scanLoop_char hc, if_neg hs]
    rcases s with _ | ⟨b, s⟩
    · exact refused_iff vs
    · rw [longest]
      by_cases hb : b = byte c
      · simp only [hb, if_true]
        exact ih hds vs
      · simp only [hb, if_false]
        exact refused_iff vs

/-! ## Matches and longest readings -/

theorem unquote_ne_nil (hw : w ≠ []) : unquote w ≠ [] := by
  rcases w with _ | ⟨c, _ | ⟨c1, _ | ⟨c2, w⟩⟩⟩
  · exact absurd rfl hw
  · exact List.cons_ne_nil _ _
  · exact List.cons_ne_nil _ _
  · rw [unquote]
    split <;> exact List.cons_ne_nil _ _

theorem Matches.fields (h : Matches ds s vs) : .str [] ∉ vs ∧ NumbersLe intMax vs := by
  induction h with
  | done => exact ⟨nofun, nofun⟩
  | lit _ ih => exact ih
  | space _ _ _ ih => exact ih
  | @str w _ _ _ hw _ _ ih =>
    refine ⟨fun hmem => ?_, numbersLe_cons.2 ⟨nofun, ih.2⟩⟩
    rcases List.mem_cons.1 hmem with he | hmem
    · exact unquote_ne_nil hw (Arg.str.inj he).symm
    · exact ih.1 hmem
  | addr _ _ _ _ _ ih =>
    refine ⟨fun hmem => ?_, numbersLe_cons.2 ⟨nofun, ih.2⟩⟩
    rcases List.mem_cons.1 hmem with he | hmem
    · cases he
    · exact ih.1 hmem
  | int _ _ hle _ ih =>
    refine ⟨fun hmem => ?_, numbersLe_cons.2 ⟨fun i hi => ?_, ih.2⟩⟩
    · rcases List.mem_cons.1 hmem with he | hmem
      · cases he
      · exact ih.1 hmem
    · cases hi
      exact Int.ofNat_le.2 hle

theorem isspace_of_isdigit (h : isdigit c = true) : isspace c = false :=
  isspace_of_isxdigit (by simp [isxdigit, h])

theorem takeWhile_ne_nil {p : UInt8 → Bool} (h : s.head?.any p = true) : s.takeWhile p ≠ [] := by
  rcases s with _ | ⟨b, s⟩
  · cases h
  · have hb : p b = true := h
    rw [List.takeWhile_cons_of_pos hb]
    exact List.cons_ne_nil _ _

theorem octet_sound {b : UInt8} {t : Bytes} (h : octet s = some (b, t)) :
    ∃ w, s = w ++ t ∧ IsOctet w b := by
  unfold octet at h
  split at h
  next hc =>
    cases h
    refine ⟨_, List.takeWhile_append_dropWhile.symm, hc.1, takeWhile_digits s, ?_⟩
    exact (UInt8.toNat_ofNat_of_lt' (by unfold UInt8.size; omega)).symm
  next => cases h

theorem octetDot_sound {b : UInt8} {t : Bytes} (h : octetDot s = some (b, t)) :
    ∃ w, s = w ++ byte '.' :: t ∧ IsOctet w b := by
  unfold octetDot at h
  split at h
  next c l ho =>
    split at h
    next hc =>
      cases h
      obtain ⟨w, rfl, hw⟩ := octet_sound ho
      exact ⟨w, by rw [hc], hw⟩
    next => cases h
  next => cases h

theorem quad_cases {a : InAddr} {t : Bytes} (h : quad s = some (a, t)) :
    ∃ s1 s2 s3, octetDot s = some (a.b0, s1) ∧ octetDot s1 = some (a.b1, s2) ∧
      octetDot s2 = some (a.b2, s3) ∧ octet s3 = some (a.b3, t) := by
  unfold quad at h
  obtain ⟨⟨b0, s1⟩, h0, h⟩ := Option.bind_eq_some_iff.1 h
  obtain ⟨⟨b1, s2⟩, h1, h⟩ := Option.bind_eq_some_iff.1 h
  obtain ⟨⟨b2, s3⟩, h2, h⟩ := Option.bind_eq_some_iff.1 h
  obtain ⟨⟨b3, s4⟩, h3, h⟩ := Option.bind_eq_some_iff.1 h
  cases h
  exact ⟨s1, s2, s3, h0, h1, h2, h3⟩

theorem longest_sound (h : longest ds s = some (vs, rest)) (hc : Complete vs rest) :
    Matches ds s vs := by
  induction ds generalizing s vs with
  | nil =>
    cases h
    rw [hc.rest]
    exact .done
  | cons d ds ih =>
    have htail {a : Arg} {us : List Arg} (hc : Complete (a :: us) rest) : Complete us rest :=
      ⟨hc.rest, fun hmem => hc.nonempty (List.mem_cons_of_mem _ hmem),
        (numbersLe_cons.1 hc.numbers).2⟩
    cases d with
    | lit c =>
      rcases s with _ | ⟨b, s⟩
      · cases h
      · rw [longest] at h
        split at h
        next hb =>
          rw [hb]
          exact .lit (ih h hc)
        next => cases h
    | space =>
      rw [longest] at h
      split at h
      next hs =>
        have hm := Matches.space (takeWhile_ne_nil hs) (List.all_eq_true.1 List.all_takeWhile)
          (ih h hc)
        rwa [List.takeWhile_append_dropWhile] at hm
      next => cases h
    | str =>
      rw [longest] at h
      obtain ⟨⟨us, t⟩, hl, he⟩ := Option.map_eq_some_iff.1 h
      cases he
      have hne : s.takeWhile (!isspace ·) ≠ [] := fun he => hc.nonempty (by
        rw [he]
        exact List.mem_cons_self)
      have hm := Matches.str hne (takeWhile_no_space s) (ih hl (htail hc))
      rwa [List.takeWhile_append_dropWhile] at hm
    | addr =>
      rw [longest] at h
      split at h
      next a t hq =>
        obtain ⟨⟨us, t'⟩, hl, he⟩ := Option.map_eq_some_iff.1 h
        cases he
        obtain ⟨s1, s2, s3, h0, h1, h2, h3⟩ := quad_cases hq
        obtain ⟨w0, rfl, hw0⟩ := octetDot_sound h0
        obtain ⟨w1, rfl, hw1⟩ := octetDot_sound h1
        obtain ⟨w2, rfl, hw2⟩ := octetDot_sound h2
        obtain ⟨w3, rfl, hw3⟩ := octet_sound h3
        exact .addr hw0 hw1 hw2 hw3 (ih hl (htail hc))
      next => cases h
    | int =>
      rw [longest] at h
      split at h
      next hs =>
        obtain ⟨⟨us, t⟩, hl, he⟩ := Option.map_eq_some_iff.1 h
        cases he
        have hle := Int.ofNat_le.1 ((numbersLe_cons.1 hc.numbers).1 _ rfl)
        have hm := Matches.int (takeWhile_ne_nil hs) (takeWhile_digits s) hle (ih hl (htail hc))
        rwa [List.takeWhile_append_dropWhile] at hm
      next => cases h

/-! ## Fields cut short

A match whose field is shorter than the longest one goes on inside the field. The
next item then cannot be one that the longest reading finds behind the field, unless
that reads an empty `%s` there. -/

/-- Runs of white space are apart, and no literal is white space. -/
def Regular : List Directive → Prop
  | [] => True
  | .space :: ds => ds.head? ≠ some .space ∧ Regular ds
  | .lit c :: ds => isspace c = false ∧ Regular ds
  | _ :: ds => Regular ds

theorem directives_regular (inSpace : Bool) (format : List Char) :
    ∀ {ds}, directives inSpace format = some ds →
      Regular ds ∧ (inSpace = true → ds.head? ≠ some .space) := by
  induction inSpace, format using directives.induct with
  | case1 inSpace =>
    intro ds h
    cases h
    exact ⟨trivial, nofun⟩
  | case2 inSpace format ih =>
    intro ds h
    obtain ⟨ds, hds, rfl⟩ := Option.map_eq_some_iff.1 h
    exact ⟨(ih hds).1, nofun⟩
  | case3 inSpace format ih =>
    intro ds h
    obtain ⟨ds, hds, rfl⟩ := Option.map_eq_some_iff.1 h
    exact ⟨(ih hds).1, nofun⟩
  | case4 inSpace format ih =>
    intro ds h
    obtain ⟨ds, hds, rfl⟩ := Option.map_eq_some_iff.1 h
    exact ⟨(ih hds).1, nofun⟩
  | case5 inSpace format ih =>
    intro ds h
    obtain ⟨ds, hds, rfl⟩ := Option.map_eq_some_iff.1 h
    exact ⟨⟨rfl, (ih hds).1⟩, nofun⟩
  | case6 inSpace format h1 h2 h3 h4 =>
    intro ds h
    rw [directives] at h
    · cases h
    all_goals assumption
  | case7 c format _ _ _ _ hc hs ih =>
    intro ds h
    rw [directives_char hc, if_pos hs, if_pos rfl] at h
    exact ih h
  | case8 inSpace c format _ _ _ _ hc hs hsp ih =>
    intro ds h
    rw [directives_char hc, if_pos hs, if_neg hsp] at h
    obtain ⟨ds, hds, rfl⟩ := Option.map_eq_some_iff.1 h
    exact ⟨⟨(ih hds).2 rfl, (ih hds).1⟩, fun h => absurd h hsp⟩
  | case9 inSpace c format _ _ _ _ hc hs ih =>
    intro ds h
    rw [directives_char hc, if_neg hs] at h
    obtain ⟨ds, hds, rfl⟩ := Option.map_eq_some_iff.1 h
    exact ⟨⟨(Bool.not_eq_true _).mp hs, (ih hds).1⟩, nofun⟩

theorem Matches.of_space (h : Matches (.space :: ds) s vs) :
    ∃ w t, s = w ++ t ∧ w ≠ [] ∧ (∀ c ∈ w, isspace c = true) ∧ Matches ds t vs := by
  cases h with
  | space hw hsp hm => exact ⟨_, _, rfl, hw, hsp, hm⟩

theorem Matches.of_str (h : Matches (.str :: ds) s vs) :
    ∃ w t us, s = w ++ t ∧ vs = .str (unquote w) :: us ∧ w ≠ [] ∧ (∀ c ∈ w, isspace c = false) ∧
      Matches ds t us := by
  cases h with
  | str hw hns hm => exact ⟨_, _, _, rfl, rfl, hw, hns, hm⟩

theorem Matches.of_addr (h : Matches (.addr :: ds) s vs) :
    ∃ w0 w1 w2 w3 a t us, s = w0 ++ byte '.' :: (w1 ++ byte '.' :: (w2 ++ byte '.' :: (w3 ++ t))) ∧
      vs = .addr a :: us ∧ IsOctet w0 a.b0 ∧ IsOctet w1 a.b1 ∧ IsOctet w2 a.b2 ∧ IsOctet w3 a.b3 ∧
      Matches ds t us := by
  cases h with
  | addr h0 h1 h2 h3 hm => exact ⟨_, _, _, _, _, _, _, rfl, rfl, h0, h1, h2, h3, hm⟩

theorem Matches.of_int (h : Matches (.int :: ds) s vs) :
    ∃ w t us, s = w ++ t ∧ vs = .int (number w) :: us ∧ w ≠ [] ∧ (∀ c ∈ w, isdigit c = true) ∧
      Matches ds t us := by
  cases h with
  | int hw hdig _ hm => exact ⟨_, _, _, rfl, rfl, hw, hdig, hm⟩

theorem Matches.head_space (h : Matches ds s vs) (hr : Regular ds)
    (hds : ds.head? ≠ some .space) : ∀ c ∈ s.head?, isspace c = false := by
  intro c hc
  cases h with
  | done => cases hc
  | @lit b ds s vs _ =>
    obtain rfl : b = c := Option.some.inj hc
    exact hr.1
  | space => exact absurd rfl hds
  | @str w ds s vs hw hns _ =>
    rcases w with _ | ⟨b, w⟩
    · exact absurd rfl hw
    · obtain rfl : b = c := Option.some.inj hc
      exact hns b List.mem_cons_self
  | @addr w0 w1 w2 w3 a ds s vs h0 _ _ _ _ =>
    rcases w0 with _ | ⟨b, w0⟩
    · exact absurd rfl h0.ne_nil
    · obtain rfl : b = c := Option.some.inj hc
      exact isspace_of_isdigit (h0.digits b List.mem_cons_self)
  | @int w ds s vs hw hdig _ _ =>
    rcases w with _ | ⟨b, w⟩
    · exact absurd rfl hw
    · obtain rfl : b = c := Option.some.inj hc
      exact isspace_of_isdigit (hdig b List.mem_cons_self)

theorem quad_head {a : InAddr} {t : Bytes} (h : quad s = some (a, t)) :
    s.head?.any isdigit = true := by
  obtain ⟨s1, s2, s3, h0, -⟩ := quad_cases h
  obtain ⟨w, rfl, hw⟩ := octetDot_sound h0
  rcases w with _ | ⟨b, w⟩
  · exact absurd rfl hw.ne_nil
  · exact hw.digits b List.mem_cons_self

variable {t y : Bytes} {us : List Arg}

/-- Behind a `%s` that was cut short the longest reading finds an empty `%s`. -/
theorem longest_empty (hr : Regular ds) (hl : longest ds t = some (us, rest)) (ht : Ends t)
    (hm : Matches ds (c :: s) vs) (hc : isspace c = false) : .str [] ∈ us := by
  have hdigit (hd : t.head?.any isdigit = true) : False := by
    rcases t with _ | ⟨b, t⟩
    · cases hd
    · have := isspace_of_isdigit hd
      rw [ht b rfl] at this
      cases this
  rcases ds with _ | ⟨_ | _ | _ | _ | _, ds⟩
  · cases hm
  · rcases t with _ | ⟨b, t⟩
    · cases hl
    · rw [longest] at hl
      split at hl
      next hb =>
        have := hr.1
        rw [← hb, ht b rfl] at this
        cases this
      next => cases hl
  · obtain ⟨_ | ⟨b, w⟩, t', he, hw, hsp, -⟩ := hm.of_space
    · exact absurd rfl hw
    · rw [List.cons_append, List.cons.injEq] at he
      rw [he.1, hsp b List.mem_cons_self] at hc
      cases hc
  · rw [longest] at hl
    obtain ⟨r, -, he⟩ := Option.map_eq_some_iff.1 hl
    cases he
    have hnil : t.takeWhile (!isspace ·) = [] := by
      rcases t with _ | ⟨b, t⟩
      · rfl
      · exact List.takeWhile_cons_of_neg (by simp [ht b rfl])
    rw [hnil]
    exact List.mem_cons_self
  · rw [longest] at hl
    split at hl
    next hq => exact (hdigit (quad_head hq)).elim
    next => cases hl
  · rw [longest] at hl
    split at hl
    next hd => exact (hdigit hd).elim
    next => cases hl

theorem unquote_digits (hy : ∀ c ∈ y, isdigit c = true) (w : Bytes) :
    unquote (y ++ w) = y ++ unquote w := by
  induction y with
  | nil => rfl
  | cons c y ih =>
    have hrec := ih fun c hc => hy c (List.mem_cons_of_mem _ hc)
    have hc : c ≠ byte '%' := by
      rintro rfl
      exact absurd (hy _ List.mem_cons_self) (by decide)
    rcases hl : y ++ w with _ | ⟨c1, _ | ⟨c2, l⟩⟩
    · rw [List.cons_append, List.cons_append, ← hrec, hl]
      rfl
    · rw [List.cons_append, List.cons_append, ← hrec, hl]
      rfl
    · rw [List.cons_append, List.cons_append, ← hrec, hl, unquote, if_neg fun h => hc h.1]

/-- Behind digits that were cut short the longest reading finds other fields. -/
theorem longest_apart (hr : Regular ds) (hl : longest ds t = some (us, rest)) (ht : NoDigit t)
    (hy : y ≠ []) (hdig : ∀ c ∈ y, isdigit c = true) (hm : Matches ds (y ++ t) vs) : us ≠ vs := by
  rintro rfl
  obtain ⟨d, y', rfl⟩ := List.exists_cons_of_ne_nil hy
  have hd := hdig d List.mem_cons_self
  have hfirst (hd : t.head?.any isdigit = true) : False := by
    rcases t with _ | ⟨b, t⟩
    · cases hd
    · have hb : isdigit b = true := hd
      rw [ht b rfl] at hb
      cases hb
  rcases ds with _ | ⟨_ | _ | _ | _ | _, ds⟩
  · cases hm
  · cases hm with
    | lit hm =>
      rcases t with _ | ⟨b, t⟩
      · cases hl
      · rw [longest] at hl
        split at hl
        next hb => exact hfirst (by rw [hb]; exact hd)
        next => cases hl
  · obtain ⟨_ | ⟨b, w⟩, t', he, hw, hsp, -⟩ := hm.of_space
    · exact absurd rfl hw
    · rw [List.cons_append, List.cons_append, List.cons.injEq] at he
      have := isspace_of_isdigit hd
      rw [he.1, hsp b List.mem_cons_self] at this
      cases this
  · rw [longest] at hl
    obtain ⟨⟨us', t'⟩, hrest, he⟩ := Option.map_eq_some_iff.1 hl
    cases he
    obtain ⟨w, s', us, hs, hus, hw, hns, hm⟩ := hm.of_str
    rw [List.cons.injEq, Arg.str.injEq] at hus
    obtain ⟨hval, rfl⟩ := hus
    have hyns : ∀ c ∈ d :: y', (!isspace c) = true := fun c hc => by
      rw [isspace_of_isdigit (hdig c hc)]
      rfl
    have hwns : ∀ c ∈ w, (!isspace c) = true := fun c hc => by
      rw [hns c hc]
      rfl
    have htake := congrArg (List.takeWhile (!isspace ·)) hs
    rw [List.takeWhile_append_of_pos hyns, List.takeWhile_append_of_pos hwns] at htake
    rcases s' with _ | ⟨e, s'⟩
    · rw [List.takeWhile_nil, List.append_nil] at htake
      rw [← htake, unquote_digits hdig] at hval
      have := congrArg List.length hval
      rw [List.length_append, List.length_cons] at this
      omega
    · by_cases he : isspace e = true
      · rw [List.takeWhile_cons_of_neg (by simp [he]), List.append_nil] at htake
        rw [← htake, unquote_digits hdig] at hval
        have := congrArg List.length hval
        rw [List.length_append, List.length_cons] at this
        omega
      · have he := (Bool.not_eq_true _).mp he
        have hr : Regular ds := hr
        exact hm.fields.1 (longest_empty hr hrest (dropWhile_ends t) hm he)
  · rw [longest] at hl
    split at hl
    next hq => exact hfirst (quad_head hq)
    next => cases hl
  · rw [longest] at hl
    split at hl
    next hd => exact hfirst hd
    next => cases hl

theorem octetDot_append {b : UInt8} (hw : IsOctet w b) (s : Bytes) :
    octetDot (w ++ byte '.' :: s) = some (b, s) := by
  have htake : (w ++ byte '.' :: s).takeWhile isdigit = w := by
    rw [List.takeWhile_append_of_pos hw.digits, List.takeWhile_cons_of_neg (by decide),
      List.append_nil]
  have hdrop : (w ++ byte '.' :: s).dropWhile isdigit = byte '.' :: s := by
    rw [List.dropWhile_append_of_pos hw.digits, List.dropWhile_cons_of_neg (by decide)]
  have hb := b.toNat_lt
  have hoctet : octet (w ++ byte '.' :: s) = some (b, byte '.' :: s) := by
    unfold octet
    rw [htake, hdrop, if_pos ⟨hw.ne_nil, by rw [hw.value]; omega⟩, hw.value, UInt8.ofNat_toNat]
  unfold octetDot
  rw [hoctet]
  exact if_pos rfl

theorem quad_rest {w0 w1 w2 w3 : Bytes} {a a' : InAddr} (h0 : IsOctet w0 a.b0)
    (h1 : IsOctet w1 a.b1) (h2 : IsOctet w2 a.b2) (h3 : IsOctet w3 a.b3)
    (hq : quad (w0 ++ byte '.' :: (w1 ++ byte '.' :: (w2 ++ byte '.' :: (w3 ++ s)))) =
      some (a', t)) : t = s.dropWhile isdigit := by
  obtain ⟨s1, s2, s3, hq0, hq1, hq2, hq3⟩ := quad_cases hq
  rw [octetDot_append h0] at hq0
  obtain ⟨-, rfl⟩ := Prod.mk.inj (Option.some.inj hq0)
  rw [octetDot_append h1] at hq1
  obtain ⟨-, rfl⟩ := Prod.mk.inj (Option.some.inj hq1)
  rw [octetDot_append h2] at hq2
  obtain ⟨-, rfl⟩ := Prod.mk.inj (Option.some.inj hq2)
  unfold octet at hq3
  split at hq3
  next =>
    obtain ⟨-, rfl⟩ := Prod.mk.inj (Option.some.inj hq3)
    rw [List.dropWhile_append_of_pos h3.digits]
  next => cases hq3

theorem read_of_map {read : Option (List Arg × Bytes)} {v w : Arg} {us : List Arg}
    (h : (read.map fun r => (w :: r.1, r.2)) = some (v :: us, rest)) :
    read = some (us, rest) := by
  obtain ⟨⟨us', rest'⟩, hread, he⟩ := Option.map_eq_some_iff.1 h
  rw [Prod.mk.injEq, List.cons.injEq] at he
  obtain ⟨⟨-, rfl⟩, rfl⟩ := he
  exact hread

/-- **Nothing is left** behind a longest reading that gives the values of a match. -/
theorem longest_rest (hr : Regular ds) (hl : longest ds s = some (vs, rest))
    (hm : Matches ds s vs) : rest = [] := by
  induction ds generalizing s vs with
  | nil =>
    cases hm
    cases hl
    rfl
  | cons d ds ih =>
    -- behind the digits of a number or an address
    have hnumber {t : Bytes} {us : List Arg} (hr : Regular ds)
        (hl : longest ds (t.dropWhile isdigit) = some (us, rest)) (hm : Matches ds t us) :
        rest = [] := by
      rcases ht : t.takeWhile isdigit with _ | ⟨b, y⟩
      · have hsplit := List.takeWhile_append_dropWhile (p := isdigit) (l := t)
        rw [ht, List.nil_append] at hsplit
        rw [hsplit] at hl
        exact ih hr hl hm
      · have hsplit := List.takeWhile_append_dropWhile (p := isdigit) (l := t)
        rw [← hsplit] at hm
        refine absurd rfl (longest_apart hr hl (noDigit_dropWhile t) ?_ (takeWhile_digits t) hm)
        rw [ht]
        exact List.cons_ne_nil b y
    cases d with
    | lit c =>
      cases hm with
      | lit hm =>
        rw [longest, if_pos rfl] at hl
        exact ih hr.2 hl hm
    | space =>
      obtain ⟨w, t, rfl, hw, hsp, hm⟩ := hm.of_space
      have hhead := hm.head_space hr.2 hr.1
      have hdrop : (w ++ t).dropWhile isspace = t := by
        rw [List.dropWhile_append_of_pos hsp]
        rcases t with _ | ⟨b, t⟩
        · rfl
        · exact List.dropWhile_cons_of_neg (by simp [hhead b rfl])
      rw [longest, hdrop] at hl
      split at hl
      next => exact ih hr.2 hl hm
      next => cases hl
    | str =>
      obtain ⟨w, t, us, rfl, rfl, hw, hns, hm⟩ := hm.of_str
      have hwns : ∀ c ∈ w, (!isspace c) = true := fun c hc => by
        rw [hns c hc]
        rfl
      rw [longest, List.dropWhile_append_of_pos hwns] at hl
      have hl' := read_of_map hl
      have hr : Regular ds := hr
      rcases t with _ | ⟨b, t⟩
      · exact ih hr hl' hm
      · by_cases hb : isspace b = true
        · rw [List.dropWhile_cons_of_neg (by simp [hb])] at hl'
          exact ih hr hl' hm
        · have hb := (Bool.not_eq_true _).mp hb
          exact absurd (longest_empty hr hl' (dropWhile_ends _) hm hb) hm.fields.1
    | addr =>
      obtain ⟨w0, w1, w2, w3, a, t, us, rfl, rfl, h0, h1, h2, h3, hm⟩ := hm.of_addr
      rw [longest] at hl
      split at hl
      next a' s' hq =>
        have hl' := read_of_map hl
        rw [quad_rest h0 h1 h2 h3 hq] at hl'
        exact hnumber hr hl' hm
      next => cases hl
    | int =>
      obtain ⟨w, t, us, rfl, rfl, hw, hdig, hm⟩ := hm.of_int
      rw [longest, List.dropWhile_append_of_pos hdig] at hl
      split at hl
      next =>
        have hl' := read_of_map hl
        exact hnumber hr hl' hm
      next => cases hl

/-! ## When the scanner is exact -/

/-- `osp2p_sscanf` returns 0 for the strings that match, and stores what they denote. -/
def Exact (format : List Char) (ds : List Directive) (s : Bytes) : Prop :=
  ((∃ vs, osp2pSscanf s format = some (0, vs)) ↔ ∃ vs, Matches ds s vs) ∧
    ∀ vs, osp2pSscanf s format = some (0, vs) → Matches ds s vs

/-- The string matches in no other way than with every field as long as it can be; and where
it can be read so, it has no number above `intLimit` iff it is a match. -/
def PlainlyRead (ds : List Directive) (s : Bytes) : Prop :=
  ((∃ vs, Matches ds s vs) → ∃ vs rest, longest ds s = some (vs, rest) ∧ Complete vs rest) ∧
    ∀ vs rest, longest ds s = some (vs, rest) → (NumbersLe intLimit vs ↔ Complete vs rest)

/-- **The scanner accepts exactly its format** iff the string is plainly read. -/
theorem sscanf_exact_iff {format : List Char} {ds : List Directive}
    (hds : directives false format = some ds) (s : Bytes) :
    Exact format ds s ↔ PlainlyRead ds s := by
  have hscan := scanLoop_longest s.length false format (s := s) hds
  have hr := (directives_regular false format hds).1
  constructor
  · rintro ⟨hiff, hval⟩
    have hsound (vs : List Arg) (rest : Bytes) (hl : longest ds s = some (vs, rest))
        (hn : NumbersLe intLimit vs) : Complete vs rest := by
      have hm := hval vs ((hscan vs).2 ⟨rest, hl, hn⟩)
      exact ⟨longest_rest hr hl hm, hm.fields.1, hm.fields.2⟩
    refine ⟨fun hm => ?_, fun vs rest hl => ⟨hsound vs rest hl, fun hc => ?_⟩⟩
    · obtain ⟨vs, hs⟩ := hiff.2 hm
      obtain ⟨rest, hl, hn⟩ := (hscan vs).1 hs
      exact ⟨vs, rest, hl, hsound vs rest hl hn⟩
    · obtain ⟨us, hs⟩ := hiff.2 ⟨vs, longest_sound hl hc⟩
      obtain ⟨rest', hl', hn⟩ := (hscan us).1 hs
      rw [hl] at hl'
      cases hl'
      exact hn
  · rintro ⟨honly, hall⟩
    have hval (vs : List Arg) (hs : osp2pSscanf s format = some (0, vs)) : Matches ds s vs := by
      obtain ⟨rest, hl, hn⟩ := (hscan vs).1 hs
      exact longest_sound hl ((hall vs rest hl).1 hn)
    refine ⟨⟨fun ⟨vs, hs⟩ => ⟨vs, hval vs hs⟩, fun hm => ?_⟩, hval⟩
    obtain ⟨vs, rest, hl, hc⟩ := honly hm
    exact ⟨vs, (hscan vs).2 ⟨rest, hl, (hall vs rest hl).2 hc⟩⟩

/-- The third example of the documentation. -/
theorem getLine_exact : Exact "GET %s %I:%d\n".toList
    [.lit 71, .lit 69, .lit 84, .space, .str, .space, .addr, .lit 58, .int, .space]
    ("GET %20 1.0.0.2:4\n".toList.map byte) := by
  refine (sscanf_exact_iff (by decide) _).2 ?_
  have hread : longest
      [.lit 71, .lit 69, .lit 84, .space, .str, .space, .addr, .lit 58, .int, .space]
      ("GET %20 1.0.0.2:4\n".toList.map byte) =
        some ([.str [32], .addr ⟨1, 0, 0, 2⟩, .int 4], []) := by decide
  have hle {n : Nat} (hn : 4 ≤ n) : NumbersLe n [.str [32], .addr ⟨1, 0, 0, 2⟩, .int 4] := by
    intro i hi
    simp only [List.mem_cons, reduceCtorEq, Arg.int.injEq, List.not_mem_nil, or_false,
      false_or] at hi
    omega
  have hc : Complete [.str [32], .addr ⟨1, 0, 0, 2⟩, .int 4] [] :=
    ⟨rfl, by decide, hle (by decide)⟩
  refine ⟨fun _ => ⟨_, _, hread, hc⟩, fun vs rest hl => ?_⟩
  rw [hread] at hl
  cases hl
  exact iff_of_true (hle (by decide)) hc

/-- An empty string is accepted for `%s`, text behind a number is accepted, and the largest
`int` is refused. -/
theorem sscanf_not_exact :
    (osp2pSscanf [] ['%', 's'] = some (0, [.str []]) ∧ ¬ Exact ['%', 's'] [.str] []) ∧
    (osp2pSscanf [byte '7', byte 'x'] ['%', 'd'] = some (0, [.int 7]) ∧
      ¬ Exact ['%', 'd'] [.int] [byte '7', byte 'x']) ∧
    (osp2pSscanf ("2147483647".toList.map byte) ['%', 'd'] = some (-1, []) ∧
      ¬ Exact ['%', 'd'] [.int] ("2147483647".toList.map byte)) := by
  have hempty : osp2pSscanf [] ['%', 's'] = some (0, [.str []]) := by decide
  have hrest : osp2pSscanf [byte '7', byte 'x'] ['%', 'd'] = some (0, [.int 7]) := by decide
  have hmax : osp2pSscanf ("2147483647".toList.map byte) ['%', 'd'] = some (-1, []) := by decide
  refine ⟨⟨hempty, fun h => ?_⟩, ⟨hrest, fun h => ?_⟩, ⟨hmax, fun h => ?_⟩⟩
  · obtain ⟨w, t, us, hs, -, hw, -⟩ := (h.2 _ hempty).of_str
    exact hw (List.append_eq_nil_iff.1 hs.symm).1
  · obtain ⟨w, t, us, hs, -, -, hdig, hm⟩ := (h.2 _ hrest).of_int
    cases hm
    rw [List.append_nil] at hs
    rw [← hs] at hdig
    exact absurd (hdig (byte 'x') (by decide)) (by decide)
  · have hm : Matches [.int] ("2147483647".toList.map byte ++ [])
        [.int (number ("2147483647".toList.map byte))] :=
      .int (by decide) (by decide +kernel) (by decide) .done
    rw [List.append_nil] at hm
    obtain ⟨vs, hs⟩ := h.1.2 ⟨_, hm⟩
    rw [hmax] at hs
    cases hs

end OsLabs.Osp2p
