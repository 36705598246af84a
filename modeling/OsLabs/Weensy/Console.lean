import OsLabs.Lib.Numerals
import OsLabs.Lib.Scan

/-!
# WeensyOS: `console_vprintf`

The formatted output of `lib.c`. A place on the console is the number of its
cell, counted from CONSOLE_BEGIN. `text` gives the strings `%s` prints by their
addresses. `consoleVprintf_stays`: whatever is printed stays on the console.
-/

namespace OsLabs.Weensy.Printf

open Numerals
open Scan (scanWhile)

/-! ## The console -/

def consoleEnd : Nat := 80 * 25

/-- The cursor and the cells stored so far, the latest first. -/
structure Console where
  cursor : Nat
  cells : List (Nat × UInt16)

/-- `*cursor++ = cell` -/
def Console.store (k : Console) (cell : UInt16) : Console :=
  ⟨k.cursor + 1, (k.cursor, cell) :: k.cells⟩

def cellOf (c : Char) (color : UInt32) : UInt16 := c.toUInt8.toUInt16 ||| color.toUInt16

/-- The loop of `console_putc` for a newline with `n` cells to go. -/
def Console.fillRow (color : UInt32) (k : Console) : Nat → Console
  | 0 => k
  | n + 1 => (k.store (cellOf ' ' color)).fillRow color n

def consolePutc (color : UInt32) (k : Console) (c : Char) : Console :=
  let k := if k.cursor ≥ consoleEnd then { k with cursor := 0 } else k
  if c = '\n' then k.fillRow color (80 - k.cursor % 80)
  else k.store (cellOf c color)

/-! ## Numbers -/

/-- A result of `int` arithmetic. -/
def wrap (n : Int) : Int := n.bmod (2 ^ 32)

def toInt (w : UInt32) : Int := wrap w.toNat

def upperDigits : List Char :=
  ['0', '1', '2', '3', '4', '5', '6', '7', '8', '9', 'A', 'B', 'C', 'D', 'E', 'F']
def lowerDigits : List Char :=
  ['0', '1', '2', '3', '4', '5', '6', '7', '8', '9', 'a', 'b', 'c', 'd', 'e', 'f']

def numbufsiz : Nat := 20

/-- The digit loop of `fill_numbuf`. `buf` are the bytes stored; the pointer is `room` bytes
behind the start of the buffer, and a store in front of the start is `none`. -/
def fillLoop (base : Nat) (digits : List Char) : Nat → List Char → Nat → Option (List Char)
  | _, _, 0 => none
  | val, buf, room + 1 =>
    let buf := digits.getD (val % base) '\x00' :: buf
    if val / base ≠ 0 then fillLoop base digits (val / base) buf room else some buf

/-- The string, without the NUL that is stored first. -/
def fillNumbuf (numbufEnd val base : Nat) (digits : List Char) (precision : Int) :
    Option (List Char) :=
  match numbufEnd with
  | 0 => none
  | room + 1 => if precision ≠ 0 ∨ val ≠ 0 then fillLoop base digits val [] room else some []

/-! ## Directives -/

/-- The words of the argument list from the pointer on. -/
abbrev VaList := Nat → UInt32

def vaArg (val : VaList) : UInt32 × VaList := (val 0, fun i => val (i + 1))

def flagChars : List Char := ['#', '0', '-', ' ', '+']
def flagZero : Nat := 1 <<< 1
def flagLeftjustify : Nat := 1 <<< 2
def flagSpacepositive : Nat := 1 <<< 3
def flagPluspositive : Nat := 1 <<< 4

def scanFlags (format : List Char) : Nat × List Char :=
  scanWhile (fun flags c =>
    if c ∈ flagChars then some (flags ||| 1 <<< flagChars.idxOf c) else none) 0 format

def scanNumber (format : List Char) : Int × List Char :=
  scanWhile (fun n c =>
    if '0' ≤ c ∧ c ≤ '9' then some (wrap (10 * n + c.toNat - '0'.toNat)) else none) 0 format

/-- A width or a precision, and where the scan stands behind it. -/
structure Scanned where
  value : Int
  format : List Char
  val : VaList

/-- A number whose first digit is at least `first`, or `*`; -1 where there is neither. -/
def scanCount (first : Char) (format : List Char) (val : VaList) : Scanned :=
  match format with
  | [] => ⟨-1, [], val⟩
  | c :: rest =>
    if first ≤ c ∧ c ≤ '9' then ⟨(scanNumber format).1, (scanNumber format).2, val⟩
    else if c = '*' then ⟨toInt (vaArg val).1, rest, (vaArg val).2⟩
    else ⟨-1, format, val⟩

def scanPrecision (format : List Char) (val : VaList) : Scanned :=
  match format with
  | '.' :: rest =>
    let count := scanCount '0' rest val
    { count with value := if count.value < 0 then 0 else count.value }
  | _ => ⟨-1, format, val⟩

/-- What stands between `%` and the conversion character, and where the scan stands then. -/
structure Directive where
  flags : Nat
  width : Int
  precision : Int
  format : List Char
  val : VaList

def directive (format : List Char) (val : VaList) : Directive :=
  let flags := scanFlags format
  let width := scanCount '1' flags.2 val
  let precision := scanPrecision width.format width.val
  ⟨flags.1, width.value, precision.value, precision.format, precision.val⟩

/-- The string to print, and whether it is of a number and of a negative one. -/
structure Converted where
  data : List Char
  negative : Bool
  numeric : Bool
  format : List Char
  val : VaList

/-- The switch over the conversion character, without `C`. -/
def convert (text : UInt32 → List Char) (d : Directive) : Option Converted :=
  let (x, val) := vaArg d.val
  let number (u : UInt32) (base : Nat) (digits : List Char) (negative : Bool)
      (rest : List Char) : Option Converted :=
    (fillNumbuf numbufsiz u.toNat base digits d.precision).map fun data =>
      ⟨data, negative, true, rest, val⟩
  match d.format with
  | 'd' :: rest => number (if toInt x > 0 then x else -x) 10 upperDigits (toInt x < 0) rest
  | 'u' :: rest => number x 10 upperDigits false rest
  | 'x' :: rest => number x 16 lowerDigits false rest
  | 'X' :: rest => number x 16 upperDigits false rest
  | 's' :: rest => some ⟨text x, false, false, rest, val⟩
  | 'c' :: rest =>
    let c := Char.ofNat x.toUInt8.toNat
    some ⟨if c = '\x00' then [] else [c], false, false, rest, val⟩
  | c :: rest => some ⟨[c], false, false, rest, d.val⟩
  -- the NUL stays unread
  | [] => some ⟨['%'], false, false, [], d.val⟩

def signOf (flags : Nat) (c : Converted) : List Char :=
  if c.numeric ∧ c.negative then ['-']
  else if flags &&& flagPluspositive ≠ 0 then ['+']
  else if flags &&& flagSpacepositive ≠ 0 then [' ']
  else []

def strnlen (data : List Char) (maxlen : Nat) : Nat := min data.length maxlen

def lenOf (precision : Int) (data : List Char) : Int :=
  wrap (if precision ≥ 0 then strnlen data precision.toNat else data.length)

def zerosOf (flags : Nat) (width precision len sign : Int) (numeric : Bool) : Int :=
  if numeric ∧ precision > len then precision - len
  else if flags &&& (flagZero ||| flagLeftjustify) = flagZero ∧ numeric ∧ precision < 0 ∧
      len + sign < width then width - len - sign
  else 0

/-- The characters handed to `console_putc` for a directive, in order. -/
def field (d : Directive) (c : Converted) : List Char :=
  let len := lenOf d.precision c.data
  let sign := signOf d.flags c
  let zeros := zerosOf d.flags d.width d.precision len sign.length c.numeric
  let width := wrap (d.width - (len + zeros + sign.length))
  let padding := List.replicate width.toNat ' '
  (if d.flags &&& flagLeftjustify = 0 then padding else []) ++ sign ++
    List.replicate zeros.toNat '0' ++ c.data.take len.toNat ++
    (if d.flags &&& flagLeftjustify = 0 then [] else padding)

/-! ## The loop -/

/-- The variables of `console_vprintf` that live across the turns of its loop. -/
structure Vprintf where
  console : Console
  color : UInt32
  format : List Char
  val : VaList

/-- A turn of the loop at the character `c`. -/
def turn (text : UInt32 → List Char) (s : Vprintf) (c : Char) (format : List Char) :
    Option Vprintf :=
  if c ≠ '%' then some { s with console := consolePutc s.color s.console c, format := format }
  else
    let d := directive format s.val
    match d.format with
    | 'C' :: rest =>
      let (color, val) := vaArg d.val
      some { s with color := color, format := rest, val := val }
    | _ =>
      (convert text d).map fun v =>
        { s with
          console := (field d v).foldl (consolePutc s.color) s.console
          format := v.format, val := v.val }

/-! ## The format is read forward -/

variable {text : UInt32 → List Char} {format rest : List Char} {val : VaList} {d : Directive}
  {v : Converted} {s s' : Vprintf} {c : Char}

theorem length_scanCount (first : Char) (format : List Char) (val : VaList) :
    (scanCount first format val).format.length ≤ format.length := by
  unfold scanCount
  rcases format with _ | ⟨c, rest⟩
  · exact Nat.le_refl _
  · dsimp only
    split_ifs
    · exact Scan.length_scanWhile_le _ _
    · exact Nat.le_succ _
    · exact Nat.le_refl _

theorem length_scanPrecision (format : List Char) (val : VaList) :
    (scanPrecision format val).format.length ≤ format.length := by
  unfold scanPrecision
  split
  · exact Nat.le_succ_of_le (length_scanCount _ _ _)
  · exact Nat.le_refl _

theorem length_directive (format : List Char) (val : VaList) :
    (directive format val).format.length ≤ format.length :=
  calc (directive format val).format.length
    _ ≤ (scanCount '1' (scanFlags format).2 val).format.length := length_scanPrecision _ _
    _ ≤ (scanFlags format).2.length := length_scanCount _ _ _
    _ ≤ format.length := Scan.length_scanWhile_le _ _

theorem format_convert (h : convert text d = some v) : v.format = d.format.tail := by
  unfold convert at h
  dsimp only at h
  split at h
  all_goals rename_i hd
  all_goals rw [hd]
  -- a number comes out of the digit buffer
  iterate 4
    obtain ⟨data, -, rfl⟩ := Option.map_eq_some_iff.1 h
    rfl
  all_goals
    obtain rfl := Option.some.inj h
    rfl

theorem length_turn (h : turn text s c format = some s') : s'.format.length ≤ format.length := by
  unfold turn at h
  split at h
  · obtain rfl := Option.some.inj h
    exact Nat.le_refl _
  · dsimp only at h
    have hd := length_directive format s.val
    split at h
    · rename_i rest hrest
      obtain rfl := Option.some.inj h
      rw [hrest] at hd
      exact Nat.le_trans (Nat.le_succ _) hd
    · obtain ⟨v, hv, rfl⟩ := Option.map_eq_some_iff.1 h
      rw [format_convert hv]
      exact Nat.le_trans (by simp) hd

def vprintfLoop (text : UInt32 → List Char) (s : Vprintf) : Option Console :=
  match _ : s.format with
  | [] => some s.console
  | c :: format =>
    match _ : turn text s c format with
    | none => none
    | some s' => vprintfLoop text s'
termination_by s.format.length
decreasing_by
  rename_i hs h
  rw [hs]
  exact Nat.lt_succ_of_le (length_turn h)

/-- `none` where the digit buffer is overrun. -/
def consoleVprintf (text : UInt32 → List Char) (cursor : Nat) (color : UInt32)
    (format : List Char) (val : VaList) : Option Console :=
  vprintfLoop text ⟨⟨cursor, []⟩, color, format, val⟩

/-! ## The digit buffer -/

/-- The loop stores the digits if there is room for them. -/
theorem fillLoop_eq {base room val : Nat} (digits buf : List Char) (hb : 1 < base)
    (hroom : 0 < room) (hval : val < base ^ room) :
    fillLoop base digits val buf room = some (numeral base digits '\x00' val ++ buf) := by
  induction room generalizing val buf with
  | zero => exact absurd hroom (Nat.lt_irrefl 0)
  | succ room ih =>
    unfold fillLoop
    dsimp only
    by_cases hq : val / base = 0
    · have hlt : val < base := (Nat.div_eq_zero_iff.1 hq).resolve_left (by omega)
      rw [if_neg (not_not.2 hq), numeral_of_lt digits _ hlt, Nat.mod_eq_of_lt hlt]
      rfl
    · have hnext : val / base < base ^ room :=
        Nat.div_lt_of_lt_mul (by rwa [Nat.pow_succ, Nat.mul_comm] at hval)
      have hmore : 0 < room := by
        apply Nat.pos_of_ne_zero
        rintro rfl
        exact hq (Nat.lt_one_iff.1 hnext)
      rw [if_pos hq, ih _ hmore hnext, numeral_div digits _ hb hq, List.append_assoc]
      rfl

theorem fillNumbuf_eq {base : Nat} (hb : 10 ≤ base) (x : UInt32) (digits : List Char)
    (precision : Int) :
    fillNumbuf numbufsiz x.toNat base digits precision =
      some (if precision ≠ 0 ∨ x.toNat ≠ 0 then numeral base digits '\x00' x.toNat else []) := by
  have hx : x.toNat < base ^ 19 :=
    calc x.toNat
      _ < 2 ^ 32 := x.toNat_lt
      _ ≤ 10 ^ 19 := by decide
      _ ≤ base ^ 19 := Nat.pow_le_pow_left hb 19
  show (if _ then fillLoop base digits x.toNat [] 19 else _) = _
  rw [fillLoop_eq digits [] (by omega) (by decide) hx, List.append_nil]
  split
  · rfl
  · rfl

theorem convert_isSome (text : UInt32 → List Char) (d : Directive) :
    ∃ v, convert text d = some v := by
  unfold convert
  dsimp only
  split
  iterate 4
    rw [fillNumbuf_eq (by decide)]
    exact ⟨_, rfl⟩
  all_goals exact ⟨_, rfl⟩

/-! ## Staying on the console -/

/-- The cursor is on the console or right behind it, and all cells stored are on it. -/
structure Console.Stays (k : Console) : Prop where
  cursor_le : k.cursor ≤ consoleEnd
  cells_lt : ∀ cell ∈ k.cells, cell.1 < consoleEnd

variable {k : Console} {n : Nat} {color : UInt32}

theorem Console.Stays.store (h : k.Stays) (hlt : k.cursor < consoleEnd) (cell : UInt16) :
    (k.store cell).Stays := by
  refine ⟨hlt, fun other hother => ?_⟩
  rcases List.mem_cons.1 hother with rfl | hother
  · exact hlt
  · exact h.cells_lt other hother

theorem Console.Stays.fillRow (h : k.Stays) (hn : k.cursor + n ≤ consoleEnd) :
    (k.fillRow color n).Stays := by
  induction n generalizing k with
  | zero => exact h
  | succ n ih =>
    apply ih (h.store (by omega) _)
    show k.cursor + 1 + n ≤ consoleEnd
    omega

theorem Console.Stays.putc (h : k.Stays) (c : Char) : (consolePutc color k c).Stays := by
  unfold consolePutc
  dsimp only
  generalize hk' : (if k.cursor ≥ consoleEnd then { k with cursor := 0 } else k) = k'
  obtain ⟨hstays, hlt⟩ : k'.Stays ∧ k'.cursor < consoleEnd := by
    rw [← hk']
    split_ifs with hend
    · exact ⟨⟨Nat.zero_le _, h.cells_lt⟩, (by decide : 0 < consoleEnd)⟩
    · exact ⟨h, Nat.lt_of_not_ge hend⟩
  split
  · -- the rest of the row: the console ends with a row
    apply hstays.fillRow
    unfold consoleEnd at *
    omega
  · exact hstays.store hlt _

theorem Console.Stays.puts (h : k.Stays) (chars : List Char) :
    (chars.foldl (consolePutc color) k).Stays := by
  induction chars generalizing k with
  | nil => exact h
  | cons c chars ih => exact ih (h.putc c)

theorem turn_stays (text : UInt32 → List Char) (c : Char) (format : List Char)
    (hs : s.console.Stays) : ∃ s', turn text s c format = some s' ∧ s'.console.Stays := by
  unfold turn
  split
  · exact ⟨_, rfl, hs.putc c⟩
  · dsimp only
    split
    · exact ⟨_, rfl, hs⟩
    · obtain ⟨v, hv⟩ := convert_isSome text (directive format s.val)
      rw [hv]
      exact ⟨_, rfl, hs.puts _⟩

theorem vprintfLoop_stays (text : UInt32 → List Char) (hs : s.console.Stays) :
    ∃ k, vprintfLoop text s = some k ∧ k.Stays := by
  fun_induction vprintfLoop text s with
  | case1 s => exact ⟨s.console, rfl, hs⟩
  | case2 s c format _ h =>
    obtain ⟨s', hturn, -⟩ := turn_stays text c format hs
    rw [hturn] at h
    cases h
  | case3 s c format _ s' h ih =>
    obtain ⟨s'', hturn, hstays⟩ := turn_stays text c format hs
    obtain rfl := Option.some.inj (h.symm.trans hturn)
    exact ih hstays

/-- **Output stays on the console.** From every cursor between CONSOLE_BEGIN and CONSOLE_END, for
every format and arguments, the digit buffer is not overrun, every cell written is on the console,
and the cursor returned is between CONSOLE_BEGIN and CONSOLE_END again. -/
theorem consoleVprintf_stays {cursor : Nat} (hcursor : cursor ≤ consoleEnd)
    (text : UInt32 → List Char) (color : UInt32) (format : List Char) (val : VaList) :
    ∃ k, consoleVprintf text cursor color format val = some k ∧
      (∀ cell ∈ k.cells, cell.1 < consoleEnd) ∧ k.cursor ≤ consoleEnd := by
  obtain ⟨k, hrun, hstays⟩ := vprintfLoop_stays text (s := ⟨⟨cursor, []⟩, color, format, val⟩)
    ⟨hcursor, fun _ h => absurd h List.not_mem_nil⟩
  exact ⟨k, hrun, hstays.cells_lt, hstays.cursor_le⟩

/-- From right behind the last cell. -/
theorem consoleVprintf_stays_end :
    ∃ k, consoleVprintf (fun _ => []) 2000 0x0700 "%5d\n".toList (fun _ => 7) = some k ∧
      (∀ cell ∈ k.cells, cell.1 < consoleEnd) ∧ k.cursor ≤ consoleEnd :=
  consoleVprintf_stays (by decide) _ _ _ _

end OsLabs.Weensy.Printf
