import OsLabs.Lib.Scan
import Mathlib.Tactic.Ring

/-!
# Peer messages: writing and scanning

`osp2pWritef` and `osp2pVsnscanf` with the helpers they call. A byte string is
the list of its bytes less the NUL; a format is the list of its characters, all
ASCII. `ctype.h` is that of the C locale. Allocations succeed and the buffers
that the caller of `osp2p_snscanf` passes are large enough. A result `none`
stands for undefined behaviour: an argument of another type than the format
asks for, or a read behind the memory that holds the message.
-/

namespace OsLabs.Osp2p

open Scan

abbrev Bytes := List UInt8

/-! ## Character classes -/

def isdigit (c : UInt8) : Bool := byte '0' ≤ c && c ≤ byte '9'

def isupper (c : UInt8) : Bool := byte 'A' ≤ c && c ≤ byte 'Z'

def islower (c : UInt8) : Bool := byte 'a' ≤ c && c ≤ byte 'z'

def isalnum (c : UInt8) : Bool := isdigit c || isupper c || islower c

def isxdigit (c : UInt8) : Bool :=
  isdigit c || (byte 'a' ≤ c && c ≤ byte 'f') || (byte 'A' ≤ c && c ≤ byte 'F')

/-- Blank, tab, newline, vertical tab, form feed, carriage return. -/
def isspace (c : UInt8) : Bool := c == byte ' ' || (9 ≤ c && c ≤ 13)

def tolower (c : UInt8) : UInt8 := if isupper c then c + 32 else c

/-! ## Quoting -/

/-- The `xvalue` table of `http_quote`. -/
def xdigits : List Char :=
  ['0', '1', '2', '3', '4', '5', '6', '7', '8', '9', 'A', 'B', 'C', 'D', 'E', 'F']

def xdigit (n : Nat) : UInt8 := byte (xdigits.getD n '0')

/-- The bytes that `http_quote` copies. -/
def isPlain (c : UInt8) : Bool :=
  isalnum c || c == byte '$' || c == byte '-' || c == byte '_' || c == byte '.' || c == byte '+' ||
    c == byte '!' || c == byte '*' || c == 39 || c == byte '(' || c == byte ')' || c == byte ','

def httpQuote : Bytes → Bytes
  | [] => []
  | c :: s =>
    if isPlain c then c :: httpQuote s
    else byte '%' :: xdigit (c.toNat / 16) :: xdigit (c.toNat % 16) :: httpQuote s

def xvalue (c : UInt8) : UInt8 :=
  if isdigit c then c - byte '0' else tolower c - byte 'a' + 10

/-! ## Writing -/

/-- `struct in_addr`: the bytes of `s_addr` in the order they have in memory. -/
structure InAddr where
  b0 : UInt8
  b1 : UInt8
  b2 : UInt8
  b3 : UInt8
  deriving DecidableEq, Repr

/-- A variadic argument of the two functions, or what the second one stores. -/
inductive Arg where
  | str (s : Bytes)
  | int (i : Int)
  | addr (a : InAddr)
  deriving DecidableEq, Repr

def inetNtoa (a : InAddr) : Bytes :=
  decimal a.b0.toNat ++ byte '.' :: (decimal a.b1.toNat ++ byte '.' :: (decimal a.b2.toNat ++
    byte '.' :: decimal a.b3.toNat))

/-- `sprintf("%d", i)`. -/
def sprintfInt (i : Int) : Bytes :=
  if i < 0 then byte '-' :: decimal i.natAbs else decimal i.natAbs

/-- The first loop of `osp2p_writef`, which develops the message. -/
def develop : List Char → List Arg → Option Bytes
  | [], _ => some []
  | '%' :: 's' :: format, args =>
    match args with
    | .str s :: args => (develop format args).map (httpQuote s ++ ·)
    | _ => none
  | '%' :: 'd' :: format, args =>
    match args with
    | .int i :: args => (develop format args).map (sprintfInt i ++ ·)
    | _ => none
  | '%' :: 'I' :: format, args =>
    match args with
    | .addr a :: args => (develop format args).map (inetNtoa a ++ ·)
    | _ => none
  | '%' :: '%' :: format, args => (develop format args).map (byte '%' :: ·)
  | c :: format, args => (develop format args).map (byte c :: ·)

/-- What a call of `write` does: be interrupted or asked to try again, fail, or take bytes. -/
inductive Written where
  | again
  | failed
  | amount (n : Nat)
  deriving DecidableEq, Repr

/-- The second loop of `osp2p_writef` on the bytes not yet written: the value
returned and the bytes sent, `none` while more calls of `write` are to come. -/
def send : Bytes → List Written → Option (Int × Bytes)
  | [], _ => some (0, [])
  | _ :: _, [] => none
  | buf, .again :: calls => send buf calls
  | _, .failed :: _ => some (-1, [])
  | buf, .amount n :: calls =>
    if n = 0 then some (-1, [])
    else (send (buf.drop n) calls).map fun r => (r.1, buf.take n ++ r.2)

def osp2pWritef (format : List Char) (args : List Arg) (calls : List Written) :
    Option (Int × Bytes) := do
  send (← develop format args) calls

/-! ## Scanning -/

/-- The test for a quoted byte on `s[0]` and what follows it. -/
def isQuoted (c : UInt8) : Bytes → Option Bool
  | [] => if c = byte '%' then none else some false
  | [c1] => if c = byte '%' ∧ isxdigit c1 then none else some false
  | c1 :: c2 :: _ => some (c = byte '%' ∧ isxdigit c1 ∧ isxdigit c2)

/-- The loop of `%s`; the bytes of `after` stand behind `end_s`. -/
def scanString (after : Bytes) : Bytes → Option (Bytes × Bytes)
  | [] => some ([], [])
  | c :: s =>
    if isspace c then some ([], c :: s)
    else
      match isQuoted c (s ++ after) with
      | none => none
      | some false => (scanString after s).map fun r => (c :: r.1, r.2)
      | some true =>
        match s with
        | c1 :: c2 :: s => (scanString after s).map fun r => ((xvalue c1 * 16 + xvalue c2) :: r.1, r.2)
        -- s passes end_s
        | _ => none

/-- The inner loop of `%I` on `x`. -/
def octetStep (x : Int) (c : UInt8) : Option Int :=
  if isdigit c ∧ x ≤ 255 then some ((if x < 0 then 0 else 10 * x) + (c.toNat - 48)) else none

/-- The loop of `%I`, with `i + 1` rounds to go. -/
def scanAddr : (i value : Nat) → Bytes → Option (Nat × Bytes)
  | i, value, s =>
    let (x, s) := scanWhile octetStep (-1) s
    if x < 0 ∨ x > 255 then none
    else
      match i with
      | 0 => some (value * 256 + x.toNat, s)
      | i + 1 =>
        match s with
        | c :: s => if c = byte '.' then scanAddr i (value * 256 + x.toNat) s else none
        | [] => none

/-- The address whose `s_addr` is the value in network order. -/
def htonl (value : Nat) : InAddr :=
  ⟨.ofNat (value / 2 ^ 24), .ofNat (value / 2 ^ 16), .ofNat (value / 2 ^ 8), .ofNat value⟩

def intMax : Nat := 2147483647

def intStep (value : Nat) (c : UInt8) : Option Nat :=
  if isdigit c ∧ value < (intMax - (c.toNat - 48)) / 10 then some (10 * value + (c.toNat - 48))
  else none

/-- The branch of `%d`. -/
def scanInt (s : Bytes) : Option (Nat × Bytes) :=
  if s.head?.any isdigit then
    let (value, s) := scanWhile intStep 0 s
    if s.head?.any isdigit then none else some (value, s)
  else none

/-- The loop of `osp2p_vsnscanf`: the value returned and what it stores. The flag
says that it is inside a run of white space of the format. -/
def scanLoop (after : Bytes) (len : Nat) : Bool → List Char → Bytes → Option (Int × List Arg)
  | _, [], _ => some (0, [])
  | _, '%' :: 's' :: format, s => do
    let (str, s) ← scanString after s
    let r ← scanLoop after len false format s
    some (r.1, .str str :: r.2)
  | _, '%' :: 'I' :: format, s =>
    match scanAddr 3 0 s with
    | none => some (-1, [])
    | some (value, s) => do
      let r ← scanLoop after len false format s
      some (r.1, .addr (htonl value) :: r.2)
  | _, '%' :: 'd' :: format, s =>
    match scanInt s with
    | none => some (-1, [])
    | some (value, s) => do
      let r ← scanLoop after len false format s
      some (r.1, .int value :: r.2)
  | _, '%' :: 'n' :: format, s => do
    let r ← scanLoop after len false format s
    some (r.1, .int (len - s.length : Nat) :: r.2)
  | _, '%' :: '%' :: format, s =>
    match s with
    | c :: s => if c = byte '%' then scanLoop after len false format s else some (-1, [])
    | [] => some (-1, [])
  | inSpace, c :: format, s =>
    if isspace (byte c) then
      if inSpace then scanLoop after len true format s
      else if s.head?.any isspace then scanLoop after len true format (s.dropWhile isspace)
      else some (-1, [])
    else
      match s with
      | b :: s => if b = byte c then scanLoop after len false format s else some (-1, [])
      | [] => some (-1, [])

def osp2pVsnscanf (s after : Bytes) (format : List Char) : Option (Int × List Arg) :=
  scanLoop after s.length false format s

/-- `osp2p_snscanf` on `s`, which other bytes follow in memory. -/
def osp2pSnscanf (s after : Bytes) (format : List Char) : Option (Int × List Arg) :=
  osp2pVsnscanf s after format

/-- `osp2p_sscanf` on the C string `s`. -/
def osp2pSscanf (s : Bytes) (format : List Char) : Option (Int × List Arg) :=
  osp2pVsnscanf s [0] format

end OsLabs.Osp2p
