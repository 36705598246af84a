import OsLabs.Shell.Command
import OsLabs.Shell.Validate
import Mathlib.Logic.Function.Basic

/-!
# Shell scripts: `makeSeparation` and `make_commands`

`makeSeparation` reads a script into texts of one complete command each: it drops comments and
the blanks in front of a line, ends a text at a blank line and joins a text that ends in an
operator with the next one. Its nested loops are steps on one character here, with the loop it
is in as a variable. The arrays of `MAXLINE` texts are taken as large enough, and the write to
`atLine[-1]` for a script without a text is left out.
-/

namespace OsLabs.Shell

/-- `ch` is a signed `char`, so the byte 255 is the end of the file. -/
def eof : Char := Char.ofNat 255

/-- What the local variables hold that are read before they are written. -/
structure Locals where
  preCh : Char
  atLine : Nat → Int

/-- The loop that reads the next character; `behind` is where the loop over a subshell has
ended, `stopped` where the loop over the file has. -/
inductive Reading where
  | top
  | comment
  | paren
  | parenComment
  | behind
  | stopped
  deriving DecidableEq, Repr

/-- The local variables of `makeSeparation`; `preCh` is `none` before its first write. -/
structure Separator where
  word : List Text := []
  atLine : Nat → Int
  str : Text := []
  preCh : Option Char := none
  countParath : Int := 0
  countLine : Int := 1
  newLineFlag : Bool := true
  newWordFlag : Bool := false
  headFlag : Bool := true
  badLine : Int := 0
  reading : Reading := .top

/-- `struct Separation`. -/
structure Separation where
  mCmd : Text
  mLine : Int
  deriving DecidableEq, Repr

namespace Separator

variable (s : Separator)

/-- The body of the loop over a subshell on a character that begins no comment. -/
def inside (ch : Char) : Separator :=
  let countParath := s.countParath + if ch = '(' then 1 else if ch = ')' then -1 else 0
  { s with
    str := s.str ++ [ch]
    countParath
    countLine := s.countLine + if ch = '\n' then 1 else 0
    reading := if countParath = 0 then .behind else .paren }

/-- The file ends behind or in a subshell. -/
def breakOff : Separator :=
  { s with
    word := s.word ++ [s.str]
    atLine := Function.update s.atLine s.word.length s.badLine
    str := []
    reading := .stopped }

/-- The rest of the loop over the file on a character other than a newline. -/
def other (ch : Char) : Separator :=
  { s with
    str := s.str ++ [ch]
    newLineFlag := false
    atLine := if s.headFlag then Function.update s.atLine 0 s.countLine else s.atLine
    headFlag := false
    preCh := some ch
    reading := .top }

/-- The rest of the loop over the file on a newline. -/
def newline (g : Char) : Separator :=
  let t := { s with
    newLineFlag := true
    countLine := s.countLine + 1
    preCh := some '\n'
    reading := .top }
  if s.preCh.getD g = '\n' ∧ 0 < s.str.length then
    { t with word := s.word ++ [s.str], str := [], newWordFlag := true }
  else if 0 < s.str.length then
    let atLine :=
      if s.newWordFlag then Function.update s.atLine s.word.length s.countLine else s.atLine
    { t with
      str := s.str ++ ['\n']
      atLine := if s.headFlag then Function.update atLine 0 t.countLine else atLine
      newWordFlag := false
      headFlag := false }
  else t

def tail (g ch : Char) : Separator := if ch = '\n' then s.newline g else s.other ch

/-- One character. -/
def step (g : Char) (ch : Char) : Separator :=
  match s.reading with
  | .stopped => s
  | .top =>
    if ch = eof then { s with reading := .stopped }
    else if isBlank ch && s.newLineFlag then s
    else if ch = '#' then { s with reading := .comment }
    else if ch = '(' then { s with badLine := s.countLine }.inside ch
    else s.tail g ch
  | .comment =>
    if ch = '\n' ∨ ch = eof then { s with countLine := s.countLine + 1, reading := .top } else s
  | .paren =>
    if ch = eof then s.breakOff
    else if ch = '#' then { s with reading := .parenComment }
    else s.inside ch
  | .parenComment =>
    if ch = '\n' ∨ ch = eof then { s with countLine := s.countLine + 1, reading := .paren } else s
  | .behind => if ch = eof then s.breakOff else s.tail g ch

def read (g : Char) (text : Text) : Separator := text.foldl (fun s ch => s.step g ch) s

/-- What follows the loop over the file; a comment at the end of the file takes the first
`eof` that `getc` returns. -/
def finish (g : Char) : Separator :=
  let s := s.read g [eof, eof]
  let s := if s.str ≠ [] then { s with word := s.word ++ [s.str], newWordFlag := true } else s
  if s.word ≠ [] ∧ s.atLine (s.word.length - 1) = 0 then
    { s with atLine := Function.update s.atLine (s.word.length - 1) s.countLine }
  else s

end Separator

/-- A text less the newline at its end. -/
def chomp (word : Text) : Text := if word.getLast? = some '\n' then word.dropLast else word

/-- `merge[i]` is positive: the text ends in an operator. -/
def tailingOperator (word : Text) : Bool :=
  match word.reverse with
  | [] => false
  | c :: rest =>
    c == '|' || c == ';' || c == '<' || c == '>' || (c == '&' && rest.head? == some '&')

/-- The texts from the first one behind the last merged one, with its line, joined with the
text that follows. Where none follows the source copies the first half of them only. -/
def mergeLoop : Option (List Text × Int) → List (Text × Int) → List Separation
  | none, [] => []
  | some (texts, line), [] => [⟨(texts.take ((texts.length + 1) / 2)).flatten, line⟩]
  | none, (w, line) :: words =>
    if tailingOperator w then mergeLoop (some ([w], line)) words
    else ⟨w, line⟩ :: mergeLoop none words
  | some (texts, line), (w, _) :: words =>
    if tailingOperator w then mergeLoop (some (texts ++ [w], line)) words
    else ⟨(texts ++ [w]).flatten, line⟩ :: mergeLoop none words

namespace Separator

/-- The texts with their lines. -/
def lines (s : Separator) : List (Text × Int) :=
  s.word.zipIdx.map fun w => (chomp w.1, s.atLine w.2)

end Separator

/-- `makeSeparation`, less the record with line -1 at the end. -/
def makeSeparation (g : Locals) (script : Text) : List Separation :=
  mergeLoop none ((Separator.read { atLine := g.atLine } g.preCh script).finish g.preCh).lines

/-- `validate_all`. -/
def validateAll : List Separation → Except Int Int
  | [] => .ok 1
  | c :: rest =>
    if c.mLine = -1 then .ok 1
    else do
      let res ← validate (tokenize c.mCmd c.mLine)
      let others ← validateAll rest
      pure (if res = 0 then 0 else others)

/-- The loop of `make_commands`. -/
def makeAll : List Separation → Option (List Command)
  | [] => some []
  | c :: rest =>
    if c.mLine = -1 then some []
    else do
      let cmd ← makeCommand (tokenize c.mCmd c.mLine)
      let cmds ← makeAll rest
      pure (cmd.setLine c.mLine :: cmds)

/-- `make_commands`: the line of a syntax error, or the commands. -/
def makeCommands (g : Locals) (script : Text) : Except Int (Option (List Command)) := do
  let separations := makeSeparation g script
  let res ← validateAll separations
  pure (if res = 0 then some [] else makeAll separations)

end OsLabs.Shell
