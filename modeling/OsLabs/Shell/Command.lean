import OsLabs.Shell.Token
import Mathlib.Data.List.DropRight

/-!
# Shell scripts: commands

`Command` is `struct command` with its tagged union; the operator and command
stacks of `make_command` are lists, the top first. Functions that the program
leaves through `error` (a pop or peek of an empty stack) or that would read an
unwritten record return `none`.
-/

namespace OsLabs.Shell

/-- The members of `enum command_type` that hold two commands. -/
inductive CommandType where
  | andCommand
  | sequenceCommand
  | orCommand
  | pipeCommand
  deriving DecidableEq, Repr

/-- The redirections of a command. -/
structure Redirect where
  input : Option Text := none
  output : Option Text := none
  deriving DecidableEq, Repr

inductive Command where
  | simple (line status : Int) (io : Redirect) (word : List Text)
  | subshell (line status : Int) (io : Redirect) (subshellCommand : Command)
  | compound (type : CommandType) (line status : Int) (io : Redirect) (command0 command1 : Command)
  deriving DecidableEq, Repr

namespace Command

def setLine (line : Int) : Command → Command
  | simple _ status io word => simple line status io word
  | subshell _ status io c => subshell line status io c
  | compound type _ status io c0 c1 => compound type line status io c0 c1

def mapIo (f : Redirect → Redirect) : Command → Command
  | simple line status io word => simple line status (f io) word
  | subshell line status io c => subshell line status (f io) c
  | compound type line status io c0 c1 => compound type line status (f io) c0 c1

end Command

def makeCompoundCommand (cmd1 cmd2 : Command) (oper : Text) (line : Int) : Command :=
  let type :=
    if oper = [';'] then .sequenceCommand
    else if oper = ['|', '|'] then .orCommand
    else if oper = ['&', '&'] then .andCommand
    else .pipeCommand
  .compound type line (-1) {} cmd1 cmd2

def makeSubshellCommand (cmd : Command) (line : Int) : Command := .subshell line (-1) {} cmd

/-- `eat_tail_white_space`. On a word of blanks only the source reads in front
of the word; here the result is empty. -/
def eatTailWhiteSpace (word : Text) : Text := word.rdropWhile isBlank

/-- The sign of `oper_cmp`, with its tests as they stand: the second test of the
`&&`/`||` row is `strcmp(oper, "||") != 0`. -/
def operCmp (token oper : Text) : Int :=
  if token = [';'] then
    if oper = [';'] then 0 else -1
  else if token = ['&', '&'] ∨ token = ['|', '|'] then
    if oper = [';'] then 1
    else if oper = ['&', '&'] ∨ oper ≠ ['|', '|'] then 0
    else -1
  else
    if oper = [';'] ∨ oper = ['&', '&'] ∨ oper = ['|', '|'] then 1 else 0

/-- The scanning loops of `make_simple_command`: the word being collected, or
`none` between two words. -/
def splitWords : Option Text → Text → List Text
  | none, [] => []
  | some word, [] => [word]
  | none, c :: token => if isBlank c then splitWords none token else splitWords (some [c]) token
  | some word, c :: token =>
    if isBlank c then word :: splitWords none token else splitWords (some (word ++ [c])) token

def makeSimpleCommand (token : Text) (line : Int) : Command :=
  .simple line (-1) {} (if token = [] then [] else splitWords (some []) token)

/-- The test at the top of the loop of `make_command`. -/
def isOperator (token : Text) : Bool :=
  token == ['&', '&'] || token == ['|', '|'] || token == ['|'] || token == [';'] ||
    token == ['<'] || token == ['>'] || token == ['('] || token == [')']

/-- Pop an operator's two operands and push the compound command. -/
def combine (line : Int) (oper : Text) : List Command → Option (List Command)
  | cmd2 :: cmd1 :: cmds => some (makeCompoundCommand cmd1 cmd2 oper line :: cmds)
  | _ => none

/-- The inner loop of `make_command`, on the operator and the command stack. -/
def popOperators (line : Int) (token : Text) :
    List Text → List Command → Option (List Text × List Command)
  | [], cmds => some ([], cmds)
  | oper :: opers, cmds =>
    if token ≠ ['('] ∧ operCmp token oper ≤ 0 then do
      popOperators line token opers (← combine line oper cmds)
    else some (oper :: opers, cmds)

/-- The last loop of `make_command`. -/
def popAll (line : Int) : List Text → List Command → Option (List Command)
  | [], cmds => some cmds
  | oper :: opers, cmds => do popAll line opers (← combine line oper cmds)

/-- What `make_command` does at the end of the array. -/
def finish (line : Int) (opers : List Text) (cmds : List Command) : Option Command :=
  match opers with
  | [] => cmds.head?.map (·.setLine line)
  | _ :: _ => do (← popAll line opers cmds).head?

/-- The loop of `make_command`: `prev` is `token_array[i - 1]->word` when `0 < i`,
`sub` parses the token array of a subshell. -/
def makeCommandLoop (sub : List Token → Option Command) (line : Int) :
    Option Text → List Token → List Text → List Command → Option Command
  | _, [], opers, cmds => finish line opers cmds
  | prev, t :: rest, opers, cmds =>
    if t.lineNum = -1 then finish line opers cmds
    else
      let token := eatTailWhiteSpace t.word
      if token = ['<'] then
        match rest, cmds with
        | w :: rest, c :: cmds =>
          makeCommandLoop sub line (some w.word) rest opers
            (c.mapIo (fun io => { io with input := some (eatTailWhiteSpace w.word) }) :: cmds)
        | _, _ => none
      else if token = ['>'] then
        match rest, cmds with
        | w :: rest, c :: cmds =>
          makeCommandLoop sub line (some w.word) rest opers
            (c.mapIo (fun io => { io with output := some (eatTailWhiteSpace w.word) }) :: cmds)
        | _, _ => none
      else if token = [')'] then
        -- a top other than "(" makes the source pop until the stack is empty, which exits
        match opers, cmds with
        | oper :: opers, c :: cmds =>
          if oper = ['('] then
            makeCommandLoop sub line (some t.word) rest opers (makeSubshellCommand c line :: cmds)
          else none
        | _, _ => none
      else if isOperator token then do
        let r ← popOperators line token opers cmds
        makeCommandLoop sub line (some t.word) rest (token :: r.1) r.2
      else if prev = some ['('] then do
        let c ← sub (tokenize token t.lineNum)
        makeCommandLoop sub line (some t.word) rest opers (c.setLine line :: cmds)
      else
        makeCommandLoop sub line (some t.word) rest opers (makeSimpleCommand token line :: cmds)

/-- `make_command`; the first argument bounds the depth of subshells. -/
def makeCommandAux : Nat → List Token → Option Command
  | 0, _ => none
  | n + 1, tokenArray =>
    makeCommandLoop (makeCommandAux n) ((tokenArray.map Token.lineNum).headD (-1)) none tokenArray
      [] []

/-- `make_command`: the words of a subshell's array are shorter in total than
those of the array it stands in (`makeCommandAux_eq`). -/
def makeCommand (tokenArray : List Token) : Option Command :=
  makeCommandAux (arraySize tokenArray + 1) tokenArray

end OsLabs.Shell
