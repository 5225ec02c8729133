import Mathlib.Algebra.Group.Nat.Defs
import Mathlib.Data.Int.Notation
import OsProjects.Lib.Words

/-! # Command lines

How `Commands.cpp` makes a command of a line: `_parseCommandLine`, `_removeBackgroundSign`,
`_isSpecialCommand`, the constructors and `CreateCommand`.  A store or an access out of the bounds
of an array is `none`; a command keeps its `args` as far as its constructor gets. -/

namespace OsProjects.Smash.CommandLine

/-- A NUL-terminated string. -/
abbrev Text := List Char

/-- The string in an array: what stands in front of the first NUL. -/
def cString (array : List Char) : Text := array.takeWhile fun c => c != '\x00'

/-- Space, newline, carriage return, tab, form feed and vertical tab, for which `isspace` holds
too. -/
def WHITESPACE : Text := [' ', '\n', '\r', '\t', '\x0c', '\x0b']

def isSpace (c : Char) : Bool := c ∈ WHITESPACE

def COMMAND_MAX_LENGTH : ℕ := 80

def COMMAND_MAX_ARGS : ℕ := 20

def ltrim (s : Text) : Text := s.dropWhile isSpace

/-- `_rtrim`; its length is the index behind `find_last_not_of`. -/
def rtrim (s : Text) : Text := s.rdropWhile isSpace

def trim (s : Text) : Text := rtrim (ltrim s)

/-! ### Arguments -/

/-- The stores of the loop from index `i` on: a word, and the `NULL` behind it. -/
def stores : ℕ → List Text → List (ℕ × Option Text)
  | _, [] => []
  | i, s :: words => (i, some s) :: (i + 1, none) :: stores (i + 1) words

/-- The number of words that `iss >> s` gives, and what is stored in `args` in which order. -/
def parseCommandLine (cmdLine : Text) : ℕ × List (ℕ × Option Text) :=
  ((words isSpace (trim cmdLine)).length, stores 0 (words isSpace (trim cmdLine)))

def isBackgroundCommand (cmdLine : Text) : Bool := (rtrim cmdLine).getLast? == some '&'

/-- The `&` becomes a space, and the line ends behind it.  If all characters are spaces, `idx` is
`npos` cut to 32 bits, which is not `npos`, and the line is accessed there. -/
def removeBackgroundSign (cmdLine : Text) : Option Text :=
  match (rtrim cmdLine).getLast? with
  | none => none
  | some c => some (if c = '&' then (rtrim cmdLine).dropLast ++ [' '] else cmdLine)

/-- `args[i] = …` -/
def store (args : List (Option Text)) (p : ℕ × Option Text) : Option (List (Option Text)) :=
  if p.1 < args.length then some (args.set p.1 p.2) else none

/-- The body of the constructor `Command::Command`, and with it `args`. -/
def commandArgs (cmdLine : Text) : Option (List Text) := do
  let cmd ← removeBackgroundSign (cmdLine.take COMMAND_MAX_LENGTH)
  let (argsNum, writes) := parseCommandLine cmd
  let arguments ← writes.foldlM store (List.replicate COMMAND_MAX_ARGS none)
  (arguments.take argsNum).mapM id

/-! ### Commands -/

/-- Which separator a line has, and where. -/
inductive Special where
  | pipe (index : ℕ) (ampersand : Bool)
  | redirection (index : ℕ) (append : Bool)
deriving DecidableEq, Repr

def isSpecialCommand (cmdLine : Text) : Option Special :=
  match cmdLine.findIdx? (· == '|') with
  | some index => some (.pipe index (cmdLine[index + 1]? == some '&'))
  | none =>
    match cmdLine.findIdx? (· == '>') with
    | some index => some (.redirection index (cmdLine[index + 1]? == some '>'))
    | none => none

/-- The class of a command, with the members that `Command` does not have. -/
inductive Kind where
  | changePrompt
  | getCurrDir
  | showPid
  | changeDir
  | foreground
  | background
  | jobs
  | kill
  | quit
  | external (special : Bool)
  | pipe (sep : ℤ) (ampersand : Bool)
  | redirection (sep : ℤ) (append : Bool)
deriving DecidableEq, Repr

/-- `Command`.  There are no `args` if the constructor has left the bounds of an array. -/
structure Command where
  kind : Kind
  originalCmd : Text
  background : Bool
  args : Option (List Text)
deriving DecidableEq, Repr

def hasSpecialCharacters (cmdLine : Text) : Bool := cmdLine.contains '*' || cmdLine.contains '?'

/-- `background` after the constructor of the class. -/
def backgroundOf (cmdLine : Text) : Kind → Bool
  | .external _ => isBackgroundCommand cmdLine
  | .redirection .. => isBackgroundCommand cmdLine
  | _ => false

def Command.new (kind : Kind) (cmdLine : Text) : Command where
  kind := kind
  originalCmd := cmdLine
  background := backgroundOf cmdLine kind
  args := commandArgs cmdLine

/-- `(int)` of a `size_t` -/
def toInt (n : ℕ) : ℤ := (n : ℤ).bmod (2 ^ 32)

/-- `cmd_s.substr(0, cmd_s.find_first_of(" \n"))` -/
def firstWord (cmdS : Text) : Text := cmdS.takeWhile fun c => c != ' ' && c != '\n'

/-- The class that the first word stands for. -/
def kindOf (word cmdLine : Text) : Kind :=
  if word = "chprompt".toList then .changePrompt
  else if word = "pwd".toList then .getCurrDir
  else if word = "showpid".toList then .showPid
  else if word = "cd".toList then .changeDir
  else if word = "fg".toList then .foreground
  else if word = "bg".toList then .background
  else if word = "jobs".toList then .jobs
  else if word = "kill".toList then .kill
  else if word = "quit".toList then .quit
  else .external (hasSpecialCharacters cmdLine)

/-- `SmallShell::CreateCommand`, with `none` for `NULL`. -/
def createCommand (cmdLine : Text) : Option Command :=
  match isSpecialCommand cmdLine with
  | some (.pipe index ampersand) => some (.new (.pipe (toInt index) ampersand) cmdLine)
  | some (.redirection index append) => some (.new (.redirection (toInt index) append) cmdLine)
  | none =>
    let cmdS := trim cmdLine
    if cmdS.isEmpty then none
    else some (.new (kindOf (firstWord cmdS) cmdLine) cmdLine)

theorem findIdx?_beq_eq_none {s : Text} {c : Char} : s.findIdx? (· == c) = none ↔ c ∉ s := by
  rw [List.findIdx?_eq_none_iff]
  constructor
  · intro h hc
    exact absurd (h c hc) (by simp)
  · intro h x hx
    exact beq_eq_false_iff_ne.mpr fun he => h (he ▸ hx)

theorem isSpecialCommand_eq_none {line : Text} :
    isSpecialCommand line = none ↔ '|' ∉ line ∧ '>' ∉ line := by
  rw [← findIdx?_beq_eq_none, ← findIdx?_beq_eq_none, isSpecialCommand]
  cases line.findIdx? (· == '|') with
  | some index => simp
  | none =>
      cases line.findIdx? (· == '>') with
      | some index => simp
      | none => simp

end OsProjects.Smash.CommandLine
