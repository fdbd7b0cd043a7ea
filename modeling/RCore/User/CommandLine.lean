import RCore.User.Shell

/-!
# The strings of a command line

`ProcessArguments::new` (`user/src/bin/user_shell.rs`) with the places of its strings: `exec` gets `args_addr`, the
addresses of the words. Where the heap puts the string for the word `i` of a command is a parameter, `addr i`.
-/

namespace RCore.User.Shell

open RCore

/-- A `String`: the address of its characters, and the characters. -/
structure HeapString where
  ptr : Nat
  chars : List Char
  deriving DecidableEq

/-- `ProcessArguments`, with all fields. -/
structure PlacedArguments where
  input : List Char
  output : List Char
  argsCopy : List HeapString
  argsAddr : List Nat
  deriving DecidableEq

/-- What the shell goes on with. -/
def PlacedArguments.forget (args : PlacedArguments) : ProcessArguments :=
  ⟨args.input, args.output, args.argsCopy.map HeapString.chars⟩

/-- `redirection`, of strings with their places. -/
def redirectionAt (mark : List Char) (argsCopy : List HeapString) : Option (List Char × List HeapString) :=
  match argsCopy.findIdx? (·.chars == mark) with
  | none => some ([], argsCopy)
  | some idx =>
    match argsCopy[idx + 1]? with
    | none => none
    | some file => some (file.chars, argsCopy.take idx ++ argsCopy.drop (idx + 2))

/-- `ProcessArguments::new`, `none` if it panics. -/
def PlacedArguments.new (addr : Nat → Nat) (command : List Char) : Option PlacedArguments :=
  let args := command.splitOn ' '
  let argsCopy := (args.filter (! ·.isEmpty)).mapIdx fun i arg => ⟨addr i, arg ++ [nul]⟩
  match redirectionAt ['<', nul] argsCopy with
  | none => none
  | some (input, argsCopy) =>
    match redirectionAt ['>', nul] argsCopy with
    | none => none
    | some (output, argsCopy) =>
      -- the last is the null pointer
      let argsAddr := argsCopy.map HeapString.ptr ++ [0]
      some ⟨input, output, argsCopy, argsAddr⟩

end RCore.User.Shell
