import RCore.User.Program

/-!
# The user shell

`user/src/bin/user_shell.rs`, with the input typed so far as a list of bytes. The shell makes a mark in
each child just before it calls `exec`, and one of its own when it has closed the pipes of a command line.
-/

namespace RCore.User

open RCore Fs

namespace Shell

def LF : UInt8 := 0x0a
def CR : UInt8 := 0x0d
def DL : UInt8 := 0x7f
def BS : UInt8 := 0x08

/-- `'\0'` -/
def nul : Char := Char.ofNat 0

/-- `ProcessArguments`, with strings as lists of characters. -/
structure ProcessArguments where
  input : List Char
  output : List Char
  argsCopy : List (List Char)
  deriving DecidableEq

/-- Take out the word `mark` and the word after it, which is returned. There is no word after it if the
result is `none`. -/
def redirection (mark : List Char) (argsCopy : List (List Char)) : Option (List Char × List (List Char)) :=
  match argsCopy.findIdx? (· == mark) with
  | none => some ([], argsCopy)
  | some idx =>
    match argsCopy[idx + 1]? with
    | none => none
    | some file => some (file, argsCopy.take idx ++ argsCopy.drop (idx + 2))

/-- `ProcessArguments::new`, `none` if it panics. -/
def ProcessArguments.new (command : List Char) : Option ProcessArguments :=
  let args := command.splitOn ' '
  let argsCopy := (args.filter (! ·.isEmpty)).map (· ++ [nul])
  match redirection ['<', nul] argsCopy with
  | none => none
  | some (input, argsCopy) =>
    match redirection ['>', nul] argsCopy with
    | none => none
    | some (output, argsCopy) => some ⟨input, output, argsCopy⟩

/-- The check of a command line. -/
def valid (list : List ProcessArguments) : Bool :=
  list.length == 1 || list.zipIdx.all fun (processArgs, i) =>
    if i = 0 then processArgs.output.isEmpty
    else if i = list.length - 1 then processArgs.input.isEmpty
    else processArgs.output.isEmpty && processArgs.input.isEmpty

/-- What is noted. -/
inductive Mark where
  /-- Child `i` of `n` is about to call `exec`. -/
  | exec (i n : Nat) (pipes : List Nat) (input output : List Char)
  /-- The shell has closed the pipes. -/
  | closed (pipes : List Nat)
  deriving DecidableEq

/-- The file that the kernel opens for a string: `translated_str` stops at the zero. -/
def path (string : List Char) : List Char := string.takeWhile (· != nul)

/-- Put the file at `string`, if there is one, at `fd`. -/
def redirect (fd : Nat) (string : List Char) (readable writable : Bool) (k : Program Mark) : Program Mark :=
  if string.isEmpty then k
  else .open (path string) readable writable fun fileFd =>
    if fileFd = -1 then .exit (-4)
    else .close fd <| .dup fileFd.toNat fun newFd =>
      if newFd = fd then .close fileFd.toNat k else .assertFailed

/-- `OpenFlags::RDONLY` -/
def redirectInput (input : List Char) (k : Program Mark) : Program Mark := redirect 0 input true false k

/-- `OpenFlags::CREATE | OpenFlags::WRONLY` -/
def redirectOutput (output : List Char) (k : Program Mark) : Program Mark := redirect 1 output false true k

/-- Put the end of a pipe at `fd`. -/
def connect (fd : Nat) (pipeEnd : Option Nat) (k : Program Mark) : Program Mark :=
  .close fd <| match pipeEnd with
    | none => .panicked
    | some pipeFd => .dup pipeFd fun newFd => if newFd = fd then k else .assertFailed

/-- Receive input from the previous process. -/
def receive (i : Nat) (pipesFd : List (Nat × Nat)) (k : Program Mark) : Program Mark :=
  if i > 0 then connect 0 (pipesFd[i - 1]?.map Prod.fst) k else k

/-- Send output to the next process. -/
def send (i n : Nat) (pipesFd : List (Nat × Nat)) (k : Program Mark) : Program Mark :=
  if i < n - 1 then connect 1 (pipesFd[i]?.map Prod.snd) k else k

/-- Close all pipe ends. -/
def closePipes : List (Nat × Nat) → Program Mark → Program Mark
  | [], k => k
  | pipeFd :: pipesFd, k => .close pipeFd.1 <| .close pipeFd.2 <| closePipes pipesFd k

/-- What child `i` of `n` does. -/
def child (i n : Nat) (pipesFd : List (Nat × Nat)) (pipes : List Nat) (arg : ProcessArguments) : Program Mark :=
  redirectInput arg.input <|
  redirectOutput arg.output <|
  receive i pipesFd <|
  send i n pipesFd <|
  closePipes pipesFd <|
  -- `args_copy[0]`
  if arg.argsCopy.isEmpty then .panicked
  else .mark (.exec i n pipes arg.input arg.output) <| .exec arg.argsCopy <| .exit (-4)

/-- Create the pipes. -/
def createPipes : Nat → List (Nat × Nat) → List Nat → (List (Nat × Nat) → List Nat → Program Mark) → Program Mark
  | 0, pipesFd, pipes, k => k pipesFd pipes
  | n + 1, pipesFd, pipes, k =>
    .pipe fun pipe pipeFd => createPipes n (pipesFd ++ [pipeFd]) (pipes ++ [pipe]) k

/-- Fork the children, from `i` on. -/
def forkAll (n : Nat) (pipesFd : List (Nat × Nat)) (pipes : List Nat) :
    List ProcessArguments → Nat → List Nat → (List Nat → Program Mark) → Program Mark
  | [], _, children, k => k children
  | arg :: args, i, children, k => .fork fun pid =>
    if pid = 0 then child i n pipesFd pipes arg
    else forkAll n pipesFd pipes args (i + 1) (children ++ [pid]) k

/-- Wait for the children. -/
def waitAll : List Nat → Program Mark → Program Mark
  | [], k => k
  | pid :: children, k => .waitpid pid <| waitAll children k

/-- A valid command line. -/
def execute (list : List ProcessArguments) (k : Program Mark) : Program Mark :=
  createPipes (list.length - 1) [] [] fun pipesFd pipes =>
    forkAll list.length pipesFd pipes list 0 [] fun children =>
      closePipes pipesFd <| .mark (.closed pipes) <| waitAll children k

/-- A command line. -/
def runLine (line : List Char) (k : Program Mark) : Program Mark :=
  match (line.splitOn '|').mapM ProcessArguments.new with
  | none => .panicked
  | some list => if valid list then execute list k else k

/-- `main`: `line` is what has been typed of the current line. -/
def main : List UInt8 → List Char → Program Mark
  | [], _ => .waiting
  | c :: typed, line =>
    if c = LF ∨ c = CR then
      if line.isEmpty then main typed [] else runLine line (main typed [])
    else if c = BS ∨ c = DL then main typed line.dropLast
    else main typed (line ++ [Char.ofUInt8 c])

end Shell

end RCore.User
