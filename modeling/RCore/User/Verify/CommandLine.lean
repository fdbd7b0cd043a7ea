import RCore.Lib.Bytes
import RCore.User.CommandLine

/-!
# What the shell makes of a line

A redirection is cut out of the words with the word after its mark. `Taken` is that cut, and `Dangling` says that there is
no word to cut out, where `ProcessArguments::new` panics. The second redirection is looked for among the words that the
first one leaves.
-/

namespace RCore.User.Shell

open RCore

/-! ## Cutting out a pair -/

section Pairs

variable {α : Type} {mark : α → Prop} {words left left' : List α} {word word' : Option α}

/-- Without the first mark and the word after it, `words` are `left`; without a mark they stay as they are. -/
inductive Taken (mark : α → Prop) : List α → Option α → List α → Prop
  | absent : Taken mark [] none []
  | here {m file : α} {rest : List α} (hm : mark m) : Taken mark (m :: file :: rest) (some file) rest
  | later {a : α} {words left : List α} {word : Option α} (ha : ¬ mark a) (h : Taken mark words word left) :
    Taken mark (a :: words) word (a :: left)

theorem Taken.unique (h : Taken mark words word left) (h' : Taken mark words word' left') : word = word' ∧ left = left' := by
  induction h generalizing word' left' with
  | absent =>
    cases h'
    exact ⟨rfl, rfl⟩
  | here hm =>
    cases h' with
    | here => exact ⟨rfl, rfl⟩
    | later ha => exact absurd hm ha
  | later ha h ih =>
    cases h' with
    | here hm => exact absurd hm ha
    | later _ h' =>
      obtain ⟨rfl, rfl⟩ := ih h'
      exact ⟨rfl, rfl⟩

variable {β : Type} {f : β → α}

theorem Taken.map {words left : List β} {word : Option β} (h : Taken (mark ∘ f) words word left) :
    Taken mark (words.map f) (word.map f) (left.map f) := by
  induction h with
  | absent => exact .absent
  | here hm => exact .here hm
  | later ha _ ih => exact .later ha ih

end Pairs

/-! ## The two redirections -/

variable {mark : List Char} {argsCopy left : List HeapString} {word : Option HeapString} {addr : Nat → Nat}
  {part : List Char} {args : PlacedArguments}

/-- The characters of a string that there may be, as the shell keeps them. -/
def contents (word : Option HeapString) : List Char := word.elim [] HeapString.chars

/-- The string is `mark`. -/
def IsMark (mark : List Char) (string : HeapString) : Prop := string.chars = mark

theorem Taken.chars (h : Taken (IsMark mark) argsCopy word left) :
    Taken (· = mark) (argsCopy.map HeapString.chars) (word.map HeapString.chars) (left.map HeapString.chars) := by
  have hcomp : Taken ((· = mark) ∘ HeapString.chars) argsCopy word left := h
  exact hcomp.map

/-- The non-empty pieces between the spaces of a command, each with its NUL. -/
def words (part : List Char) : List (List Char) := ((part.splitOn ' ').filter (! ·.isEmpty)).map (· ++ [nul])

/-- The words of a command, where `addr` puts them. -/
def placed (addr : Nat → Nat) (part : List Char) : List HeapString := (words part).mapIdx fun i word => ⟨addr i, word⟩

example : PlacedArguments.new (fun i => 64 * (i + 1)) ['c', ' ', '<', ' ', 'x', ' ', '>', ' ', 'y', ' ', 'd'] =
    some ⟨['x', nul], ['y', nul], [⟨64, ['c', nul]⟩, ⟨384, ['d', nul]⟩], [64, 384, 0]⟩ := by decide

/-! ## The line -/

end RCore.User.Shell
