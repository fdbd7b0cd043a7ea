import RCore.Lib.PriorityQueue
import RCore.Mm.Address

/-!
# The stride scheduler

The model of `os/src/task/scheduler.rs`. A task in the ready queue is represented in the heap by its
pid and a copy of its pass. Passes wrap around, so two of them are compared on the circle: the one
that is behind by at most half of it comes first. `Ord` compares the numbers instead; the heap of the
standard library uses `PartialOrd`, and is taken from outside (`BinaryHeap`).
-/

namespace RCore.Task

open RCore

/-- `BIG_STRIDE` -/
def bigStride : Nat := 2 ^ 64 - 1

/-- `Stride` -/
structure Stride where
  id : Nat
  pass : Nat
  deriving DecidableEq

namespace Stride

/-- `Stride::abs_diff` -/
def absDiff (self other : Stride) : Nat :=
  if self.pass < other.pass then other.pass - self.pass else self.pass - other.pass

/-- `Ord::cmp` -/
def cmp (self other : Stride) : Ordering := (compare self.pass other.pass).swap

/-- `PartialOrd::partial_cmp` -/
def partialCmp (self other : Stride) : Option Ordering :=
  if self.absDiff other ≤ bigStride / 2 then some (self.cmp other)
  else some (self.cmp other).swap

/-- The operator `<=`. -/
def Le (self other : Stride) : Prop :=
  self.partialCmp other = some .lt ∨ self.partialCmp other = some .eq

instance : DecidableRel Le := fun _ _ => inferInstanceAs (Decidable (_ ∨ _))

end Stride

/-- `BinaryHeap<Stride>`, which orders by the operators. -/
abbrev BinaryHeap := PriorityQueue Stride Stride.Le

/-- The queue of a `StrideScheduler`. -/
abbrev StrideScheduler (B : BinaryHeap) := B.Queue

namespace StrideScheduler

variable {B : BinaryHeap}

/-- `StrideScheduler::insert_task` -/
def insertTask (queue : StrideScheduler B) (id pass : Nat) : StrideScheduler B :=
  B.push queue ⟨id, pass⟩

/-- `StrideScheduler::find_next_task` -/
def findNextTask (queue : StrideScheduler B) : Option Nat × StrideScheduler B :=
  match B.pop queue with
  | some (node, queue) => (some node.id, queue)
  | none => (none, queue)

end StrideScheduler

end RCore.Task
