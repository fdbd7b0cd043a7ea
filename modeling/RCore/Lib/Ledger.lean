import Mathlib.Data.List.Nodup
import Mathlib.Data.List.Perm.Basic

/-!
# Ledgers of handed-out numbers

An allocator that hands out the numbers from `lo` on, `cur` being the first one never handed out,
and that keeps the numbers given back in `free`. The ledger of such an allocator is the list `held`
of the numbers that are out: `Ledger lo cur free held` says that no number is out twice, or out and
given back, and that all of them have been handed out. Only the contents of `held` matter, not its
order.
-/

namespace RCore

/-- Every number handed out so far is either held once or given back once. -/
structure Ledger (lo cur : Nat) (free held : List Nat) : Prop where
  nodup : (held ++ free).Nodup
  range : ∀ x ∈ held ++ free, lo ≤ x ∧ x < cur

namespace Ledger

variable {lo cur x : Nat} {free held held' : List Nat}

theorem perm (h : Ledger lo cur free held) (hp : held.Perm held') : Ledger lo cur free held' := by
  have hpp : (held ++ free).Perm (held' ++ free) := hp.append_right free
  refine ⟨hpp.nodup_iff.mp h.nodup, ?_⟩
  intro x hx
  exact h.range x (hpp.mem_iff.mpr hx)

theorem nodup_held (h : Ledger lo cur free held) : held.Nodup :=
  (List.nodup_append.mp h.nodup).1

theorem not_mem_free (h : Ledger lo cur free held) (hx : x ∈ held) : x ∉ free := by
  intro hf
  exact (List.nodup_append.mp h.nodup).2.2 x hx x hf rfl

theorem lt_of_mem (h : Ledger lo cur free held) (hx : x ∈ held) : x < cur :=
  (h.range x (List.mem_append_left free hx)).2

theorem le_of_mem (h : Ledger lo cur free held) (hx : x ∈ held) : lo ≤ x :=
  (h.range x (List.mem_append_left free hx)).1

/-- Hand out the number given back last. -/
theorem reuse (h : Ledger lo cur (x :: free) held) : Ledger lo cur free (x :: held) := by
  have hpp : (held ++ x :: free).Perm (x :: held ++ free) := List.perm_middle
  refine ⟨hpp.nodup_iff.mp h.nodup, ?_⟩
  intro y hy
  exact h.range y (hpp.mem_iff.mpr hy)

/-- Hand out the first number never handed out. -/
theorem bump (h : Ledger lo cur free held) (hlo : lo ≤ cur) :
    Ledger lo (cur + 1) free (cur :: held) := by
  refine ⟨?_, ?_⟩
  · rw [List.cons_append, List.nodup_cons]
    refine ⟨?_, h.nodup⟩
    intro hc
    exact Nat.lt_irrefl cur (h.range cur hc).2
  · intro y hy
    rw [List.cons_append, List.mem_cons] at hy
    rcases hy with rfl | hy
    · exact ⟨hlo, Nat.lt_succ_self y⟩
    · exact ⟨(h.range y hy).1, Nat.lt_succ_of_lt (h.range y hy).2⟩

/-- Give a number back. -/
theorem giveBack (h : Ledger lo cur free (x :: held)) : Ledger lo cur (x :: free) held := by
  have hpp : (x :: held ++ free).Perm (held ++ x :: free) := List.perm_middle.symm
  refine ⟨hpp.nodup_iff.mp h.nodup, ?_⟩
  intro y hy
  exact h.range y (hpp.mem_iff.mpr hy)

end Ledger

end RCore
