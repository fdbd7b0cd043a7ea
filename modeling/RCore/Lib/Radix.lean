import Mathlib.Data.List.Basic
import Mathlib.Logic.Function.Basic

/-!
# Radix trees stored in a memory of frames

A table is a frame of slots indexed by `I`; a filled slot of an inner table points at the table one
level down, a filled slot of a table of the last level is a leaf. The memory is only seen through
`read f i`, the entry in slot `i` of the frame `f` if that slot is filled, and `next`, the frame an
entry points at. A table is named by the slots passed on the way to it, the last one first, so that
the root is `[]` and the child of `p` in slot `i` is `i :: p`.

A tree of depth `d` has its tables at the paths shorter than `d`. `Apart` says that no frame is used
for two of them. Under it a store into one slot is visible at one path only: `walk_write` is the
store of a leaf, `walk_grow` the store of a pointer to a fresh empty table.
-/

namespace RCore.Radix

variable {F E I : Type} (next : E → F)

/-- The frame of the table at a path. -/
def walk (read : F → I → Option E) (root : F) : List I → Option F
  | [] => some root
  | i :: p => (walk read root p).bind fun f => (read f i).map next

/-- The entry in slot `i` of the table at `p`. -/
def lookup (read : F → I → Option E) (root : F) (p : List I) (i : I) : Option E :=
  (walk next read root p).bind fun f => read f i

/-- No frame is used for two tables of the tree. -/
def Apart (read : F → I → Option E) (root : F) (d : Nat) : Prop :=
  ∀ p q f, p.length < d → q.length < d → walk next read root p = some f →
    walk next read root q = some f → p = q

variable {next} {read read' : F → I → Option E} {root : F} {d : Nat}

/-- A walk depends only on the tables it passes. -/
theorem walk_congr {p : List I}
    (h : ∀ q f, q.length < p.length → walk next read root q = some f → read' f = read f) :
    walk next read' root p = walk next read root p := by
  induction p with
  | nil => rfl
  | cons i p ih =>
    have hp : walk next read' root p = walk next read root p :=
      ih fun q f hq => h q f (Nat.lt_succ_of_lt hq)
    rw [walk, walk, hp]
    cases hw : walk next read root p with
    | none => rfl
    | some f =>
      have hf : read' f = read f := h p f (Nat.lt_succ_self _) hw
      simp [hf]

section Write

variable (hd : Apart next read root d) {p : List I} {f : F} (hp : walk next read root p = some f)
include hd hp

/-- A store into a table of the last level moves no table. -/
theorem walk_write (hl : p.length + 1 = d) (hr : ∀ g, g ≠ f → read' g = read g) {q : List I}
    (hq : q.length < d) : walk next read' root q = walk next read root q := by
  apply walk_congr
  intro r g hr' hg
  apply hr
  intro hgf
  subst hgf
  have hrp : r = p := hd r p g (by omega) (by omega) hg hp
  subst hrp
  omega

theorem apart_write (hl : p.length + 1 = d) (hr : ∀ g, g ≠ f → read' g = read g) :
    Apart next read' root d := by
  intro q r g hq hr' hqg hrg
  rw [walk_write hd hp hl hr hq] at hqg
  rw [walk_write hd hp hl hr hr'] at hrg
  exact hd q r g hq hr' hqg hrg

/-- A store into a table of the last level changes the entries of that table only. -/
theorem lookup_write (hl : p.length + 1 = d) (hr : ∀ g, g ≠ f → read' g = read g) {q : List I}
    (hq : q.length < d) (hqp : q ≠ p) (i : I) :
    lookup next read' root q i = lookup next read root q i := by
  unfold lookup
  rw [walk_write hd hp hl hr hq]
  cases hg : walk next read root q with
  | none => rfl
  | some g =>
    have hgf : g ≠ f := by
      intro he
      subst he
      exact hqp (hd q p g hq (by omega) hg hp)
    simp [hr g hgf]

end Write

section Grow

variable [DecidableEq I] (hd : Apart next read root d) {p : List I} {f g : F} {i : I} {e : E}
  (hp : walk next read root p = some f) (hl : p.length + 1 < d) (hi : read f i = none)
  (hg : ∀ q, q.length < d → walk next read root q ≠ some g) (he : next e = g)
  (hfi : read' f i = some e) (hfj : ∀ j, j ≠ i → read' f j = read f j)
  (hgj : ∀ j, read' g j = none) (hr : ∀ h, h ≠ f → h ≠ g → read' h = read h)
include hd hp hl hi hg he hfi hfj hgj hr

/-- Storing a pointer to a fresh empty table adds that table and moves no other. -/
theorem walk_grow {q : List I} (hq : q.length < d) :
    walk next read' root q = if q = i :: p then some g else walk next read root q := by
  induction q with
  | nil => simp [walk]
  | cons j q ih =>
    have hq' : q.length < d := Nat.lt_of_succ_lt hq
    have hchild : walk next read root (i :: p) = none := by simp [walk, hp, hi]
    rw [walk, ih hq', walk]
    by_cases hqp : q = i :: p
    · subst hqp
      have hne : j :: i :: p ≠ i :: p := by
        intro h
        have := congrArg List.length h
        simp at this
      simp [hne, hgj, hchild]
    · rw [if_neg hqp]
      cases hw : walk next read root q with
      | none =>
        have hne : j :: q ≠ i :: p := by
          intro h
          cases h
          rw [hp] at hw
          cases hw
        rw [if_neg hne]
        rfl
      | some h =>
        have hhg : h ≠ g := by
          intro hh
          subst hh
          exact hg q hq' hw
        by_cases hhf : h = f
        · subst hhf
          have hqp' : q = p := hd q p h hq' (by omega) hw hp
          subst hqp'
          by_cases hji : j = i
          · subst hji
            simp [hfi, he]
          · simp [hji, hfj j hji]
        · have hne : j :: q ≠ i :: p := by
            intro hc
            cases hc
            rw [hp] at hw
            cases hw
            exact hhf rfl
          rw [if_neg hne]
          simp [hr h hhf hhg]

theorem apart_grow : Apart next read' root d := by
  intro q r k hq hr' hqk hrk
  rw [walk_grow hd hp hl hi hg he hfi hfj hgj hr hq] at hqk
  rw [walk_grow hd hp hl hi hg he hfi hfj hgj hr hr'] at hrk
  by_cases hq' : q = i :: p
  · by_cases hr'' : r = i :: p
    · rw [hq', hr'']
    · rw [if_pos hq'] at hqk
      rw [if_neg hr''] at hrk
      cases hqk
      exact absurd hrk (hg r hr')
  · by_cases hr'' : r = i :: p
    · rw [if_neg hq'] at hqk
      rw [if_pos hr''] at hrk
      cases hrk
      exact absurd hqk (hg q hq)
    · rw [if_neg hq'] at hqk
      rw [if_neg hr''] at hrk
      exact hd q r k hq hr' hqk hrk

/-- The fresh table is empty and every other table keeps its entries, except for the new pointer. -/
theorem lookup_grow {q : List I} (hq : q.length < d) (j : I) :
    lookup next read' root q j = if q = p ∧ j = i then some e else lookup next read root q j := by
  unfold lookup
  rw [walk_grow hd hp hl hi hg he hfi hfj hgj hr hq]
  by_cases hqc : q = i :: p
  · have hqp : q ≠ p := by
      intro h
      rw [h] at hqc
      have := congrArg List.length hqc
      simp at this
    have hchild : walk next read root (i :: p) = none := by simp [walk, hp, hi]
    simp [hqc, hgj, hchild]
  · rw [if_neg hqc]
    cases hw : walk next read root q with
    | none =>
      have hqp : q ≠ p := by
        intro h
        subst h
        rw [hp] at hw
        cases hw
      simp [hqp]
    | some h =>
      have hhg : h ≠ g := by
        intro hh
        subst hh
        exact hg q hq hw
      by_cases hhf : h = f
      · subst hhf
        have hqp : q = p := hd q p h hq (by omega) hw hp
        by_cases hji : j = i
        · simp [hqp, hji, hfi]
        · simp [hji, hfj j hji]
      · have hqp : q ≠ p := by
          intro hc
          subst hc
          rw [hp] at hw
          cases hw
          exact hhf rfl
        simp [hqp, hr h hhf hhg]

end Grow

end RCore.Radix
