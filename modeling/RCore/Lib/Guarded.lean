import Mathlib.Data.Set.Basic
import RCore.Lib.Comp

/-!
# Programs that borrow cells

A program that takes exclusive handles on cells, drops them, and computes on a state in between. A
program is data: `run` follows the handles and stops with an error if a cell is taken while a handle on it
is alive; `erase` forgets the handles.

`Within S s p` says that `p`, started in `s` while no cell of `S` is held, makes no such error and drops
every handle it takes.
-/

namespace RCore

/-- A program with cells `C` over a state `σ`. -/
inductive Guarded (C σ α : Type) : Type 1 where
  | ret (a : α)
  /-- Compute on the state. -/
  | lift {β : Type} (x : Comp σ β) (k : β → Guarded C σ α)
  | exclusiveAccess (c : C) (k : Guarded C σ α)
  | drop (c : C) (k : Guarded C σ α)

/-- How a run ends. -/
inductive Guarded.Outcome (C σ α : Type) where
  | returned (a : α) (held : List C) (s : σ)
  | panicked
  | borrowMutError (c : C)

namespace Guarded

variable {C σ α β : Type}

/-- Run `p`, then continue with its result. -/
def bind : Guarded C σ α → (α → Guarded C σ β) → Guarded C σ β
  | ret a, f => f a
  | lift x k, f => lift x fun b => (k b).bind f
  | exclusiveAccess c k, f => exclusiveAccess c (k.bind f)
  | drop c k, f => drop c (k.bind f)

instance : Monad (Guarded C σ) where
  pure := ret
  bind := bind

/-- A computation on the state. -/
def comp (x : Comp σ α) : Guarded C σ α := lift x ret

/-- Take a handle. -/
def take (c : C) : Guarded C σ Unit := exclusiveAccess c (ret ())

/-- Drop a handle. -/
def release (c : C) : Guarded C σ Unit := drop c (ret ())

/-- Hold a cell while `p` runs. -/
def during (c : C) (p : Guarded C σ α) : Guarded C σ α := do
  take c
  let a ← p
  release c
  return a

/-- Hold a cell for an expression. -/
def access (c : C) : Guarded C σ Unit := during c (pure ())

/-- Run a program while the cells `held` are held. -/
def run [DecidableEq C] : Guarded C σ α → List C → σ → Outcome C σ α
  | ret a, held, s => .returned a held s
  | lift x k, held, s =>
    match x.run s with
    | none => .panicked
    | some (b, s') => (k b).run held s'
  | exclusiveAccess c k, held, s => if c ∈ held then .borrowMutError c else k.run (c :: held) s
  | drop c k, held, s => k.run (held.erase c) s

/-- The program without its handles. -/
def erase : Guarded C σ α → Comp σ α
  | ret a => pure a
  | lift x k => x >>= fun b => (k b).erase
  | exclusiveAccess _ k => k.erase
  | drop _ k => k.erase

/-! ## Erasure -/

@[simp] theorem erase_pure (a : α) : (pure a : Guarded C σ α).erase = pure a := (rfl)

@[simp] theorem erase_comp (x : Comp σ α) : (comp x : Guarded C σ α).erase = x := Comp.bind_pure x

@[simp] theorem erase_take (c : C) : (take c : Guarded C σ Unit).erase = pure () := (rfl)

@[simp] theorem erase_release (c : C) : (release c : Guarded C σ Unit).erase = pure () := (rfl)

@[simp] theorem erase_bind (p : Guarded C σ α) (f : α → Guarded C σ β) :
    (p >>= f).erase = p.erase >>= fun a => (f a).erase := by
  show (p.bind f).erase = _
  induction p with
  | ret a => rfl
  | lift x k ih =>
    rw [bind, erase, erase, Comp.bind_assoc]
    simp only [ih]
  | exclusiveAccess c k ih => exact ih
  | drop c k ih => exact ih

@[simp] theorem erase_during (c : C) (p : Guarded C σ α) : (during c p).erase = p.erase := by
  simp only [during, erase_bind, erase_take, erase_release, erase_pure, Comp.pure_bind, Comp.bind_pure]

@[simp] theorem erase_access (c : C) : (access c : Guarded C σ Unit).erase = pure () := (rfl)

@[simp] theorem erase_ite {c : Prop} [Decidable c] (p q : Guarded C σ α) :
    (if c then p else q).erase = if c then p.erase else q.erase := by
  split <;> rfl

/-! ## Runs without errors -/

variable [DecidableEq C] {held : List C} {s : σ} {p : Guarded C σ α} {f : α → Guarded C σ β}

/-- No cell is taken twice, and what `p` returns and leaves satisfies `Q`. -/
def Safe (p : Guarded C σ α) (Q : α → List C → σ → Prop) (held : List C) (s : σ) : Prop :=
  match p.run held s with
  | .returned a held' s' => Q a held' s'
  | .panicked => True
  | .borrowMutError _ => False

theorem safe_lift {x : Comp σ β} {k : β → Guarded C σ α} {Q : α → List C → σ → Prop} :
    Safe (lift x k) Q held s ↔ x.wlp (fun b s' => (k b).Safe Q held s') s := by
  unfold Safe Comp.wlp
  rw [run]
  cases h : x.run s with
  | none => exact ⟨fun _ _ _ hr => (by cases hr), fun _ => trivial⟩
  | some r =>
    constructor
    · intro hs b s' hr
      cases hr
      exact hs
    · intro hs
      exact hs r.1 r.2 rfl

theorem safe_exclusiveAccess {c : C} {k : Guarded C σ α} {Q : α → List C → σ → Prop} :
    Safe (exclusiveAccess c k) Q held s ↔ c ∉ held ∧ k.Safe Q (c :: held) s := by
  unfold Safe
  rw [run]
  by_cases hc : c ∈ held
  · simp [hc]
  · simp [hc]

theorem Safe.mono {Q R : α → List C → σ → Prop} (h : p.Safe Q held s) (hqr : ∀ a held' s', Q a held' s' → R a held' s') :
    p.Safe R held s := by
  unfold Safe at h ⊢
  cases hr : p.run held s with
  | returned a held' s' =>
    rw [hr] at h
    exact hqr a held' s' h
  | panicked => trivial
  | borrowMutError c =>
    rw [hr] at h
    exact h

theorem safe_bind {Q : β → List C → σ → Prop} :
    (p >>= f).Safe Q held s ↔ p.Safe (fun a held' s' => (f a).Safe Q held' s') held s := by
  show (p.bind f).Safe Q held s ↔ _
  induction p generalizing held s with
  | ret a => exact Iff.rfl
  | lift x k ih =>
    rw [bind, safe_lift, safe_lift]
    simp only [ih]
  | exclusiveAccess c k ih => rw [bind, safe_exclusiveAccess, safe_exclusiveAccess, ih]
  | drop c k ih => exact ih

theorem safe_pure {a : α} {Q : α → List C → σ → Prop} : Safe (pure a) Q held s ↔ Q a held s := Iff.rfl

theorem safe_comp {x : Comp σ α} {Q : α → List C → σ → Prop} :
    Safe (comp x) Q held s ↔ x.wlp (fun a s' => Q a held s') s := safe_lift

theorem safe_take {c : C} {Q : Unit → List C → σ → Prop} : Safe (take c) Q held s ↔ c ∉ held ∧ Q () (c :: held) s :=
  safe_exclusiveAccess

theorem safe_release {c : C} {Q : Unit → List C → σ → Prop} : Safe (release c) Q held s ↔ Q () (held.erase c) s :=
  Iff.rfl

theorem not_borrowMutError_iff :
    (∀ c, p.run held s ≠ .borrowMutError c) ↔ p.Safe (fun _ _ _ => True) held s := by
  unfold Safe
  cases p.run held s with
  | returned a held' s' => simp
  | panicked => simp
  | borrowMutError c => simp

/-- A run that returns does what the program without handles does. -/
theorem run_erase {a : α} {held' : List C} {s' : σ} (h : p.run held s = .returned a held' s') :
    p.erase.run s = some (a, s') := by
  induction p generalizing held s with
  | ret b =>
    cases h
    rfl
  | lift x k ih =>
    rw [run] at h
    rw [erase, Comp.run_bind]
    cases hx : x.run s with
    | none =>
      rw [hx] at h
      cases h
    | some r =>
      rw [hx] at h
      exact ih r.1 h
  | exclusiveAccess c k ih =>
    rw [run] at h
    split at h
    · cases h
    · exact ih h
  | drop c k ih => exact ih h

/-- A run that panics does so without handles. -/
theorem run_panicked (h : p.run held s = .panicked) : p.erase.run s = none := by
  induction p generalizing held s with
  | ret b => cases h
  | lift x k ih =>
    rw [run] at h
    rw [erase, Comp.run_bind]
    cases hx : x.run s with
    | none => rfl
    | some r =>
      rw [hx] at h
      exact ih r.1 h
  | exclusiveAccess c k ih =>
    rw [run] at h
    split at h
    · cases h
    · exact ih h
  | drop c k ih => exact ih h

theorem Safe.and_erase {Q : α → List C → σ → Prop} (h : p.Safe Q held s) :
    p.Safe (fun a held' s' => Q a held' s' ∧ p.erase.run s = some (a, s')) held s := by
  unfold Safe at h ⊢
  cases hr : p.run held s with
  | returned a held' s' =>
    rw [hr] at h
    exact ⟨h, run_erase hr⟩
  | panicked => trivial
  | borrowMutError c =>
    rw [hr] at h
    exact h

/-! ## Programs that keep to some cells -/

/-- Started in `s` while no cell of `S` is held, `p` takes no cell twice, and drops what it takes. -/
def Within (S : Set C) (s : σ) (p : Guarded C σ α) : Prop :=
  ∀ held, (∀ c ∈ held, c ∉ S) → p.Safe (fun _ held' _ => held' = held) held s

variable {S : Set C}

theorem within_pure (a : α) : Within S s (pure a : Guarded C σ α) := fun _ _ => rfl

theorem within_comp (x : Comp σ α) : Within S s (comp x : Guarded C σ α) :=
  fun _ _ => safe_lift.mpr fun _ _ _ => rfl

/-- What comes after depends on what the computation without handles leaves. -/
theorem Within.bind_wlp (hp : Within S s p) (hf : p.erase.wlp (fun a s' => Within S s' (f a)) s) :
    Within S s (p >>= f) := by
  intro held hheld
  rw [safe_bind]
  refine (hp held hheld).and_erase.mono fun a held' s' h => ?_
  obtain ⟨rfl, hrun⟩ := h
  exact hf a s' hrun _ hheld

theorem Within.bind (hp : Within S s p) (hf : ∀ a s', Within S s' (f a)) : Within S s (p >>= f) :=
  hp.bind_wlp fun a s' _ => hf a s'

theorem Within.during {c : C} (hc : c ∈ S) (h : Within (S \ {c}) s p) : Within S s (during c p) := by
  intro held hheld
  show (exclusiveAccess c (p >>= fun a => drop c (ret a))).Safe _ held s
  rw [safe_exclusiveAccess, safe_bind]
  refine ⟨fun hmem => hheld c hmem hc, ?_⟩
  refine (h (c :: held) fun d hd hds => ?_).mono fun a held' s' hheld' => ?_
  · rcases List.mem_cons.mp hd with rfl | hd
    · exact hds.2 rfl
    · exact hheld d hd hds.1
  · subst hheld'
    exact List.erase_cons_head c held

theorem within_access {c : C} (hc : c ∈ S) : Within S s (access c) := .during hc (within_pure ())

theorem within_ite {c : Prop} [Decidable c] {q : Guarded C σ α} (hp : c → Within S s p) (hq : ¬c → Within S s q) :
    Within S s (if c then p else q) := by
  split
  · next h => exact hp h
  · next h => exact hq h

/-- A run of such a program is one of the program without handles. -/
theorem Within.run (h : Within S s p) (hheld : ∀ c ∈ held, c ∉ S) :
    (∃ a s', p.run held s = .returned a held s' ∧ p.erase.run s = some (a, s')) ∨
      (p.run held s = .panicked ∧ p.erase.run s = none) := by
  have hsafe := h held hheld
  unfold Safe at hsafe
  cases hr : p.run held s with
  | returned a held' s' =>
    rw [hr] at hsafe
    subst hsafe
    exact .inl ⟨a, s', rfl, run_erase hr⟩
  | panicked => exact .inr ⟨rfl, run_panicked hr⟩
  | borrowMutError c =>
    rw [hr] at hsafe
    exact hsafe.elim

end Guarded

end RCore
