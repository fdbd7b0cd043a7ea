import Mathlib.Logic.Basic

/-!
# Computations with a state that may panic

`Comp σ α` is straight-line code over a state `σ`: it returns a result and the state it leaves, or it
panics. `wp x Q s` says that `x`, started in `s`, does not panic and ends in `Q`; `wlp` asks for `Q`
only if `x` does not panic. Both are computed along the code by the equations below, so that a
function is verified by running it symbolically and citing the rule of every function it calls.
-/

namespace RCore

/-- A computation over the state `σ`: a result and the state it leaves, or `none` for a panic. -/
def Comp (σ α : Type) := σ → Option (α × σ)

namespace Comp

variable {σ τ α β : Type}

/-- Run a computation. -/
def run (x : Comp σ α) (s : σ) : Option (α × σ) := x s

instance : Monad (Comp σ) where
  pure a := fun s => some (a, s)
  bind x f := fun s => (x.run s).bind fun r => (f r.1).run r.2

/-- Panic. -/
def panic : Comp σ α := fun _ => none

/-- Panic unless `c` holds. -/
def assert (c : Prop) [Decidable c] : Comp σ Unit := if c then pure () else panic

/-- The value of an option, or a panic. -/
def unwrap : Option α → Comp σ α
  | some a => pure a
  | none => panic

/-- The state. -/
def get : Comp σ σ := fun s => some (s, s)

/-- Change the state. -/
def modify (f : σ → σ) : Comp σ Unit := fun s => some ((), f s)

/-- Run a computation on a component of the state. -/
def zoom (view : τ → σ) (put : τ → σ → τ) (x : Comp σ α) : Comp τ α :=
  fun t => (x.run (view t)).map fun r => (r.1, put t r.2)

/-! ## Runs -/

@[simp] theorem run_pure (a : α) (s : σ) : (pure a : Comp σ α).run s = some (a, s) := rfl

@[simp] theorem run_bind (x : Comp σ α) (f : α → Comp σ β) (s : σ) :
    (x >>= f).run s = (x.run s).bind fun r => (f r.1).run r.2 := rfl

@[simp] theorem run_panic (s : σ) : (panic : Comp σ α).run s = none := rfl

@[simp] theorem run_get (s : σ) : (get : Comp σ σ).run s = some (s, s) := rfl

@[simp] theorem run_modify (f : σ → σ) (s : σ) : (modify f).run s = some ((), f s) := rfl

theorem run_zoom (view : τ → σ) (put : τ → σ → τ) (x : Comp σ α) (t : τ) :
    (zoom view put x).run t = (x.run (view t)).map fun r => (r.1, put t r.2) := rfl

/-! ## Laws -/

theorem pure_bind (a : α) (f : α → Comp σ β) : (pure a >>= f) = f a := (rfl)

theorem bind_pure (x : Comp σ α) : (x >>= fun a => pure a) = x := by
  funext s
  show ((x.run s).bind fun r => some (r.1, r.2)) = x.run s
  cases x.run s <;> rfl

theorem bind_pure_unit (x : Comp σ Unit) : (x >>= fun _ => pure ()) = x := bind_pure x

theorem bind_assoc {γ : Type} (x : Comp σ α) (f : α → Comp σ β) (g : β → Comp σ γ) :
    ((x >>= f) >>= g) = x >>= fun a => f a >>= g := by
  funext s
  exact Option.bind_assoc (x.run s) _ _

/-- The state is only looked at. -/
theorem get_bind_const (x : Comp σ α) : (get >>= fun _ => x) = x := (rfl)

/-! ## Postconditions -/

/-- `x` run in `s` does not panic, and what it returns and leaves satisfies `Q`. -/
def wp (x : Comp σ α) (Q : α → σ → Prop) (s : σ) : Prop :=
  ∃ a s', x.run s = some (a, s') ∧ Q a s'

/-- If `x` run in `s` does not panic, what it returns and leaves satisfies `Q`. -/
def wlp (x : Comp σ α) (Q : α → σ → Prop) (s : σ) : Prop :=
  ∀ a s', x.run s = some (a, s') → Q a s'

theorem wp.wlp {x : Comp σ α} {Q : α → σ → Prop} {s : σ} (h : x.wp Q s) : x.wlp Q s := by
  obtain ⟨a, s', he, hq⟩ := h
  intro b t hb
  rw [he] at hb
  cases hb
  exact hq

theorem wp.mono {x : Comp σ α} {Q R : α → σ → Prop} {s : σ} (h : x.wp Q s)
    (hqr : ∀ a s', Q a s' → R a s') : x.wp R s := by
  obtain ⟨a, s', he, hq⟩ := h
  exact ⟨a, s', he, hqr a s' hq⟩

theorem wlp.mono {x : Comp σ α} {Q R : α → σ → Prop} {s : σ} (h : x.wlp Q s)
    (hqr : ∀ a s', Q a s' → R a s') : x.wlp R s := by
  intro a s' he
  exact hqr a s' (h a s' he)

theorem wlp.and {x : Comp σ α} {Q R : α → σ → Prop} {s : σ} (hq : x.wlp Q s) (hr : x.wlp R s) :
    x.wlp (fun a s' => Q a s' ∧ R a s') s :=
  fun a s' he => ⟨hq a s' he, hr a s' he⟩

theorem wp_of_run {x : Comp σ α} {s s' : σ} {a : α} (h : x.run s = some (a, s'))
    (Q : α → σ → Prop) : x.wp Q s ↔ Q a s' := by
  constructor
  · intro hx
    exact hx.wlp a s' h
  · intro hq
    exact ⟨a, s', h, hq⟩

theorem wlp_of_run {x : Comp σ α} {s s' : σ} {a : α} (h : x.run s = some (a, s'))
    (Q : α → σ → Prop) : x.wlp Q s ↔ Q a s' := by
  constructor
  · intro hx
    exact hx a s' h
  · intro hq
    exact ((wp_of_run h Q).mpr hq).wlp

@[simp] theorem wp_pure (a : α) (Q : α → σ → Prop) (s : σ) :
    (pure a : Comp σ α).wp Q s ↔ Q a s :=
  wp_of_run rfl Q

@[simp] theorem wlp_pure (a : α) (Q : α → σ → Prop) (s : σ) :
    (pure a : Comp σ α).wlp Q s ↔ Q a s :=
  wlp_of_run rfl Q

@[simp] theorem wp_panic (Q : α → σ → Prop) (s : σ) : (panic : Comp σ α).wp Q s ↔ False := by
  simp [wp]

@[simp] theorem wlp_panic (Q : α → σ → Prop) (s : σ) : (panic : Comp σ α).wlp Q s ↔ True := by
  simp [wlp]

@[simp] theorem wp_bind (x : Comp σ α) (f : α → Comp σ β) (Q : β → σ → Prop) (s : σ) :
    (x >>= f).wp Q s ↔ x.wp (fun a s' => (f a).wp Q s') s := by
  simp only [wp, run_bind]
  cases x.run s with
  | none => simp
  | some r =>
    obtain ⟨a, t⟩ := r
    simp [and_assoc]

@[simp] theorem wlp_bind (x : Comp σ α) (f : α → Comp σ β) (Q : β → σ → Prop) (s : σ) :
    (x >>= f).wlp Q s ↔ x.wlp (fun a s' => (f a).wlp Q s') s := by
  simp only [wlp, run_bind]
  cases x.run s with
  | none => simp
  | some r =>
    obtain ⟨a, t⟩ := r
    simp

@[simp] theorem wp_get (Q : σ → σ → Prop) (s : σ) : (get : Comp σ σ).wp Q s ↔ Q s s :=
  wp_of_run rfl Q

@[simp] theorem wlp_get (Q : σ → σ → Prop) (s : σ) : (get : Comp σ σ).wlp Q s ↔ Q s s :=
  wlp_of_run rfl Q

@[simp] theorem wp_modify (f : σ → σ) (Q : Unit → σ → Prop) (s : σ) :
    (modify f).wp Q s ↔ Q () (f s) :=
  wp_of_run rfl Q

@[simp] theorem wlp_modify (f : σ → σ) (Q : Unit → σ → Prop) (s : σ) :
    (modify f).wlp Q s ↔ Q () (f s) :=
  wlp_of_run rfl Q

@[simp] theorem wp_assert (c : Prop) [Decidable c] (Q : Unit → σ → Prop) (s : σ) :
    (assert c : Comp σ Unit).wp Q s ↔ c ∧ Q () s := by
  unfold assert
  by_cases hc : c <;> simp [hc]

@[simp] theorem wlp_assert (c : Prop) [Decidable c] (Q : Unit → σ → Prop) (s : σ) :
    (assert c : Comp σ Unit).wlp Q s ↔ (c → Q () s) := by
  unfold assert
  by_cases hc : c <;> simp [hc]

@[simp] theorem wp_unwrap (o : Option α) (Q : α → σ → Prop) (s : σ) :
    (unwrap o : Comp σ α).wp Q s ↔ ∃ a, o = some a ∧ Q a s := by
  cases o <;> simp [unwrap]

@[simp] theorem wlp_unwrap (o : Option α) (Q : α → σ → Prop) (s : σ) :
    (unwrap o : Comp σ α).wlp Q s ↔ ∀ a, o = some a → Q a s := by
  cases o <;> simp [unwrap]

theorem wlp_zoom (view : τ → σ) (put : τ → σ → τ) (x : Comp σ α) (Q : α → τ → Prop) (t : τ) :
    (zoom view put x).wlp Q t ↔ x.wlp (fun a s' => Q a (put t s')) (view t) := by
  simp only [wlp, run_zoom]
  cases x.run (view t) with
  | none => simp
  | some r =>
    simp only [Option.map_some, Option.some.injEq, Prod.mk.injEq]
    constructor
    · intro h a s' hr
      subst hr
      exact h _ _ ⟨rfl, rfl⟩
    · intro h a t' hr
      obtain ⟨rfl, rfl⟩ := hr
      exact h _ _ rfl

theorem wp_zoom (view : τ → σ) (put : τ → σ → τ) (x : Comp σ α) (Q : α → τ → Prop) (t : τ) :
    (zoom view put x).wp Q t ↔ x.wp (fun a s' => Q a (put t s')) (view t) := by
  simp only [wp, run_zoom]
  cases x.run (view t) with
  | none => simp
  | some r =>
    simp only [Option.map_some, Option.some.injEq, Prod.mk.injEq]
    constructor
    · intro h
      obtain ⟨a, t', ⟨rfl, rfl⟩, hq⟩ := h
      exact ⟨r.1, r.2, rfl, hq⟩
    · intro h
      obtain ⟨a, s', rfl, hq⟩ := h
      exact ⟨a, put t s', ⟨rfl, rfl⟩, hq⟩

/-! ## Conditions that are never given up -/

/-- Once `P` holds, `x` leaves it so. -/
def Stable (P : σ → Prop) (x : Comp σ α) : Prop := ∀ s, P s → x.wlp (fun _ s' => P s') s

section Stable

variable {P : σ → Prop}

theorem stable_pure (a : α) : Stable P (pure a) := by
  intro s hs
  rw [wlp_pure]
  exact hs

theorem Stable.bind {x : Comp σ α} {f : α → Comp σ β} (hx : Stable P x) (hf : ∀ a, Stable P (f a)) :
    Stable P (x >>= f) := by
  intro s hs
  rw [wlp_bind]
  exact (hx s hs).mono fun a s' hs' => hf a s' hs'

theorem stable_panic : Stable P (panic : Comp σ α) := by
  intro s _
  rw [wlp_panic]
  trivial

theorem stable_get : Stable P get := by
  intro s hs
  rw [wlp_get]
  exact hs

theorem stable_modify {f : σ → σ} (hf : ∀ s, P s → P (f s)) : Stable P (modify f) := by
  intro s hs
  rw [wlp_modify]
  exact hf s hs

theorem stable_assert (c : Prop) [Decidable c] : Stable P (assert c) := by
  intro s hs
  rw [wlp_assert]
  exact fun _ => hs

theorem stable_unwrap (o : Option α) : Stable P (unwrap o) := by
  intro s hs
  rw [wlp_unwrap]
  exact fun _ _ => hs

theorem stable_ite {c : Prop} [Decidable c] {x y : Comp σ α} (hx : Stable P x) (hy : Stable P y) :
    Stable P (if c then x else y) := by
  split
  · exact hx
  · exact hy

theorem Stable.and {Q : σ → Prop} {x : Comp σ α} (hp : Stable P x) (hq : Stable Q x) :
    Stable (fun s => P s ∧ Q s) x :=
  fun s hs a s' he => ⟨hp s hs.1 a s' he, hq s hs.2 a s' he⟩

theorem Stable.zoom {view : τ → σ} {put : τ → σ → τ} (hput : ∀ t s, view (put t s) = s)
    {x : Comp σ α} (hx : Stable P x) : Stable (fun t => P (view t)) (Comp.zoom view put x) := by
  intro t ht
  rw [wlp_zoom]
  refine (hx (view t) ht).mono fun a s' hs' => ?_
  show P (view (put t s'))
  rw [hput]
  exact hs'

end Stable

end Comp

end RCore
