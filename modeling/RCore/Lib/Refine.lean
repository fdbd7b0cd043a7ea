import RCore.Lib.Prog

/-!
# Programs that do what a model says

A model takes a call in a state and answers it, or has no answer. A program meets an answer if it gives the same
one and leaves what stands for the next state of the model; it meets the lack of one by a panic. A model can be
larger than what a store can hold: `Dom` says which of its states are not.

`Meets.each` goes from single calls to sequences of calls.
-/

namespace RCore

section Model

variable {Op A M : Type}

/-- Calls of a model, one after the other; there is no answer if one of them has none. -/
def answersOf (step : Op → M → Option (A × M)) : List Op → M → Option (List A × M)
  | [], u => some ([], u)
  | op :: ops, u => do
    let (a, v) ← step op u
    let (l, w) ← answersOf step ops v
    return (a :: l, w)

/-- Every state that the calls go through is in `Dom`. -/
def StaysIn (step : Op → M → Option (A × M)) (Dom : M → Prop) : List Op → M → Prop
  | [], _ => True
  | op :: ops, u => ∀ a v, step op u = some (a, v) → Dom v ∧ StaysIn step Dom ops v

theorem answersOf_cons {step : Op → M → Option (A × M)} {op : Op} {ops : List Op} {u v w : M} {a : A} {l : List A}
    (h : step op u = some (a, v)) (hrest : answersOf step ops v = some (l, w)) :
    answersOf step (op :: ops) u = some (a :: l, w) := by
  rw [answersOf, h, Option.bind_eq_bind, Option.bind_some]
  dsimp only
  rw [hrest]
  rfl

theorem StaysIn.cons {step : Op → M → Option (A × M)} {Dom : M → Prop} {op : Op} {ops : List Op} {u v : M} {a : A}
    (h : step op u = some (a, v)) (hv : Dom v) (hrest : StaysIn step Dom ops v) : StaysIn step Dom (op :: ops) u := by
  intro b w hw
  rw [h] at hw
  cases hw
  exact ⟨hv, hrest⟩

end Model

namespace Prog

variable {ι β α γ δ Op A M S : Type}

theorem bind_assoc (p : Prog ι β α) (f : α → Prog ι β γ) (k : γ → Prog ι β δ) :
    p >>= f >>= k = p >>= fun a => f a >>= k := by
  show (p.bind f).bind k = p.bind fun a => (f a).bind k
  induction p with
  | ret a => rfl
  | abort => rfl
  | acquire i c ih => exact congrArg (acquire i) (funext ih)
  | store i b c ih => exact congrArg (store i b) ih
  | release i c ih => exact congrArg (release i) ih
  | sync c ih => exact congrArg sync ih

/-- Calls of a program with a state of its own, one after the other. -/
def each (step : S → Op → Prog ι β (A × S)) : S → List Op → Prog ι β (List A × S)
  | s, [] => pure ([], s)
  | s, op :: ops => do
    let (a, s) ← step s op
    let (l, s) ← each step s ops
    pure (a :: l, s)

variable [DecidableEq ι]

/-- The first of several calls, and then the others. -/
theorem exec_each_cons {step : S → Op → Prog ι β (A × S)} {s t : S} {op : Op} {ops : List Op} {l : List A} {d d'' : ι → β}
    (h : (each step s (op :: ops)).exec d = some ((l, t), d'')) : ∃ a s' d' l', (step s op).exec d = some ((a, s'), d') ∧
      (each step s' ops).exec d' = some ((l', t), d'') ∧ l = a :: l' := by
  rw [each, exec_bind] at h
  obtain ⟨⟨⟨a, s'⟩, d'⟩, hone, h⟩ := Option.bind_eq_some_iff.mp h
  rw [exec_bind] at h
  obtain ⟨⟨⟨l', t'⟩, d₂⟩, hmany, h⟩ := Option.bind_eq_some_iff.mp h
  cases h
  exact ⟨a, s', d', l', hone, hmany, rfl⟩

/-- On the store `d`, `p` does what a model answers; `R` relates the states of the model to those of the program and
the store. -/
def Meets (R : M → S → (ι → β) → Prop) (Dom : M → Prop) (p : Prog ι β (A × S)) (answer : Option (A × M))
    (d : ι → β) : Prop :=
  match answer with
  | none => p.exec d = none
  | some (a, u) => Dom u → p.wp (fun r d' => r.1 = a ∧ R u r.2 d') d

namespace Meets

variable {R : M → S → (ι → β) → Prop} {Dom : M → Prop} {d : ι → β}

/-- A value that is looked up both in the model and by the program. -/
theorem unwrap {B C : Type} {x : Option B} {y : Option C} {k : B → Prog ι β (A × S)} {m : C → Option (A × M)}
    (hnone : y = none → x = none) (hsome : ∀ c, y = some c → ∃ b, x = some b ∧ Meets R Dom (k b) (m c) d) :
    Meets R Dom (Prog.unwrap x >>= k) (y >>= m) d := by
  cases y with
  | none =>
    rw [hnone rfl]
    exact exec_bind_of_none rfl k
  | some c =>
    obtain ⟨b, rfl, h⟩ := hsome c rfl
    exact h

/-- A panic where the model has no answer. -/
theorem assert {c : Prop} [Decidable c] {p : Prog ι β (A × S)} {answer : Option (A × M)}
    (h : c → Meets R Dom p answer d) :
    Meets R Dom (Prog.assert c >>= fun _ => p) (if c then answer else none) d := by
  rw [Prog.assert]
  split
  · rename_i hc
    exact h hc
  · rfl

/-- If a program meets a model in every call, it does so in every sequence of calls. -/
theorem each {step : S → Op → Prog ι β (A × S)} {model : Op → M → Option (A × M)} {Good : Op → Prop}
    (hstep : ∀ u s d op, R u s d → Good op → Meets R Dom (step s op) (model op u) d) (ops : List Op) :
    ∀ {u : M} {s : S} {d : ι → β}, R u s d → (∀ op ∈ ops, Good op) → StaysIn model Dom ops u →
      Meets R (fun _ => True) (Prog.each step s ops) (answersOf model ops u) d := by
  induction ops with
  | nil =>
    intro u s d hR _ _ _
    exact ⟨_, _, rfl, rfl, hR⟩
  | cons op ops ih =>
    intro u s d hR hgood hdom
    have hone := hstep u s d op hR (hgood op List.mem_cons_self)
    rw [Prog.each, answersOf]
    cases hm : model op u with
    | none =>
      rw [hm] at hone
      exact exec_bind_of_none hone _
    | some r =>
      obtain ⟨a, v⟩ := r
      rw [hm] at hone
      obtain ⟨hv, hrest⟩ := hdom a v hm
      obtain ⟨⟨_, s'⟩, d', hexec, rfl, hR'⟩ := hone hv
      have hmany := ih hR' (fun o ho => hgood o (List.mem_cons_of_mem _ ho)) hrest
      rw [Option.bind_eq_bind, Option.bind_some]
      dsimp only
      cases hl : answersOf model ops v with
      | none =>
        rw [hl] at hmany
        show exec _ d = none
        rw [exec_bind, hexec, Option.bind_some]
        exact exec_bind_of_none hmany _
      | some r =>
        obtain ⟨l, w⟩ := r
        rw [hl] at hmany
        obtain ⟨⟨_, s''⟩, d'', hexec', rfl, hR''⟩ := hmany trivial
        intro _
        rw [wp_bind_of_exec hexec]
        dsimp only
        rw [wp_bind_of_exec hexec']
        exact (wp_pure _ _ _).mpr ⟨rfl, hR''⟩

end Meets

end Prog

end RCore
