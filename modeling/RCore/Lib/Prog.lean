import RCore.Lib.Bytes

/-!
# Programs over a store of locked cells

The code below this layer reaches its storage only by taking a handle on a cell, looking at or
replacing the cell's content while it holds the handle, and dropping the handle. `Prog ι β α` is a
program of that kind: addresses `ι`, cell contents `β`, result `α`. `abort` is a panic. A program
is data, so that it can be run in more than one way; `exec` is the plain reading, in which the store
is a function from addresses to contents and every access goes straight to it.

`wp p Q d` says that `p`, started on the store `d`, does not abort and ends with a result and a
store that satisfy `Q`; `wlp` asks for `Q` only if `p` does not abort.
-/

namespace RCore

/-- A program over a store of cells. -/
inductive Prog (ι β α : Type) where
  /-- Return a result. -/
  | ret (a : α)
  /-- Panic. -/
  | abort
  /-- Take the handle of a cell and continue with its content. -/
  | acquire (i : ι) (k : β → Prog ι β α)
  /-- Replace the content of a cell whose handle is held. -/
  | store (i : ι) (b : β) (k : Prog ι β α)
  /-- Drop the handle of a cell. -/
  | release (i : ι) (k : Prog ι β α)
  /-- Write every modified cell back to the device behind the store. -/
  | sync (k : Prog ι β α)

namespace Prog

variable {ι β α γ : Type}

/-- Run `p`, then continue with its result. -/
def bind : Prog ι β α → (α → Prog ι β γ) → Prog ι β γ
  | ret a, f => f a
  | abort, _ => abort
  | acquire i k, f => acquire i fun b => (k b).bind f
  | store i b k, f => store i b (k.bind f)
  | release i k, f => release i (k.bind f)
  | sync k, f => sync (k.bind f)

instance : Monad (Prog ι β) where
  pure := ret
  bind := bind

/-- Panic unless `c` holds. -/
def assert (c : Prop) [Decidable c] : Prog ι β Unit := if c then ret () else abort

/-- The value of an option, or a panic. -/
def unwrap : Option α → Prog ι β α
  | some a => ret a
  | none => abort

/-- Hold the handle of a cell while `f` runs on its content. -/
def withRead (i : ι) (f : β → Prog ι β α) : Prog ι β α :=
  acquire i fun b => (f b).bind fun a => release i (ret a)

/-- Hold the handle of a cell while `f` runs on its content, and store the content `f` returns. -/
def withModify (i : ι) (f : β → Prog ι β (α × β)) : Prog ι β α :=
  acquire i fun b => (f b).bind fun r => store i r.2 (release i (ret r.1))

/-! ## The plain reading -/

variable [DecidableEq ι]

/-- Run a program on a store: the result and the store it leaves, or `none` if it panics. -/
def exec : Prog ι β α → (ι → β) → Option (α × (ι → β))
  | ret a, d => some (a, d)
  | abort, _ => none
  | acquire i k, d => exec (k (d i)) d
  | store i b k, d => exec k (Function.update d i b)
  | release _ k, d => exec k d
  | sync k, d => exec k d

theorem exec_bind (p : Prog ι β α) (f : α → Prog ι β γ) (d : ι → β) :
    exec (p >>= f) d = (exec p d).bind fun r => exec (f r.1) r.2 := by
  show exec (p.bind f) d = _
  induction p generalizing d with
  | ret a => rfl
  | abort => rfl
  | acquire i k ih => exact ih (d i) d
  | store i b k ih => exact ih (Function.update d i b)
  | release i k ih => exact ih d
  | sync k ih => exact ih d

theorem exec_bind_pure (p : Prog ι β α) (f : α → γ) (d : ι → β) :
    exec (p >>= fun a => pure (f a)) d = (exec p d).map fun r => (f r.1, r.2) := by
  rw [exec_bind]
  cases exec p d <;> rfl

theorem exec_bind_of_none {p : Prog ι β α} {d : ι → β} (h : exec p d = none) (f : α → Prog ι β γ) :
    exec (p >>= f) d = none := by
  rw [exec_bind, h, Option.bind_none]

/-- A program panics if what follows its first part does. -/
theorem exec_bind_none {p : Prog ι β α} {f : α → Prog ι β γ} {d : ι → β}
    (h : ∀ a d', exec p d = some (a, d') → exec (f a) d' = none) : exec (p >>= f) d = none := by
  rw [exec_bind]
  cases he : exec p d with
  | none => rfl
  | some r => exact h r.1 r.2 he

theorem exec_withModify_none {i : ι} {f : β → Prog ι β (α × β)} {d : ι → β} (h : exec (f (d i)) d = none) :
    exec (withModify i f) d = none :=
  exec_bind_of_none h fun r => store i r.2 (release i (ret r.1))

/-- `p` run on `d` does not panic, and what it returns and leaves satisfies `Q`. -/
def wp (p : Prog ι β α) (Q : α → (ι → β) → Prop) (d : ι → β) : Prop :=
  ∃ a d', exec p d = some (a, d') ∧ Q a d'

/-- If `p` run on `d` does not panic, what it returns and leaves satisfies `Q`. -/
def wlp (p : Prog ι β α) (Q : α → (ι → β) → Prop) (d : ι → β) : Prop :=
  ∀ a d', exec p d = some (a, d') → Q a d'

theorem wp.wlp {p : Prog ι β α} {Q : α → (ι → β) → Prop} {d : ι → β} (h : p.wp Q d) :
    p.wlp Q d := by
  obtain ⟨a, d', he, hq⟩ := h
  intro b e hb
  rw [he] at hb
  cases hb
  exact hq

theorem wp_eq_iff {p : Prog ι β α} {d d' : ι → β} {a : α} :
    p.wp (fun b e => b = a ∧ e = d') d ↔ exec p d = some (a, d') := by
  constructor
  · rintro ⟨b, e, he, rfl, rfl⟩
    exact he
  · intro he
    exact ⟨a, d', he, rfl, rfl⟩

/-- Programs with the same postconditions do the same. -/
theorem exec_eq_of_wp {p q : Prog ι β α} {d : ι → β} (h : ∀ Q, p.wp Q d ↔ q.wp Q d) :
    exec p d = exec q d := by
  cases hq : exec q d with
  | some r => exact wp_eq_iff.mp ((h _).mpr (wp_eq_iff.mpr hq))
  | none =>
    cases hp : exec p d with
    | none => rfl
    | some r =>
      have hwp := wp_eq_iff.mp ((h _).mp (wp_eq_iff.mpr hp))
      rw [hq] at hwp
      cases hwp

theorem wp_congr {p q : Prog ι β α} {d : ι → β} (h : exec p d = exec q d) (Q : α → (ι → β) → Prop) :
    p.wp Q d ↔ q.wp Q d := by
  rw [wp, wp, h]

theorem exec_unwrap (o : Option α) (d : ι → β) :
    exec (unwrap o : Prog ι β α) d = o.map fun a => (a, d) := by
  cases o <;> rfl

theorem wp_mono {p : Prog ι β α} {Q R : α → (ι → β) → Prop} {d : ι → β} (h : p.wp Q d)
    (hqr : ∀ a d', Q a d' → R a d') : p.wp R d := by
  obtain ⟨a, d', he, hq⟩ := h
  exact ⟨a, d', he, hqr a d' hq⟩

@[simp] theorem wp_pure (a : α) (Q : α → (ι → β) → Prop) (d : ι → β) :
    (pure a : Prog ι β α).wp Q d ↔ Q a d := by
  constructor
  · rintro ⟨_, _, he, hq⟩
    cases he
    exact hq
  · intro hq
    exact ⟨a, d, rfl, hq⟩

@[simp] theorem wp_abort (Q : α → (ι → β) → Prop) (d : ι → β) :
    (abort : Prog ι β α).wp Q d ↔ False := by
  constructor
  · rintro ⟨_, _, he, _⟩
    cases he
  · exact False.elim

@[simp] theorem wp_bind (p : Prog ι β α) (f : α → Prog ι β γ) (Q : γ → (ι → β) → Prop)
    (d : ι → β) : (p >>= f).wp Q d ↔ p.wp (fun a d' => (f a).wp Q d') d := by
  simp only [wp, exec_bind]
  cases he : exec p d with
  | none => simp
  | some r =>
    obtain ⟨a, d'⟩ := r
    simp

theorem wp_bind_of_exec {p : Prog ι β α} {d d' : ι → β} {a : α} (h : exec p d = some (a, d'))
    (f : α → Prog ι β γ) (Q : γ → (ι → β) → Prop) :
    (p >>= f).wp Q d ↔ (f a).wp Q d' := by
  simp only [wp, exec_bind, h, Option.bind_some]

@[simp] theorem wp_ret (a : α) (Q : α → (ι → β) → Prop) (d : ι → β) :
    (ret a : Prog ι β α).wp Q d ↔ Q a d :=
  wp_pure a Q d

@[simp] theorem wp_assert (c : Prop) [Decidable c] (Q : Unit → (ι → β) → Prop) (d : ι → β) :
    (assert c : Prog ι β Unit).wp Q d ↔ c ∧ Q () d := by
  unfold assert
  by_cases hc : c
  · simp [hc]
  · simp [hc]

@[simp] theorem wp_sync (p : Prog ι β α) (Q : α → (ι → β) → Prop) (d : ι → β) :
    (sync p).wp Q d ↔ p.wp Q d :=
  Iff.rfl

@[simp] theorem wp_unwrap_some (a : α) (Q : α → (ι → β) → Prop) (d : ι → β) :
    (unwrap (some a) : Prog ι β α).wp Q d ↔ Q a d :=
  wp_pure a Q d

@[simp] theorem wp_withRead (i : ι) (f : β → Prog ι β α) (Q : α → (ι → β) → Prop) (d : ι → β) :
    (withRead i f).wp Q d ↔ (f (d i)).wp Q d := by
  have h := wp_bind (f (d i)) (fun a => release i (ret a)) Q d
  have hq : ∀ (a : α) (d' : ι → β), (release i (ret a) : Prog ι β α).wp Q d' ↔ Q a d' :=
    fun a d' => wp_pure a Q d'
  simp only [hq] at h
  exact h

@[simp] theorem wp_withModify (i : ι) (f : β → Prog ι β (α × β)) (Q : α → (ι → β) → Prop)
    (d : ι → β) :
    (withModify i f).wp Q d ↔
      (f (d i)).wp (fun r d' => Q r.1 (Function.update d' i r.2)) d := by
  have h := wp_bind (f (d i)) (fun r => store i r.2 (release i (ret r.1))) Q d
  refine h.trans ?_
  have hq : ∀ (r : α × β) (d' : ι → β),
      (store i r.2 (release i (ret r.1)) : Prog ι β α).wp Q d' ↔
        Q r.1 (Function.update d' i r.2) :=
    fun r d' => wp_pure r.1 Q (Function.update d' i r.2)
  simp only [hq]

/-! ## The cells a run takes -/

/-- The cells whose handles `p` takes when it runs on `d`, in their order. -/
def touched : Prog ι β α → (ι → β) → List ι
  | ret _, _ => []
  | abort, _ => []
  | acquire i k, d => i :: touched (k (d i)) d
  | store i b k, d => touched k (Function.update d i b)
  | release _ k, d => touched k d
  | sync k, d => touched k d

theorem touched_bind (p : Prog ι β α) (f : α → Prog ι β γ) (d : ι → β) :
    touched (p >>= f) d = touched p d ++ (exec p d).elim [] fun r => touched (f r.1) r.2 := by
  show touched (p.bind f) d = _
  induction p generalizing d with
  | ret a => rfl
  | abort => rfl
  | acquire i k ih => exact congrArg (i :: ·) (ih (d i) d)
  | store i b k ih => exact ih (Function.update d i b)
  | release i k ih => exact ih d
  | sync k ih => exact ih d

/-- `p` run on `d` takes the handles of cells in `S` only. -/
def touches (p : Prog ι β α) (S : ι → Prop) (d : ι → β) : Prop := ∀ i ∈ p.touched d, S i

section Touches

variable {p : Prog ι β α} {f : α → Prog ι β γ} {S S' : ι → Prop} {d : ι → β} {i : ι}

theorem touches.mono (h : p.touches S d) (hS : ∀ i, S i → S' i) : p.touches S' d := fun i hi => hS i (h i hi)

theorem touches_pure (a : α) : (pure a : Prog ι β α).touches S d := fun _ hi => absurd hi List.not_mem_nil

theorem touches_abort : (abort : Prog ι β α).touches S d := fun _ hi => absurd hi List.not_mem_nil

theorem touches_bind : (p >>= f).touches S d ↔
    p.touches S d ∧ ∀ a d', p.exec d = some (a, d') → (f a).touches S d' := by
  rw [touches, touched_bind, List.forall_mem_append]
  refine and_congr_right fun _ => ?_
  cases h : p.exec d with
  | none => simp
  | some r =>
    constructor
    · rintro hr a d' ⟨⟩
      exact hr
    · exact fun hr => hr r.1 r.2 rfl

/-- The continuation runs from a postcondition of the first program. -/
theorem touches.bind {Q : α → (ι → β) → Prop} (h : p.touches S d) (hp : p.wlp Q d)
    (hf : ∀ a d', Q a d' → (f a).touches S d') : (p >>= f).touches S d :=
  touches_bind.mpr ⟨h, fun a d' he => hf a d' (hp a d' he)⟩

theorem touches_assert (c : Prop) [Decidable c] : (assert c : Prog ι β Unit).touches S d := by
  unfold assert
  split
  · exact touches_pure ()
  · exact touches_abort

theorem touches_unwrap (o : Option α) : (unwrap o : Prog ι β α).touches S d := by
  cases o with
  | some a => exact touches_pure a
  | none => exact touches_abort

theorem touches_withRead {f : β → Prog ι β α} :
    (withRead i f).touches S d ↔ S i ∧ (f (d i)).touches S d := by
  have h : ((f (d i)).bind fun a => release i (ret a)).touches S d ↔ (f (d i)).touches S d :=
    touches_bind.trans (and_iff_left fun _ _ _ _ hi => absurd hi List.not_mem_nil)
  exact List.forall_mem_cons.trans (and_congr_right fun _ => h)

theorem touches_withModify {f : β → Prog ι β (α × β)} :
    (withModify i f).touches S d ↔ S i ∧ (f (d i)).touches S d := by
  have h : ((f (d i)).bind fun r => store i r.2 (release i (ret r.1))).touches S d ↔ (f (d i)).touches S d :=
    touches_bind.trans (and_iff_left fun _ _ _ _ hi => absurd hi List.not_mem_nil)
  exact List.forall_mem_cons.trans (and_congr_right fun _ => h)

/-- One look at a cell, then the rest. -/
theorem touches_withRead_bind {g : β → α} :
    (withRead i (fun b => pure (g b)) >>= f).touches S d ↔ S i ∧ (f (g (d i))).touches S d :=
  List.forall_mem_cons

/-- One change of a cell, then the rest. -/
theorem touches_withModify_bind {g : β → α × β} : (withModify i (fun b => pure (g b)) >>= f).touches S d ↔
    S i ∧ (f (g (d i)).1).touches S (Function.update d i (g (d i)).2) :=
  List.forall_mem_cons

end Touches

/-! ## The order of the handles -/

/-- The run of `p` on `d`, while the handles of `held` are held, takes no handle that is held, takes one only while at
most `n` are, stores and drops only what it holds, and is at a `sync` with none. What it returns, leaves and holds at its
end satisfies `Q`. -/
def locks (n : Nat) : Prog ι β α → (α → (ι → β) → List ι → Prop) → (ι → β) → List ι → Prop
  | ret a, Q, d, held => Q a d held
  | abort, _, _, _ => True
  | acquire i k, Q, d, held => i ∉ held ∧ held.length ≤ n ∧ locks n (k (d i)) Q d (i :: held)
  | store i b k, Q, d, held => i ∈ held ∧ locks n k Q (Function.update d i b) held
  | release i k, Q, d, held => i ∈ held ∧ locks n k Q d (held.erase i)
  | sync k, Q, d, held => held = [] ∧ locks n k Q d held

/-- Such a run that drops what it takes. -/
def orderly (n : Nat) (p : Prog ι β α) (d : ι → β) (held : List ι) : Prop :=
  p.locks n (fun _ _ held' => held' = held) d held

section Locks

variable {n : Nat} {p : Prog ι β α} {f : α → Prog ι β γ} {d : ι → β} {held : List ι} {i : ι}

theorem locks_bind (p : Prog ι β α) (f : α → Prog ι β γ) (Q : γ → (ι → β) → List ι → Prop) (d : ι → β)
    (held : List ι) : (p >>= f).locks n Q d held ↔ p.locks n (fun a d' h => (f a).locks n Q d' h) d held := by
  show (p.bind f).locks n Q d held ↔ _
  induction p generalizing d held with
  | ret a => exact Iff.rfl
  | abort => exact Iff.rfl
  | acquire i k ih => exact and_congr_right fun _ => and_congr_right fun _ => ih (d i) d (i :: held)
  | store i b k ih => exact and_congr_right fun _ => ih (Function.update d i b) held
  | release i k ih => exact and_congr_right fun _ => ih d (held.erase i)
  | sync k ih => exact and_congr_right fun _ => ih d held

/-- The run ends as `exec` says. -/
theorem locks.mono {Q R : α → (ι → β) → List ι → Prop} (h : p.locks n Q d held)
    (hqr : ∀ a d' held', p.exec d = some (a, d') → Q a d' held' → R a d' held') : p.locks n R d held := by
  induction p generalizing d held with
  | ret a => exact hqr a d held rfl h
  | abort => trivial
  | acquire i k ih => exact ⟨h.1, h.2.1, ih (d i) h.2.2 hqr⟩
  | store i b k ih => exact ⟨h.1, ih h.2 hqr⟩
  | release i k ih => exact ⟨h.1, ih h.2 hqr⟩
  | sync k ih => exact ⟨h.1, ih h.2 hqr⟩

theorem orderly_pure (a : α) : (pure a : Prog ι β α).orderly n d held := rfl

theorem orderly_abort : (abort : Prog ι β α).orderly n d held := trivial

theorem orderly_bind (h : p.orderly n d held) (hf : ∀ a d', p.exec d = some (a, d') → (f a).orderly n d' held) :
    (p >>= f).orderly n d held := by
  refine (locks_bind p f _ d held).mpr (h.mono ?_)
  rintro a d' _ he rfl
  exact hf a d' he

/-- The continuation runs from a postcondition of the first program. -/
theorem orderly.bind {Q : α → (ι → β) → Prop} (h : p.orderly n d held) (hp : p.wlp Q d)
    (hf : ∀ a d', Q a d' → (f a).orderly n d' held) : (p >>= f).orderly n d held :=
  orderly_bind h fun a d' he => hf a d' (hp a d' he)

theorem orderly_bind_pure {g : α → γ} : (p >>= fun a => pure (g a)).orderly n d held ↔ p.orderly n d held :=
  locks_bind p (fun a => pure (g a)) (fun _ _ held' => held' = held) d held

theorem orderly_assert (c : Prop) [Decidable c] : (assert c : Prog ι β Unit).orderly n d held := by
  unfold assert
  split
  · exact orderly_pure ()
  · exact orderly_abort

theorem orderly_unwrap (o : Option α) : (unwrap o : Prog ι β α).orderly n d held := by
  cases o with
  | some a => exact orderly_pure a
  | none => exact orderly_abort

theorem locks_acquire {k : β → Prog ι β α} {Q : α → (ι → β) → List ι → Prop} : (acquire i k).locks n Q d held ↔
    i ∉ held ∧ held.length ≤ n ∧ (k (d i)).locks n Q d (i :: held) :=
  Iff.rfl

theorem locks_store {b : β} {Q : α → (ι → β) → List ι → Prop} :
    (store i b p).locks n Q d held ↔ i ∈ held ∧ p.locks n Q (Function.update d i b) held :=
  Iff.rfl

theorem locks_release {Q : α → (ι → β) → List ι → Prop} :
    (release i p).locks n Q d held ↔ i ∈ held ∧ p.locks n Q d (held.erase i) :=
  Iff.rfl

theorem locks_sync {Q : α → (ι → β) → List ι → Prop} : (sync p).locks n Q d held ↔ held = [] ∧ p.locks n Q d held :=
  Iff.rfl

theorem locks_pure {a : α} {Q : α → (ι → β) → List ι → Prop} : (pure a : Prog ι β α).locks n Q d held ↔ Q a d held :=
  Iff.rfl

theorem locks_assert {c : Prop} [Decidable c] {Q : Unit → (ι → β) → List ι → Prop} :
    (assert c : Prog ι β Unit).locks n Q d held ↔ (c → Q () d held) := by
  unfold assert
  by_cases hc : c
  · rw [if_pos hc]
    exact ⟨fun h _ => h, fun h => h hc⟩
  · rw [if_neg hc]
    exact ⟨fun _ h => absurd h hc, fun _ => trivial⟩

theorem locks_withRead {f : β → Prog ι β α} {Q : α → (ι → β) → List ι → Prop} : (withRead i f).locks n Q d held ↔
    i ∉ held ∧ held.length ≤ n ∧
      (f (d i)).locks n (fun a d' held' => i ∈ held' ∧ Q a d' (held'.erase i)) d (i :: held) :=
  and_congr_right fun _ => and_congr_right fun _ => locks_bind (f (d i)) (fun a => release i (ret a)) Q d (i :: held)

theorem locks_withModify {f : β → Prog ι β (α × β)} {Q : α → (ι → β) → List ι → Prop} :
    (withModify i f).locks n Q d held ↔ i ∉ held ∧ held.length ≤ n ∧ (f (d i)).locks n (fun r d' held' =>
      i ∈ held' ∧ i ∈ held' ∧ Q r.1 (Function.update d' i r.2) (held'.erase i)) d (i :: held) :=
  and_congr_right fun _ => and_congr_right fun _ =>
    locks_bind (f (d i)) (fun r => store i r.2 (release i (ret r.1))) Q d (i :: held)

theorem orderly_withRead {f : β → Prog ι β α} (hi : i ∉ held) (hn : held.length ≤ n)
    (hf : (f (d i)).orderly n d (i :: held)) : (withRead i f).orderly n d held := by
  refine locks_withRead.mpr ⟨hi, hn, hf.mono ?_⟩
  rintro a d' _ _ rfl
  exact ⟨List.mem_cons_self, List.erase_cons_head ..⟩

theorem orderly_withModify {f : β → Prog ι β (α × β)} (hi : i ∉ held) (hn : held.length ≤ n)
    (hf : (f (d i)).orderly n d (i :: held)) : (withModify i f).orderly n d held := by
  refine locks_withModify.mpr ⟨hi, hn, hf.mono ?_⟩
  rintro r d' _ _ rfl
  exact ⟨List.mem_cons_self, List.mem_cons_self, List.erase_cons_head ..⟩

theorem orderly_sync (h : p.orderly n d []) : (sync p).orderly n d [] := ⟨rfl, h⟩

theorem orderly_iff : p.orderly n d held ↔ p.locks n (fun _ _ held' => held' = held) d held := Iff.rfl

-- the rules above say what is to be known of them
attribute [irreducible] locks orderly

end Locks

end Prog

end RCore
