import RCore.Fs.FdTable

/-!
# User programs

A user program is what it does next: a system call on its descriptors, with the rest of the program for
every result. Processes run such programs side by side, one system call at a time and in any order, each
with a table of its own. What a system call finds outside (whether a file exists, whether `exec` works)
is a choice of the step.

A mark does nothing but note the table of its process.
-/

namespace RCore.User

open RCore Fs

/-- A program, with marks of `M`. -/
inductive Program (M : Type) where
  /-- `pipe`: the descriptors of the two ends. The first number names the pipe, which no program looks at. -/
  | pipe (k : Nat → Nat × Nat → Program M)
  | dup (fd : Nat) (k : Int → Program M)
  | close (fd : Nat) (k : Program M)
  | open (path : List Char) (readable writable : Bool) (k : Int → Program M)
  /-- `fork`: 0 in the child. -/
  | fork (k : Nat → Program M)
  /-- `exec`, with the rest of the program if it fails. -/
  | exec (args : List (List Char)) (k : Program M)
  /-- `waitpid` on a child, which comes back once the child has exited. -/
  | waitpid (pid : Nat) (k : Program M)
  | mark (m : M) (k : Program M)
  /-- There is no input left to go on with. -/
  | waiting
  | exit (exitCode : Int)
  /-- An `assert_eq` has failed. -/
  | assertFailed
  /-- Any other panic. -/
  | panicked

/-- Processes with their tables and programs, how many pipes there have been, and what the marks have
noted. -/
structure World (M : Type) where
  processes : List (FdTable × Program M)
  pipes : Nat
  marks : List (M × FdTable)

namespace World

variable {M : Type}

/-- Change the process `p`. -/
def put (w : World M) (p : Nat) (t : FdTable) (k : Program M) : World M :=
  { w with processes := w.processes.set p (t, k) }

/-- The process `p` goes on, and makes the choice `c` where there is one. -/
def step (w : World M) (p : Nat) (c : Bool) : Option (World M) :=
  match w.processes[p]? with
  | none => none
  | some (t, .pipe k) =>
    let (fds, t) := t.sysPipe w.pipes
    some { w.put p t (k w.pipes fds) with pipes := w.pipes + 1 }
  | some (t, .dup fd k) =>
    let (r, t) := t.sysDup fd
    some (w.put p t (k r))
  | some (t, .close fd k) => some (w.put p (t.sysClose fd).2 k)
  | some (t, .open path readable writable k) =>
    let (r, t) := t.sysOpen (if c then some (.inode path readable writable) else none)
    some (w.put p t (k r))
  | some (t, .fork k) =>
    let w' := w.put p t (k w.processes.length)
    some { w' with processes := w'.processes ++ [(t, k 0)] }
  -- what the new program does is its own affair
  | some (t, .exec _ k) => some (w.put p t (if c then .exit 0 else k))
  | some (t, .waitpid _ k) => some (w.put p t k)
  | some (t, .mark m k) => some { w.put p t k with marks := w.marks ++ [(m, t)] }
  | some (_, .waiting) => none
  | some (_, .exit _) => none
  | some (_, .assertFailed) => none
  | some (_, .panicked) => none

/-- One process that runs a program. -/
def start (t : FdTable) (k : Program M) (pipes : Nat) : World M := ⟨[(t, k)], pipes, []⟩

/-- The worlds after any number of steps. Other processes may make pipes in between. -/
inductive Reached (w₀ : World M) : World M → Prop
  | start : Reached w₀ w₀
  | step {w w' : World M} (p : Nat) (c : Bool) (hw : Reached w₀ w) (h : w.step p c = some w') : Reached w₀ w'
  | pipes {w : World M} (n : Nat) (hw : Reached w₀ w) : Reached w₀ { w with pipes := w.pipes + n }

/-- Steps one after the other. -/
def runs (w : World M) : List (Nat × Bool) → Option (World M)
  | [] => some w
  | (p, c) :: ops => (w.step p c).bind (runs · ops)

theorem Reached.runs {w₀ w w' : World M} (ops : List (Nat × Bool)) (hw : Reached w₀ w) (h : w.runs ops = some w') :
    Reached w₀ w' := by
  induction ops generalizing w with
  | nil =>
    cases h
    exact hw
  | cons op ops ih =>
    obtain ⟨p, c⟩ := op
    obtain ⟨w₁, hstep, hrest⟩ := Option.bind_eq_some_iff.mp h
    exact ih (hw.step p c hstep) hrest

end World

/-! ## Preconditions -/

namespace Program

variable {M : Type}

/-- A program that starts with this table, and to which no pipe from `n` on is known, never fails an
assertion, and its marks note tables that satisfy `Q`; the same goes for its children. -/
def wp (Q : M → FdTable → Prop) : Program M → Nat → FdTable → Prop
  | .pipe k, n, t => ∀ i ≥ n, (k i (t.sysPipe i).1).wp Q (i + 1) (t.sysPipe i).2
  | .dup fd k, n, t => (k (t.sysDup fd).1).wp Q n (t.sysDup fd).2
  | .close fd k, n, t => k.wp Q n (t.sysClose fd).2
  | .open path readable writable k, n, t =>
    (∀ r t', t.sysOpen (some (.inode path readable writable)) = (r, t') → (k r).wp Q n t') ∧ (k (-1)).wp Q n t
  | .fork k, n, t => (k 0).wp Q n t ∧ ∀ pid ≠ 0, (k pid).wp Q n t
  | .exec _ k, n, t => k.wp Q n t
  | .waitpid _ k, n, t => k.wp Q n t
  | .mark m k, n, t => Q m t ∧ k.wp Q n t
  | .waiting, _, _ => True
  | .exit _, _, _ => True
  | .assertFailed, _, _ => False
  | .panicked, _, _ => True

/-- A higher bound will do. -/
theorem wp_mono {Q : M → FdTable → Prop} {k : Program M} {n n' : Nat} {t : FdTable} (hn : n ≤ n') (h : k.wp Q n t) :
    k.wp Q n' t := by
  induction k generalizing n n' t with
  | pipe k ih => exact fun i hi => ih _ _ (Nat.le_refl _) (h i (Nat.le_trans hn hi))
  | dup fd k ih => exact ih _ hn h
  | close fd k ih => exact ih hn h
  | «open» path r w k ih => exact ⟨fun x t' ht => ih _ hn (h.1 x t' ht), ih _ hn h.2⟩
  | fork k ih => exact ⟨ih _ hn h.1, fun pid hpid => ih _ hn (h.2 pid hpid)⟩
  | exec args k ih => exact ih hn h
  | waitpid pid k ih => exact ih hn h
  | mark m k ih => exact ⟨h.1, ih hn h.2⟩
  | waiting => trivial
  | exit _ => trivial
  | assertFailed => exact h
  | panicked => trivial

end Program

namespace World

variable {M : Type} {Q : M → FdTable → Prop} {w w' : World M} {p : Nat} {t : FdTable} {k : Program M}

/-- Every process keeps to its program, and every mark has noted a good table. -/
structure Ok (Q : M → FdTable → Prop) (w : World M) : Prop where
  nonempty : w.processes ≠ []
  processes : ∀ x ∈ w.processes, x.2.wp Q w.pipes x.1
  marks : ∀ x ∈ w.marks, Q x.1 x.2

theorem Ok.put (h : w.Ok Q) (p : Nat) (hk : k.wp Q w.pipes t) : (w.put p t k).Ok Q := by
  refine ⟨?_, fun x hx => ?_, h.marks⟩
  · intro hnil
    have hlen := congrArg List.length hnil
    rw [World.put, List.length_set, List.length_nil, List.length_eq_zero_iff] at hlen
    exact h.nonempty hlen
  · rcases List.mem_or_eq_of_mem_set hx with hold | rfl
    · exact h.processes x hold
    · exact hk

/-- A world with more pipes. -/
theorem Ok.morePipes (h : w.Ok Q) (n : Nat) : Ok Q { w with pipes := w.pipes + n } :=
  ⟨h.nonempty, fun x hx => Program.wp_mono (Nat.le_add_right _ _) (h.processes x hx), h.marks⟩

theorem Ok.step (h : w.Ok Q) {c : Bool} (hstep : w.step p c = some w') : w'.Ok Q := by
  unfold World.step at hstep
  cases hp : w.processes[p]? with
  | none =>
    rw [hp] at hstep
    cases hstep
  | some x =>
    obtain ⟨t, k⟩ := x
    have hk : k.wp Q w.pipes t := h.processes (t, k) (List.mem_of_getElem? hp)
    rw [hp] at hstep
    cases k with
    | pipe k =>
      cases hstep
      have hnext := hk w.pipes (Nat.le_refl _)
      exact Ok.put (w := { w with pipes := w.pipes + 1 }) (h.morePipes 1) p hnext
    | dup fd k =>
      cases hstep
      exact h.put p hk
    | close fd k =>
      cases hstep
      exact h.put p hk
    | «open» path r wr k =>
      cases hstep
      cases c with
      | true => exact h.put p (hk.1 _ _ rfl)
      | false => exact h.put p hk.2
    | fork k =>
      cases hstep
      have hpos : w.processes.length ≠ 0 := fun hz => h.nonempty (List.length_eq_zero_iff.mp hz)
      have hput := h.put p (hk.2 _ hpos)
      refine ⟨List.append_ne_nil_of_right_ne_nil _ (List.cons_ne_nil _ _), fun x hx => ?_, hput.marks⟩
      rcases List.mem_append.mp hx with hold | hnew
      · exact hput.processes x hold
      · rw [List.mem_singleton] at hnew
        subst hnew
        exact hk.1
    | exec args k =>
      cases hstep
      cases c with
      | true => exact h.put p trivial
      | false => exact h.put p hk
    | waitpid pid k =>
      cases hstep
      exact h.put p hk
    | mark m k =>
      cases hstep
      have hput := h.put p hk.2
      refine ⟨hput.nonempty, hput.processes, fun x hx => ?_⟩
      rcases List.mem_append.mp hx with hold | hnew
      · exact h.marks x hold
      · rw [List.mem_singleton] at hnew
        subst hnew
        exact hk.1
    | waiting => cases hstep
    | exit _ => cases hstep
    | assertFailed => cases hstep
    | panicked => cases hstep

/-- **Adequacy.** -/
theorem Reached.ok {w₀ : World M} (h₀ : w₀.Ok Q) (hw : Reached w₀ w) : w.Ok Q := by
  induction hw with
  | start => exact h₀
  | step p c _ h ih => exact ih.step h
  | pipes n _ ih => exact ih.morePipes n

theorem Ok.of_start {pipes : Nat} (h : k.wp Q pipes t) : (World.start t k pipes).Ok Q := by
  refine ⟨List.cons_ne_nil _ _, fun x hx => ?_, fun x hx => by cases hx⟩
  rw [start, List.mem_singleton] at hx
  subst hx
  exact h

/-- No process fails an assertion. -/
theorem Ok.assert (h : w.Ok Q) (t : FdTable) : (t, Program.assertFailed) ∉ w.processes :=
  fun hmem => h.processes _ hmem

end World

end RCore.User
