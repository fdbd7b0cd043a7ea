import RCore.User.Shell

/-!
# The wiring of a pipeline

What descriptors refer to is followed as a function. `base` is the function of the shell, which stays as
it is; a table `Holds` the pipes made so far over it. A child changes `base` at 0 and 1, and closing the
pipes leaves `base` alone.
-/

namespace RCore.User.Shell

open RCore Fs

variable {base : Nat → Option File} {t t' : FdTable} {pipesFd : List (Nat × Nat)} {pipes : List Nat}

/-- The descriptors `p` are the ends of the pipe `q`. -/
structure Ends (t : FdTable) (p : Nat × Nat) (q : Nat) : Prop where
  read : t.file p.1 = some (.pipeRead q)
  write : t.file p.2 = some (.pipeWrite q)

/-- Beside the files of `base`, the table has the ends of the pipes where `pipesFd` says. -/
structure Holds (base : Nat → Option File) (t : FdTable) (pipesFd : List (Nat × Nat)) (pipes : List Nat) : Prop where
  ends : List.Forall₂ (Ends t) pipesFd pipes
  free : ∀ p ∈ pipesFd, base p.1 = none ∧ base p.2 = none
  rest : ∀ x, (∀ p ∈ pipesFd, x ≠ p.1 ∧ x ≠ p.2) → t.file x = base x

namespace Holds

theorem nil (h : t.file = base) : Holds base t [] [] :=
  ⟨.nil, fun _ hp => absurd hp List.not_mem_nil, fun x _ => congrFun h x⟩

/-- What `base` has is not the end of a pipe. -/
theorem ne (h : Holds base t pipesFd pipes) {x : Nat} (hx : base x ≠ none) : ∀ p ∈ pipesFd, x ≠ p.1 ∧ x ≠ p.2 :=
  fun p hp => ⟨fun heq => hx (heq ▸ (h.free p hp).1), fun heq => hx (heq ▸ (h.free p hp).2)⟩

theorem file (h : Holds base t pipesFd pipes) {x : Nat} (hx : base x ≠ none) : t.file x = base x :=
  h.rest x (h.ne hx)

/-- A file of `base` is replaced. -/
theorem update (h : Holds base t pipesFd pipes) {fd : Nat} (hfd : base fd ≠ none) {o : Option File}
    (ht : t'.file = Function.update t.file fd o) : Holds (Function.update base fd o) t' pipesFd pipes := by
  have hne := h.ne hfd
  refine ⟨?_, fun p hp => ?_, fun x hx => ?_⟩
  · refine List.forall₂_iff_get.mpr ⟨h.ends.length_eq, fun i hp hq => ?_⟩
    have hends := (List.forall₂_iff_get.mp h.ends).2 i hp hq
    have hmem := hne _ (List.get_mem pipesFd ⟨i, hp⟩)
    constructor
    · rw [ht, Function.update_of_ne (Ne.symm hmem.1), hends.read]
    · rw [ht, Function.update_of_ne (Ne.symm hmem.2), hends.write]
  · rw [Function.update_of_ne (Ne.symm (hne p hp).1), Function.update_of_ne (Ne.symm (hne p hp).2)]
    exact h.free p hp
  · rw [ht]
    rcases eq_or_ne x fd with rfl | hxfd
    · rw [Function.update_self, Function.update_self]
    · rw [Function.update_of_ne hxfd, Function.update_of_ne hxfd]
      exact h.rest x hx

/-- The table of a process that has one more pipe. -/
theorem pipe (h : Holds base t pipesFd pipes) (q : Nat) :
    Holds base (t.sysPipe q).2 (pipesFd ++ [(t.sysPipe q).1]) (pipes ++ [q]) := by
  obtain ⟨a, t₁, b, t₂, h₁, h₂, hpipe⟩ : ∃ a t₁ b t₂, t.install (.pipeRead q) = (a, t₁) ∧
      t₁.install (.pipeWrite q) = (b, t₂) ∧ t.sysPipe q = ((a, b), t₂) := ⟨_, _, _, _, rfl, rfl, rfl⟩
  have ha := FdTable.lowest_install t (.pipeRead q)
  have hb := FdTable.lowest_install t₁ (.pipeWrite q)
  have hfa := FdTable.file_install t (.pipeRead q)
  have hfb := FdTable.file_install t₁ (.pipeWrite q)
  rw [h₁] at ha hfa
  rw [h₂] at hb hfb
  have hab : a ≠ b := by
    rintro rfl
    have := hb.free
    rw [hfa, Function.update_self] at this
    cases this
  have hb' : t.file b = none := by
    have := hb.free
    rwa [hfa, Function.update_of_ne (Ne.symm hab)] at this
  have hfile : ∀ x, x ≠ a → x ≠ b → t₂.file x = t.file x := fun x hxa hxb => by
    rw [hfb, Function.update_of_ne hxb, hfa, Function.update_of_ne hxa]
  have hfree : ∀ x, t.file x = none → base x = none := fun x hx =>
    Classical.byContradiction fun hbase => hbase (h.file hbase ▸ hx)
  rw [hpipe]
  refine ⟨?_, fun p hp => ?_, fun x hx => ?_⟩
  · have hne : ∀ x f, t.file x = some f → t₂.file x = some f := fun x f hx => by
      refine (hfile x ?_ ?_).trans hx
      · rintro rfl
        rw [ha.free] at hx
        cases hx
      · rintro rfl
        rw [hb'] at hx
        cases hx
    have hold : List.Forall₂ (Ends t₂) pipesFd pipes :=
      h.ends.imp fun p r hpr => ⟨hne _ _ hpr.read, hne _ _ hpr.write⟩
    refine List.rel_append hold (.cons ⟨?_, ?_⟩ .nil)
    · rw [hfb, Function.update_of_ne hab, hfa, Function.update_self]
    · rw [hfb, Function.update_self]
  · rcases List.mem_append.mp hp with hold | hnew
    · exact h.free p hold
    · rw [List.mem_singleton] at hnew
      subst hnew
      exact ⟨hfree a ha.free, hfree b hb'⟩
  · have hxab := hx (a, b) (List.mem_append_right _ (List.mem_singleton.mpr rfl))
    rw [hfile x hxab.1 hxab.2]
    exact h.rest x fun p hp => hx p (List.mem_append_left _ hp)

end Holds

/-! ## The pieces of a child -/

variable {Q : Mark → FdTable → Prop} {n m : Nat} {k : Program Mark}

/-- `base` after a redirection. -/
def redirected (base : Nat → Option File) (fd : Nat) (string : List Char) (readable writable : Bool) :
    Nat → Option File :=
  if string.isEmpty then base else Function.update base fd (some (.inode (path string) readable writable))

/-- `base` after a connection. -/
def connected (base : Nat → Option File) (fd : Nat) (file : File) : Nat → Option File :=
  Function.update base fd (some file)

theorem connected_taken {x fd : Nat} {file : File} (hx : base x ≠ none) : connected base fd file x ≠ none := by
  rcases eq_or_ne x fd with rfl | hxfd
  · rw [connected, Function.update_self]
    exact Option.some_ne_none file
  · rw [connected, Function.update_of_ne hxfd]
    exact hx

theorem redirected_taken {x fd : Nat} {string : List Char} {r w : Bool} (hx : base x ≠ none) :
    redirected base fd string r w x ≠ none := by
  unfold redirected
  split
  · exact hx
  · exact connected_taken hx

theorem Holds.redirect (h : Holds base t pipesFd pipes) {fd : Nat} (hlow : ∀ x ≤ fd, base x ≠ none)
    {string : List Char} {r w : Bool}
    (hk : ∀ t', Holds (redirected base fd string r w) t' pipesFd pipes → k.wp Q m t') :
    (redirect fd string r w k).wp Q m t := by
  unfold Shell.redirect
  unfold redirected at hk
  split
  · rename_i hempty
    rw [if_pos hempty] at hk
    exact hk t h
  rename_i hstring
  rw [if_neg hstring] at hk
  refine ⟨fun result t₁ ht₁ => ?_, ?_⟩
  · obtain ⟨d, hd⟩ : ∃ d, d = (t.install (.inode (path string) r w)).1 := ⟨_, rfl⟩
    have hlowest := t.lowest_install (.inode (path string) r w)
    have hfile := t.file_install (.inode (path string) r w)
    have hopen : t.sysOpen (some (.inode (path string) r w)) =
        ((d : Int), (t.install (.inode (path string) r w)).2) := by
      rw [hd]
      rfl
    obtain ⟨rfl, rfl⟩ := Prod.mk.inj (hopen.symm.trans ht₁)
    rw [← hd] at hlowest hfile
    have hne : ∀ x, base x ≠ none → x ≠ d := fun x hx heq => by
      rw [← h.file hx, heq] at hx
      exact hx hlowest.free
    have hdfd : d ≠ fd := Ne.symm (hne fd (hlow fd (Nat.le_refl _)))
    have htaken : ∀ x < fd, (t.install (.inode (path string) r w)).2.file x ≠ none := fun x hx => by
      have hbase := hlow x (Nat.le_of_lt hx)
      rw [hfile, Function.update_of_ne (hne x hbase), h.file hbase]
      exact hbase
    have hsrc : (t.install (.inode (path string) r w)).2.file d = some (.inode (path string) r w) := by
      rw [hfile, Function.update_self]
    obtain ⟨hnew, hafter⟩ := FdTable.dup_after_close htaken hdfd hsrc
    show (if (d : Int) = -1 then _ else _ : Program Mark).wp Q m _
    rw [if_neg (by omega), Int.toNat_natCast]
    show (if _ = (fd : Int) then _ else _ : Program Mark).wp Q m _
    rw [if_pos hnew]
    refine hk _ (h.update (hlow fd (Nat.le_refl _)) ?_)
    rw [FdTable.file_sysClose, hafter, hfile, Function.update_comm hdfd, Function.update_idem]
    exact Function.update_eq_self_iff.mpr (by rw [Function.update_of_ne hdfd, hlowest.free])
  · show (if (-1 : Int) = -1 then _ else _ : Program Mark).wp Q m t
    rw [if_pos rfl]
    trivial

theorem Holds.connect (h : Holds base t pipesFd pipes) {fd pipeFd : Nat} (hlow : ∀ x ≤ fd, base x ≠ none) {f : File}
    (hfree : base pipeFd = none) (hfile : t.file pipeFd = some f)
    (hk : ∀ t', Holds (connected base fd f) t' pipesFd pipes → k.wp Q m t') :
    (connect fd (some pipeFd) k).wp Q m t := by
  have hfd := hlow fd (Nat.le_refl _)
  have htaken : ∀ x < fd, t.file x ≠ none := fun x hx => by
    have hbase := hlow x (Nat.le_of_lt hx)
    rw [h.file hbase]
    exact hbase
  have hne : pipeFd ≠ fd := by
    rintro rfl
    exact hfd hfree
  obtain ⟨hnew, hafter⟩ := FdTable.dup_after_close htaken hne hfile
  show (if _ = (fd : Int) then _ else _ : Program Mark).wp Q m _
  rw [if_pos hnew]
  exact hk _ (h.update hfd hafter)

/-- The ends of a pipe by its number. -/
theorem Holds.get (h : Holds base t pipesFd pipes) {j q : Nat} (hq : pipes[j]? = some q) :
    ∃ p, pipesFd[j]? = some p ∧ p ∈ pipesFd ∧ Ends t p q := by
  obtain ⟨hj, rfl⟩ := List.getElem?_eq_some_iff.mp hq
  have hj' : j < pipesFd.length := h.ends.length_eq ▸ hj
  exact ⟨pipesFd[j], List.getElem?_eq_getElem hj', List.getElem_mem hj', (List.forall₂_iff_get.mp h.ends).2 j hj' hj⟩

/-- `base` after `receive`. -/
def received (base : Nat → Option File) (i : Nat) (pipes : List Nat) : Nat → Option File :=
  if i > 0 then connected base 0 (.pipeRead (pipes.getD (i - 1) 0)) else base

/-- `base` after `send`. -/
def sent (base : Nat → Option File) (i n : Nat) (pipes : List Nat) : Nat → Option File :=
  if i < n - 1 then connected base 1 (.pipeWrite (pipes.getD i 0)) else base

theorem Holds.receive (h : Holds base t pipesFd pipes) (h₀ : base 0 ≠ none) {i : Nat} (hi : i ≤ pipes.length)
    (hk : ∀ t', Holds (received base i pipes) t' pipesFd pipes → k.wp Q m t') : (receive i pipesFd k).wp Q m t := by
  unfold Shell.receive
  unfold received at hk
  split
  · rename_i hpos
    rw [if_pos hpos] at hk
    have hq : pipes[i - 1]? = some (pipes.getD (i - 1) 0) := by
      rw [List.getD_eq_getElem?_getD, List.getElem?_eq_getElem (by omega)]
      rfl
    obtain ⟨p, hp, hmem, hends⟩ := h.get hq
    rw [hp]
    refine h.connect (fun x hx => ?_) (h.free p hmem).1 hends.read hk
    rw [Nat.le_zero.mp hx]
    exact h₀
  · rename_i hpos
    rw [if_neg hpos] at hk
    exact hk t h

theorem Holds.send (h : Holds base t pipesFd pipes) (h₀ : base 0 ≠ none) (h₁ : base 1 ≠ none) {i : Nat}
    (hn : pipes.length + 1 = n) (hk : ∀ t', Holds (sent base i n pipes) t' pipesFd pipes → k.wp Q m t') :
    (send i n pipesFd k).wp Q m t := by
  unfold Shell.send
  unfold sent at hk
  split
  · rename_i hlt
    rw [if_pos hlt] at hk
    have hq : pipes[i]? = some (pipes.getD i 0) := by
      rw [List.getD_eq_getElem?_getD, List.getElem?_eq_getElem (by omega)]
      rfl
    obtain ⟨p, hp, hmem, hends⟩ := h.get hq
    rw [hp]
    refine h.connect (fun x hx => ?_) (h.free p hmem).2 hends.write hk
    rcases Nat.le_one_iff_eq_zero_or_eq_one.mp hx with rfl | rfl
    · exact h₀
    · exact h₁
  · rename_i hlt
    rw [if_neg hlt] at hk
    exact hk t h

/-- Closing the ends of the pipes leaves `base`. -/
theorem closePipes_wp (hfree : ∀ p ∈ pipesFd, base p.1 = none ∧ base p.2 = none)
    (hrest : ∀ x, (∀ p ∈ pipesFd, x ≠ p.1 ∧ x ≠ p.2) → t.file x = base x)
    (hk : ∀ t', t'.file = base → k.wp Q m t') : (closePipes pipesFd k).wp Q m t := by
  induction pipesFd generalizing t with
  | nil => exact hk t (funext fun x => hrest x fun _ hp => absurd hp List.not_mem_nil)
  | cons p pipesFd ih =>
    have hp := hfree p List.mem_cons_self
    refine ih (fun r hr => hfree r (List.mem_cons_of_mem _ hr)) fun x hx => ?_
    rw [FdTable.file_sysClose, FdTable.file_sysClose]
    by_cases h2 : x = p.2
    · rw [h2, Function.update_self, hp.2]
    rw [Function.update_of_ne h2]
    by_cases h1 : x = p.1
    · rw [h1, Function.update_self, hp.1]
    rw [Function.update_of_ne h1]
    refine hrest x fun r hr => ?_
    rcases List.mem_cons.mp hr with rfl | hr
    · exact ⟨h1, h2⟩
    · exact hx r hr

theorem Holds.closePipes (h : Holds base t pipesFd pipes) (hk : ∀ t', t'.file = base → k.wp Q m t') :
    (closePipes pipesFd k).wp Q m t := closePipes_wp h.free h.rest hk

/-! ## The wiring -/

/-- The table of a shell: it has a standard input and output, of its other descriptors no one is anything but
the standard output, and it has no end of a pipe from `known` on. -/
structure Console (shell : FdTable) (known : Nat) : Prop where
  stdin : shell.file 0 ≠ none
  stdout : shell.file 1 ≠ none
  others : ∀ fd ≥ 2, shell.file fd = none ∨ shell.file fd = some .stdout
  read : ∀ q ≥ known, .pipeRead q ∉ shell.files
  write : ∀ q ≥ known, .pipeWrite q ∉ shell.files

/-- The standard input of child `i`. -/
def stdinOf (shell : FdTable) (i : Nat) (pipes : List Nat) (input : List Char) : Option File :=
  if i > 0 then pipes[i - 1]?.map .pipeRead
  else if input.isEmpty then shell.file 0
  else some (.inode (path input) true false)

/-- The standard output of child `i` of `n`. -/
def stdoutOf (shell : FdTable) (i n : Nat) (pipes : List Nat) (output : List Char) : Option File :=
  if i < n - 1 then pipes[i]?.map .pipeWrite
  else if output.isEmpty then shell.file 1
  else some (.inode (path output) false true)

/-- The table of child `i` of `n` at `exec`. -/
structure Wired (shell : FdTable) (known i n : Nat) (pipes : List Nat) (input output : List Char) (t : FdTable) :
    Prop where
  child : i < n
  length : pipes.length + 1 = n
  nodup : pipes.Nodup
  new : ∀ q ∈ pipes, known ≤ q
  stdin : t.file 0 = stdinOf shell i pipes input
  stdout : t.file 1 = stdoutOf shell i n pipes output
  others : ∀ fd ≥ 2, t.file fd = none ∨ t.file fd = some .stdout
  -- of each pipe of the command line one child has the one end, and one child the other
  read : ∀ j q, pipes[j]? = some q → (.pipeRead q ∈ t.files ↔ i = j + 1)
  write : ∀ j q, pipes[j]? = some q → (.pipeWrite q ∈ t.files ↔ i = j)
  -- and there is no end of any other
  foreign : ∀ q ≥ known, q ∉ pipes → .pipeRead q ∉ t.files ∧ .pipeWrite q ∉ t.files

/-- The shell is as before, without an end of the pipes. -/
structure Restored (shell : FdTable) (pipes : List Nat) (t : FdTable) : Prop where
  file : t.file = shell.file
  read : ∀ q ∈ pipes, .pipeRead q ∉ t.files
  write : ∀ q ∈ pipes, .pipeWrite q ∉ t.files

/-- What a mark promises. -/
def Promised (shell : FdTable) (known : Nat) : Mark → FdTable → Prop
  | .exec i n pipes input output, t => Wired shell known i n pipes input output t
  | .closed pipes, t => Restored shell pipes t

section Wiring

variable {shell : FdTable} {known i : Nat} {input output : List Char} {j q : Nat}

theorem redirected_of_ne {fd x : Nat} {string : List Char} {r w : Bool} (hx : x ≠ fd) :
    redirected base fd string r w x = base x := by
  unfold redirected
  split
  · rfl
  · exact Function.update_of_ne hx _ _

theorem received_of_ne {x : Nat} (hx : x ≠ 0) : received base i pipes x = base x := by
  unfold received
  split
  · exact Function.update_of_ne hx _ _
  · rfl

theorem sent_of_ne {x : Nat} (hx : x ≠ 1) : sent base i n pipes x = base x := by
  unfold sent
  split
  · exact Function.update_of_ne hx _ _
  · rfl

/-- `base` after everything a child does. -/
def arranged (base : Nat → Option File) (i n : Nat) (pipes : List Nat) (input output : List Char) : Nat → Option File :=
  sent (received (redirected (redirected base 0 input true false) 1 output false true) i pipes) i n pipes

theorem arranged_zero (hi : i ≤ pipes.length) :
    arranged shell.file i n pipes input output 0 = stdinOf shell i pipes input := by
  rw [arranged, sent_of_ne Nat.zero_ne_one, received, stdinOf]
  split
  · rw [connected, Function.update_self, List.getD_eq_getElem?_getD, List.getElem?_eq_getElem (by omega)]
    rfl
  · rw [redirected_of_ne Nat.zero_ne_one, redirected]
    split
    · rfl
    · exact Function.update_self _ _ _

theorem arranged_one (hn : pipes.length + 1 = n) :
    arranged shell.file i n pipes input output 1 = stdoutOf shell i n pipes output := by
  rw [arranged, sent, stdoutOf]
  split
  · rw [connected, Function.update_self, List.getD_eq_getElem?_getD, List.getElem?_eq_getElem (by omega)]
    rfl
  · rw [received_of_ne Nat.one_ne_zero, redirected]
    split
    · exact redirected_of_ne Nat.one_ne_zero
    · exact Function.update_self _ _ _

theorem arranged_of_two_le {x : Nat} (hx : 2 ≤ x) : arranged base i n pipes input output x = base x := by
  have h₀ : x ≠ 0 := by omega
  have h₁ : x ≠ 1 := by omega
  rw [arranged, sent_of_ne h₁, received_of_ne h₀, redirected_of_ne h₁, redirected_of_ne h₀]

theorem Console.file_ne_read (hc : Console shell known) (hq : known ≤ q) (x : Nat) : shell.file x ≠ some (.pipeRead q) :=
  fun h => hc.read q hq (FdTable.mem_files.mpr ⟨x, h⟩)

theorem Console.file_ne_write (hc : Console shell known) (hq : known ≤ q) (x : Nat) :
    shell.file x ≠ some (.pipeWrite q) :=
  fun h => hc.write q hq (FdTable.mem_files.mpr ⟨x, h⟩)

/-- A number occurs once. -/
theorem nodup_getElem?_iff (hnodup : pipes.Nodup) (hj : pipes[j]? = some q) {x : Nat} : pipes[x]? = some q ↔ x = j := by
  refine ⟨fun hx => ?_, fun hx => hx ▸ hj⟩
  obtain ⟨hxlt, hxq⟩ := List.getElem?_eq_some_iff.mp hx
  obtain ⟨hjlt, hjq⟩ := List.getElem?_eq_some_iff.mp hj
  exact (hnodup.getElem_inj_iff).mp (hxq.trans hjq.symm)

theorem stdinOf_eq_read (hc : Console shell known) (hq : known ≤ q) :
    stdinOf shell i pipes input = some (.pipeRead q) ↔ 0 < i ∧ pipes[i - 1]? = some q := by
  unfold stdinOf
  split
  · rename_i hpos
    rw [Option.map_eq_some_iff]
    constructor
    · rintro ⟨q', hq', heq⟩
      cases heq
      exact ⟨hpos, hq'⟩
    · intro h
      exact ⟨q, h.2, rfl⟩
  · rename_i hpos
    refine ⟨fun h => ?_, fun h => absurd h.1 hpos⟩
    split at h
    · exact absurd h (hc.file_ne_read hq 0)
    · cases h

theorem stdinOf_ne_write (hc : Console shell known) (hq : known ≤ q) :
    stdinOf shell i pipes input ≠ some (.pipeWrite q) := by
  unfold stdinOf
  split
  · intro h
    obtain ⟨_, _, heq⟩ := Option.map_eq_some_iff.mp h
    cases heq
  split
  · exact hc.file_ne_write hq 0
  · intro h
    cases h

theorem stdoutOf_eq_write (hc : Console shell known) (hq : known ≤ q) :
    stdoutOf shell i n pipes output = some (.pipeWrite q) ↔ i < n - 1 ∧ pipes[i]? = some q := by
  unfold stdoutOf
  split
  · rename_i hlt
    rw [Option.map_eq_some_iff]
    constructor
    · rintro ⟨q', hq', heq⟩
      cases heq
      exact ⟨hlt, hq'⟩
    · intro h
      exact ⟨q, h.2, rfl⟩
  · rename_i hlt
    refine ⟨fun h => ?_, fun h => absurd h.1 hlt⟩
    split at h
    · exact absurd h (hc.file_ne_write hq 1)
    · cases h

theorem stdoutOf_ne_read (hc : Console shell known) (hq : known ≤ q) :
    stdoutOf shell i n pipes output ≠ some (.pipeRead q) := by
  unfold stdoutOf
  split
  · intro h
    obtain ⟨_, _, heq⟩ := Option.map_eq_some_iff.mp h
    cases heq
  split
  · exact hc.file_ne_read hq 1
  · intro h
    cases h

/-- Where a file can be that is not the standard output. -/
theorem mem_files_of_others (hothers : ∀ fd ≥ 2, t.file fd = none ∨ t.file fd = some .stdout) {f : File}
    (hf : f ≠ .stdout) : f ∈ t.files ↔ t.file 0 = some f ∨ t.file 1 = some f := by
  rw [FdTable.mem_files]
  constructor
  · rintro ⟨fd, hfd⟩
    match fd with
    | 0 => exact .inl hfd
    | 1 => exact .inr hfd
    | fd + 2 =>
      rcases hothers (fd + 2) (by omega) with h | h
      · rw [h] at hfd
        cases hfd
      · rw [h] at hfd
        exact absurd (Option.some.inj hfd).symm hf
  · rintro (h | h)
    · exact ⟨0, h⟩
    · exact ⟨1, h⟩

theorem wired_of_file (hc : Console shell known) (hi : i < n) (hlength : pipes.length + 1 = n) (hnodup : pipes.Nodup)
    (hnew : ∀ q ∈ pipes, known ≤ q) (hfile : t.file = arranged shell.file i n pipes input output) :
    Wired shell known i n pipes input output t := by
  have h₀ : t.file 0 = stdinOf shell i pipes input := by rw [hfile, arranged_zero (by omega)]
  have h₁ : t.file 1 = stdoutOf shell i n pipes output := by rw [hfile, arranged_one hlength]
  have h₂ : ∀ fd ≥ 2, t.file fd = none ∨ t.file fd = some .stdout := fun fd hfd => by
    rw [hfile, arranged_of_two_le hfd]
    exact hc.others fd hfd
  have hread : ∀ q ≥ known, (.pipeRead q ∈ t.files ↔ 0 < i ∧ pipes[i - 1]? = some q) := fun q hq => by
    rw [mem_files_of_others h₂ (by simp), h₀, h₁, stdinOf_eq_read hc hq]
    exact or_iff_left (stdoutOf_ne_read hc hq)
  have hwrite : ∀ q ≥ known, (.pipeWrite q ∈ t.files ↔ i < n - 1 ∧ pipes[i]? = some q) := fun q hq => by
    rw [mem_files_of_others h₂ (by simp), h₀, h₁, stdoutOf_eq_write hc hq]
    exact or_iff_right (stdinOf_ne_write hc hq)
  refine ⟨hi, hlength, hnodup, hnew, h₀, h₁, h₂, fun j q hj => ?_, fun j q hj => ?_, fun q hq hmem => ⟨?_, ?_⟩⟩
  · rw [hread q (hnew q (List.mem_of_getElem? hj)), nodup_getElem?_iff hnodup hj]
    omega
  · have hlt : j < pipes.length := (List.getElem?_eq_some_iff.mp hj).1
    rw [hwrite q (hnew q (List.mem_of_getElem? hj)), nodup_getElem?_iff hnodup hj]
    omega
  · rw [hread q hq]
    rintro ⟨-, h⟩
    exact hmem (List.mem_of_getElem? h)
  · rw [hwrite q hq]
    rintro ⟨-, h⟩
    exact hmem (List.mem_of_getElem? h)

/-! ## The shell -/

/-- The pipes made so far for a command line. -/
structure Fresh (known : Nat) (pipes : List Nat) (m : Nat) : Prop where
  nodup : pipes.Nodup
  new : ∀ q ∈ pipes, known ≤ q
  made : ∀ q ∈ pipes, q < m

theorem Fresh.nil : Fresh known [] m :=
  ⟨.nil, fun _ hq => absurd hq List.not_mem_nil, fun _ hq => absurd hq List.not_mem_nil⟩

/-- One more pipe. -/
theorem Fresh.append (h : Fresh known pipes m) (hm : known ≤ m) (hq : m ≤ q) : Fresh known (pipes ++ [q]) (q + 1) := by
  refine ⟨?_, fun r hr => ?_, fun r hr => ?_⟩
  · rw [List.nodup_append]
    refine ⟨h.nodup, List.nodup_singleton q, fun a ha b hb => ?_⟩
    rw [List.mem_singleton] at hb
    have := h.made a ha
    omega
  · rcases List.mem_append.mp hr with hold | hnew
    · exact h.new r hold
    · rw [List.mem_singleton] at hnew
      omega
  · rcases List.mem_append.mp hr with hold | hnew
    · have := h.made r hold
      omega
    · rw [List.mem_singleton] at hnew
      omega

theorem child_wp (hc : Console shell known) (h : Holds shell.file t pipesFd pipes) (hi : i < n)
    (hlength : pipes.length + 1 = n) (hfresh : Fresh known pipes m) (arg : ProcessArguments) :
    (child i n pipesFd pipes arg).wp (Promised shell known) m t := by
  refine h.redirect (fun x hx => ?_) fun t₁ h₁ => h₁.redirect (fun x hx => ?_) fun t₂ h₂ =>
    h₂.receive ?_ (by omega) fun t₃ h₃ => h₃.send ?_ ?_ hlength fun t₄ h₄ => h₄.closePipes fun t₅ h₅ => ?_
  · rw [Nat.le_zero.mp hx]
    exact hc.stdin
  · refine redirected_taken ?_
    rcases Nat.le_one_iff_eq_zero_or_eq_one.mp hx with rfl | rfl
    · exact hc.stdin
    · exact hc.stdout
  · exact redirected_taken (redirected_taken hc.stdin)
  · unfold received
    split
    · exact connected_taken (redirected_taken (redirected_taken hc.stdin))
    · exact redirected_taken (redirected_taken hc.stdin)
  · rw [received_of_ne Nat.one_ne_zero]
    exact redirected_taken (redirected_taken hc.stdout)
  · split
    · trivial
    · exact ⟨wired_of_file hc hi hlength hfresh.nodup hfresh.new h₅, trivial⟩

theorem forkAll_wp (hc : Console shell known) (h : Holds shell.file t pipesFd pipes)
    (hlength : pipes.length + 1 = n) (hfresh : Fresh known pipes m) {args : List ProcessArguments}
    (hi : i + args.length = n) {children : List Nat} {k : List Nat → Program Mark}
    (hk : ∀ children, (k children).wp (Promised shell known) m t) :
    (forkAll n pipesFd pipes args i children k).wp (Promised shell known) m t := by
  induction args generalizing i children with
  | nil => exact hk children
  | cons arg args ih =>
    rw [List.length_cons] at hi
    refine ⟨child_wp hc h (by omega) hlength hfresh arg, fun pid hpid => ?_⟩
    show (if pid = 0 then _ else _ : Program Mark).wp _ m t
    rw [if_neg hpid]
    exact ih (by omega)

theorem createPipes_wp (h : Holds base t pipesFd pipes) (hfresh : Fresh known pipes m) (hm : known ≤ m) {c : Nat}
    {k : List (Nat × Nat) → List Nat → Program Mark}
    (hk : ∀ t' pipesFd' pipes' m', m ≤ m' → Holds base t' pipesFd' pipes' → Fresh known pipes' m' →
      pipes'.length = pipes.length + c → (k pipesFd' pipes').wp Q m' t') :
    (createPipes c pipesFd pipes k).wp Q m t := by
  induction c generalizing t pipesFd pipes m with
  | zero => exact hk t pipesFd pipes m (Nat.le_refl _) h hfresh rfl
  | succ c ih =>
    intro q hq
    refine ih (h.pipe q) (hfresh.append hm hq) (by omega) fun t' pipesFd' pipes' m' hm' h' hfresh' hlength => ?_
    rw [List.length_append, List.length_singleton] at hlength
    exact hk t' pipesFd' pipes' m' (by omega) h' hfresh' (by omega)

theorem waitAll_wp {children : List Nat} (hk : k.wp Q m t) : (waitAll children k).wp Q m t := by
  induction children with
  | nil => exact hk
  | cons pid children ih => exact ih

theorem execute_wp (hc : Console shell known) (hm : known ≤ m) (ht : t.file = shell.file) {list : List ProcessArguments}
    (hlist : list ≠ []) (hk : ∀ m' t', known ≤ m' → t'.file = shell.file → k.wp (Promised shell known) m' t') :
    (execute list k).wp (Promised shell known) m t := by
  have hpos : 0 < list.length := List.length_pos_iff.mpr hlist
  refine createPipes_wp (.nil ht) .nil hm
    fun t₁ pipesFd pipes m₁ hm₁ h₁ hfresh hlength => ?_
  rw [List.length_nil] at hlength
  refine forkAll_wp hc h₁ (by omega) hfresh (by omega) fun children => h₁.closePipes fun t₂ h₂ => ⟨?_, ?_⟩
  · refine ⟨h₂, fun q hq hmem => ?_, fun q hq hmem => ?_⟩
    · obtain ⟨x, hx⟩ := FdTable.mem_files.mp hmem
      exact hc.file_ne_read (hfresh.new q hq) x (h₂ ▸ hx)
    · obtain ⟨x, hx⟩ := FdTable.mem_files.mp hmem
      exact hc.file_ne_write (hfresh.new q hq) x (h₂ ▸ hx)
  · exact waitAll_wp (hk m₁ t₂ (by omega) h₂)

theorem ne_nil_of_mapM {commands : List (List Char)} {list : List ProcessArguments} (h : commands ≠ [])
    (hlist : commands.mapM ProcessArguments.new = some list) : list ≠ [] := by
  rintro rfl
  exact h (List.forall₂_nil_right_iff.mp (mapM_eq_some.mp hlist))

theorem runLine_wp (hc : Console shell known) (hm : known ≤ m) (ht : t.file = shell.file) (line : List Char)
    (hk : ∀ m' t', known ≤ m' → t'.file = shell.file → k.wp (Promised shell known) m' t') :
    (runLine line k).wp (Promised shell known) m t := by
  unfold runLine
  split
  · trivial
  · rename_i list hparse
    split
    · exact execute_wp hc hm ht (ne_nil_of_mapM (List.splitOn_ne_nil _ _) hparse) hk
    · exact hk m t hm ht

theorem main_wp (hc : Console shell known) (hm : known ≤ m) (ht : t.file = shell.file) (typed : List UInt8)
    (line : List Char) : (main typed line).wp (Promised shell known) m t := by
  induction typed generalizing m t line with
  | nil => trivial
  | cons c typed ih =>
    unfold main
    split
    · split
      · exact ih hm ht []
      · exact runLine_wp hc hm ht line fun m' t' hm' ht' => ih hm' ht' []
    · split
      · exact ih hm ht _
      · exact ih hm ht _

/-- **Every pipeline is wired correctly**, whatever is typed: no assertion on the result of `dup` fails,
every child has its descriptors right when it calls `exec`, and the shell has no end of a pipe after the
children are forked. -/
theorem shell_wires_pipelines {typed : List UInt8} {w : World Mark} (hc : Console shell known)
    (hw : World.Reached (.start shell (main typed []) known) w) :
    (∀ t, (t, Program.assertFailed) ∉ w.processes) ∧
      (∀ i n pipes input output t, (Mark.exec i n pipes input output, t) ∈ w.marks →
        Wired shell known i n pipes input output t) ∧
      ∀ pipes t, (Mark.closed pipes, t) ∈ w.marks → Restored shell pipes t := by
  have hok := hw.ok (World.Ok.of_start (main_wp hc (Nat.le_refl _) rfl typed []))
  refine ⟨hok.assert, fun i n pipes input output t hmem => ?_, fun pipes t hmem => ?_⟩
  · exact hok.marks _ hmem
  · exact hok.marks _ hmem

/-- The table that the kernel gives to a program is one. -/
theorem console_new (known : Nat) : Console FdTable.new known := by
  refine ⟨Option.some_ne_none _, Option.some_ne_none _, fun fd hfd => ?_, fun q _ h => ?_, fun q _ h => ?_⟩
  · match fd with
    | 2 => exact .inr rfl
    | fd + 3 => exact .inl rfl
  · simp [FdTable.new, FdTable.files] at h
  · simp [FdTable.new, FdTable.files] at h

/-- The child in the middle of `a < x|b|c > y`. -/
theorem shell_wires_pipelines_run : ∃ w t,
    World.Reached (.start FdTable.new (main [97, 32, 60, 32, 120, 124, 98, 124, 99, 32, 62, 32, 121, 10] []) 0) w ∧
      (Mark.exec 1 3 [0, 1] [] [], t) ∈ w.marks ∧ Wired FdTable.new 0 1 3 [0, 1] [] [] t := by
  have hrun : ((World.start FdTable.new (main [97, 32, 60, 32, 120, 124, 98, 124, 99, 32, 62, 32, 121, 10] [])
      0).runs (List.replicate 4 (0, true) ++ List.replicate 9 (2, true))).any
        (fun w => w.marks.any fun m => decide (m.1 = Mark.exec 1 3 [0, 1] [] [])) = true := by decide +kernel
  obtain ⟨w, hw, hmarks⟩ := (Option.any_eq_true _ _).mp hrun
  obtain ⟨⟨mark, t⟩, hmem, hmark⟩ := List.any_eq_true.mp hmarks
  cases of_decide_eq_true hmark
  have hreached := World.Reached.start.runs _ hw
  exact ⟨w, t, hreached, hmem, (shell_wires_pipelines (console_new 0) hreached).2.1 _ _ _ _ _ _ hmem⟩

end Wiring

end RCore.User.Shell
