import RCore.Fs.Descriptors
import RCore.Fs.Verify.Pipe

/-!
# Who holds the write end of a pipe

The strong count of a write end is the number of descriptors for it, in the tables of all processes that
have not been collected, and of suspended calls that hold it. A process that has exited keeps its table
until its parent collects it, so that its descriptors count although nobody can write to them.
-/

namespace RCore.Fs

open RCore Mm

/-- The files that a process holds. -/
def Process.held (q : Process) : List File := q.fdTable.files ++ q.call.toList.map Prod.fst

namespace FdSystem

variable {s s' : FdSystem} {p i : Nat} {q q' : Process} {file : File} {b b' fs : List File}

/-- All files that processes hold. -/
def held (s : FdSystem) : List File := s.processes.flatMap Process.held

/-- The strong count of the write end of a pipe. -/
def strong (s : FdSystem) (i : Nat) : Nat := (s.pipes[i]?.map PipeState.writeEnds).getD 0

/-- The strong counts are right but for the files of `b`, which are held by no process. -/
def Surplus (s : FdSystem) (b : List File) : Prop :=
  ∀ i, s.strong i = s.held.count (.pipeWrite i) + b.count (.pipeWrite i)

/-! ## Processes -/

theorem count_held_set (h : s.processes[p]? = some q) (q' : Process) (f : File) :
    ((s.processes.set p q').flatMap Process.held).count f + q.held.count f = s.held.count f + q'.held.count f := by
  have hlist : ∀ (l : List Process) (p : Nat), l[p]? = some q →
      ((l.set p q').flatMap Process.held).count f + q.held.count f =
        (l.flatMap Process.held).count f + q'.held.count f := by
    intro l
    induction l with
    | nil => exact fun _ h => by cases h
    | cons r l ih =>
      intro p h
      cases p with
      | zero =>
        cases h
        simp only [List.set_cons_zero, List.flatMap_cons, List.count_append]
        omega
      | succ p =>
        have hp := ih p h
        simp only [List.set_cons_succ, List.flatMap_cons, List.count_append]
        omega
  exact hlist s.processes p h

theorem Surplus.set (h : s.Surplus b) (q' : Process) (b' : List File) (hp : s.processes[p]? = some q)
    (hq : ∀ i, q'.held.count (.pipeWrite i) + b'.count (.pipeWrite i) =
      q.held.count (.pipeWrite i) + b.count (.pipeWrite i)) :
    Surplus { s with processes := s.processes.set p q' } b' := by
  intro i
  have hset := count_held_set hp q' (.pipeWrite i)
  have hbal := hq i
  have hs := h i
  show s.strong i = ((s.processes.set p q').flatMap Process.held).count (.pipeWrite i) + b'.count (.pipeWrite i)
  omega

/-- A file that is held has a positive count. -/
theorem Surplus.pos (h : s.Surplus b) (hp : s.processes[p]? = some q) (hf : .pipeWrite i ∈ q.held) :
    0 < s.strong i := by
  have hmem : .pipeWrite i ∈ s.held := List.mem_flatMap.mpr ⟨q, List.mem_of_getElem? hp, hf⟩
  have hpos := List.count_pos_iff.mpr hmem
  have hs := h i
  omega

/-! ## Strong counts -/

/-- What a change of strong counts leaves alone. -/
structure SameHolders (s s' : FdSystem) : Prop where
  processes : s'.processes = s.processes
  length : s'.pipes.length = s.pipes.length
  mem : s'.mem = s.mem

theorem count_wlp (file : File) (f : Nat → Nat) (s : FdSystem) : (count file f).wlp (fun _ s' =>
    s.SameHolders s' ∧ ∀ i, s'.strong i = if file = .pipeWrite i ∧ i < s.pipes.length then f (s.strong i)
      else s.strong i) s := by
  cases file with
  | pipeWrite j =>
    rw [count, Comp.wlp_modify]
    refine ⟨⟨rfl, List.length_modify .., rfl⟩, fun i => ?_⟩
    simp only [strong, List.getElem?_modify, File.pipeWrite.injEq]
    by_cases hij : j = i
    · subst hij
      by_cases hlt : j < s.pipes.length
      · simp [hlt]
      · simp [hlt]
    · simp [hij]
  | _ =>
    show (pure () : Comp FdSystem Unit).wlp _ s
    rw [Comp.wlp_pure]
    exact ⟨⟨rfl, rfl, rfl⟩, fun i => by simp⟩

theorem strong_eq_zero (h : s.pipes.length ≤ i) : s.strong i = 0 := by
  rw [strong, List.getElem?_eq_none h]
  rfl

theorem held_congr (h : s.SameHolders s') : s'.held = s.held := by
  rw [held, held, h.processes]

theorem cloneFile_wlp (h : s.Surplus b) (hpos : ∀ i, file = .pipeWrite i → 0 < s.strong i) :
    (cloneFile file).wlp (fun _ s' => s.SameHolders s' ∧ s'.Surplus (file :: b)) s := by
  refine (count_wlp file _ s).mono fun _ s' hs => ⟨hs.1, fun i => ?_⟩
  rw [hs.2 i, held_congr hs.1, List.count_cons]
  have hi := h i
  by_cases hf : file = .pipeWrite i
  · have hlt : i < s.pipes.length := by
      by_contra hle
      exact absurd (hpos i hf) (by rw [strong_eq_zero (Nat.le_of_not_lt hle)]; exact Nat.lt_irrefl 0)
    simp only [hf, hlt, and_self, if_true, beq_self_eq_true]
    omega
  · simp only [hf, false_and, if_false, beq_iff_eq]
    omega

theorem dropFile_wlp (h : s.Surplus (file :: b)) :
    (dropFile file).wlp (fun _ s' => s.SameHolders s' ∧ s'.Surplus b) s := by
  refine (count_wlp file _ s).mono fun _ s' hs => ⟨hs.1, fun i => ?_⟩
  rw [hs.2 i, held_congr hs.1]
  have hi := h i
  rw [List.count_cons] at hi
  by_cases hf : file = .pipeWrite i
  · have hlt : i < s.pipes.length := by
      by_contra hle
      rw [strong_eq_zero (Nat.le_of_not_lt hle)] at hi
      simp [hf] at hi
    simp only [hf, hlt, and_self, if_true, beq_self_eq_true] at hi ⊢
    omega
  · simp only [hf, false_and, if_false, beq_iff_eq] at hi ⊢
    omega

theorem SameHolders.trans {s₁ : FdSystem} (h : s.SameHolders s₁) (h' : s₁.SameHolders s') : s.SameHolders s' :=
  ⟨h'.processes.trans h.processes, h'.length.trans h.length, h'.mem.trans h.mem⟩

theorem cloneFiles_wlp (h : s.Surplus b) (hp : s.processes[p]? = some q) (hfs : ∀ f ∈ fs, f ∈ q.held) :
    (forFiles cloneFile fs).wlp (fun _ s' => s.SameHolders s' ∧ s'.Surplus (fs ++ b)) s := by
  induction fs generalizing s b with
  | nil =>
    rw [forFiles, Comp.wlp_pure]
    exact ⟨⟨rfl, rfl, rfl⟩, h⟩
  | cons f fs ih =>
    rw [forFiles, Comp.wlp_bind]
    have hf : ∀ i, f = .pipeWrite i → 0 < s.strong i := by
      rintro i rfl
      exact h.pos hp (hfs _ List.mem_cons_self)
    refine (cloneFile_wlp h hf).mono ?_
    rintro _ s₁ ⟨hsame, h₁⟩
    have hp₁ : s₁.processes[p]? = some q := by rw [hsame.processes, hp]
    refine (ih h₁ hp₁ fun g hg => hfs g (List.mem_cons_of_mem _ hg)).mono ?_
    rintro _ s' ⟨hsame', h'⟩
    refine ⟨hsame.trans hsame', fun i => ?_⟩
    have hi := h' i
    simp only [List.cons_append, List.count_append, List.count_cons] at hi ⊢
    omega

theorem dropFiles_wlp (h : s.Surplus (fs ++ b)) :
    (forFiles dropFile fs).wlp (fun _ s' => s.SameHolders s' ∧ s'.Surplus b) s := by
  induction fs generalizing s with
  | nil =>
    rw [forFiles, Comp.wlp_pure]
    exact ⟨⟨rfl, rfl, rfl⟩, h⟩
  | cons f fs ih =>
    rw [forFiles, Comp.wlp_bind]
    refine (dropFile_wlp h).mono ?_
    rintro _ s₁ ⟨hsame, h₁⟩
    exact (ih h₁).mono fun _ s' ⟨hsame', h'⟩ => ⟨hsame.trans hsame', h'⟩

/-! ## Calls -/

theorem moveBatch_writeEnds {move : Nat → Comp PipeState UInt8}
    (hmove : ∀ a ps, (move a).wlp (fun _ ps' => ps'.writeEnds = ps.writeEnds) ps) (n : Nat) (t : Transfer)
    (ps : PipeState) : (Pipe.moveBatch move n t).wlp (fun _ ps' => ps'.writeEnds = ps.writeEnds) ps := by
  induction n generalizing t ps with
  | zero =>
    rw [Pipe.moveBatch, Comp.wlp_pure]
  | succ n ih =>
    rw [Pipe.moveBatch, Comp.wlp_bind]
    refine (UserBufferIterator.next_wlp t.bufIter ps).mono ?_
    rintro ⟨byteRef, bufIter⟩ ps₁ ⟨rfl, _⟩
    cases byteRef with
    | none => simp only [Comp.wlp_pure]
    | some a =>
      simp only [Comp.wlp_bind]
      refine (hmove a ps₁).mono fun c ps₂ h₂ => ?_
      exact (ih _ ps₂).mono fun _ ps' h' => h'.trans h₂

theorem moveLoop_writeEnds {room : PipeState → Nat} {closed : PipeState → Bool} {move : Nat → Comp PipeState UInt8}
    (hmove : ∀ a ps, (move a).wlp (fun _ ps' => ps'.writeEnds = ps.writeEnds) ps) (fuel : Nat) (t : Transfer)
    (ps : PipeState) : (Pipe.moveLoop room closed move fuel t).wlp (fun _ ps' => ps'.writeEnds = ps.writeEnds) ps := by
  induction fuel generalizing t ps with
  | zero =>
    rw [Pipe.moveLoop, Comp.wlp_panic]
    trivial
  | succ fuel ih =>
    rw [Pipe.moveLoop]
    simp only [Comp.wlp_bind, Comp.wlp_get]
    split
    · split
      · rw [Comp.wlp_pure]
      · rw [Comp.wlp_pure]
    · rw [Comp.wlp_bind]
      refine (moveBatch_writeEnds hmove _ t ps).mono ?_
      rintro ⟨ended, t₁⟩ ps₁ h₁
      split
      · rw [Comp.wlp_pure]
        exact h₁
      · exact (ih t₁ ps₁).mono fun _ ps' h' => h'.trans h₁

theorem resumeRead_writeEnds (t : Transfer) (ps : PipeState) :
    (Pipe.resumeRead t).wlp (fun _ ps' => ps'.writeEnds = ps.writeEnds) ps := by
  refine moveLoop_writeEnds (fun a ps => ?_) _ t ps
  simp only [Pipe.readMove, PipeState.readByte, Comp.wlp_bind, Comp.wlp_get, Comp.wlp_modify, Comp.wlp_pure]

theorem resumeWrite_writeEnds (t : Transfer) (ps : PipeState) :
    (Pipe.resumeWrite t).wlp (fun _ ps' => ps'.writeEnds = ps.writeEnds) ps := by
  refine moveLoop_writeEnds (fun a ps => ?_) _ t ps
  simp only [Pipe.writeMove, PipeState.writeByte, Comp.wlp_bind, Comp.wlp_get, Comp.wlp_modify, Comp.wlp_pure]

theorem onPipe_wlp {α : Type} {x : Comp PipeState α}
    (hx : ∀ ps, x.wlp (fun _ ps' => ps'.writeEnds = ps.writeEnds) ps) (s : FdSystem) (i : Nat) :
    (onPipe i x).wlp (fun _ s' => s'.processes = s.processes ∧ ∀ j, s'.strong j = s.strong j) s := by
  simp only [onPipe, Comp.wlp_bind, Comp.wlp_get, Comp.wlp_unwrap, Comp.wlp_modify, Comp.wlp_pure]
  intro ps hps r hrun
  have hends := hx _ r.1 r.2 hrun
  refine ⟨trivial, fun j => ?_⟩
  simp only [strong, List.getElem?_set]
  by_cases hij : i = j
  · subst hij
    obtain ⟨hlt, rfl⟩ := List.getElem?_eq_some_iff.mp hps
    simp [hlt, hends]
  · simp [hij]

/-! ## The invariant -/

/-- What every process keeps: only a process that runs is in a call, and then its table has the file; one
that has been collected holds nothing. -/
structure Tidy (q : Process) : Prop where
  call : ∀ f c, q.call = some (f, c) → q.status = .running ∧ f ∈ q.fdTable.files
  gone : q.status = .gone → q.fdTable = []

/-- The strong counts are right. -/
structure Sound (s : FdSystem) : Prop where
  counted : s.Surplus []
  tidy : ∀ q ∈ s.processes, Tidy q

theorem sound_start (mem : Mem) : (start mem).Sound := by
  refine ⟨fun i => ?_, fun q hq => ?_⟩
  · simp [strong, start, held, Process.held, FdTable.files, FdTable.new]
  · rw [start, List.mem_singleton] at hq
    subst hq
    exact ⟨fun _ _ hc => (by cases hc), fun hg => (by cases hg)⟩

theorem tidy_set (h : ∀ q ∈ s.processes, Tidy q) (p : Nat) (hq : Tidy q') :
    ∀ q ∈ s.processes.set p q', Tidy q := by
  intro q hmem
  rcases List.mem_or_eq_of_mem_set hmem with hold | rfl
  · exact h q hold
  · exact hq

/-- A process that makes a system call is in no other. -/
theorem caller_wlp (p : Nat) (s : FdSystem) : (caller p).wlp (fun q s' => s = s' ∧
    s.processes[p]? = some q ∧ q.status = .running ∧ q.call = none) s := by
  simp only [caller, process, Comp.wlp_bind, Comp.wlp_get, Comp.wlp_unwrap, Comp.wlp_assert, Comp.wlp_pure]
  exact fun q hq hok => ⟨trivial, hq, hok.1, Option.isNone_iff_eq_none.mp hok.2⟩

theorem held_of_call (h : q.call = none) : q.held = q.fdTable.files := by
  rw [Process.held, h]
  exact List.append_nil _

/-- The caller has changed its table only. -/
theorem Sound.setTable (h : ∀ q ∈ s.processes, Tidy q) (hsur : s.Surplus b) (t : FdTable) (b' : List File)
    (hp : s.processes[p]? = some q) (hrun : q.status = .running) (hcall : q.call = none)
    (ht : ∀ i, t.files.count (.pipeWrite i) + b'.count (.pipeWrite i) =
      q.fdTable.files.count (.pipeWrite i) + b.count (.pipeWrite i)) :
    Surplus { s with processes := s.processes.set p { q with fdTable := t } } b' ∧
      ∀ r ∈ s.processes.set p { q with fdTable := t }, Tidy r := by
  have htidy : Tidy { q with fdTable := t } := by
    refine ⟨fun f c hc => ?_, fun hg => ?_⟩
    · rw [show q.call = _ from hc] at hcall
      cases hcall
    · rw [show q.status = _ from hg] at hrun
      cases hrun
  refine ⟨hsur.set _ _ hp fun i => ?_, tidy_set h p htidy⟩
  rw [held_of_call hcall, held_of_call (q := { q with fdTable := t }) hcall]
  exact ht i

theorem attend_wlp {call : Transfer → Call} {x : Comp PipeState Outcome}
    (hx : ∀ ps, x.wlp (fun _ ps' => ps'.writeEnds = ps.writeEnds) ps) (htidy : ∀ q ∈ s.processes, Tidy q)
    (hp : s.processes[p]? = some q) (hrun : q.status = .running) (hf : file ∈ q.fdTable.files)
    (hsur : s.Surplus b) (hb : ∀ i, (q.call.toList.map Prod.fst).count (.pipeWrite i) + b.count (.pipeWrite i) =
      [file].count (.pipeWrite i)) :
    (attend p i file call x).wlp (fun _ s' => s'.Sound) s := by
  simp only [attend, process, Comp.wlp_bind, Comp.wlp_get, Comp.wlp_unwrap]
  intro q₀ hq₀
  cases hp.symm.trans hq₀
  refine (onPipe_wlp hx s i).mono ?_
  rintro o s₁ ⟨hproc, hstrong⟩
  have hp₁ : s₁.processes[p]? = some q := by rw [hproc, hp]
  have htidy₁ : ∀ q ∈ s₁.processes, Tidy q := hproc ▸ htidy
  have hheld : s₁.held = s.held := by rw [held, held, hproc]
  have hsur₁ : s₁.Surplus b := fun j => by rw [hstrong, hheld, hsur j]
  cases o with
  | returned t =>
    have hset : Surplus { s₁ with processes := s₁.processes.set p { q with call := none } } [file] := by
      refine hsur₁.set _ _ hp₁ fun j => ?_
      have hbj := hb j
      simp only [Process.held, Option.toList_none, List.map_nil, List.append_nil, List.count_append]
      omega
    simp only [setProcess, Comp.wlp_bind, Comp.wlp_modify, Comp.wlp_pure]
    refine (dropFile_wlp hset).mono ?_
    rintro _ s₂ ⟨hsame, h₂⟩
    refine ⟨h₂, ?_⟩
    rw [hsame.processes]
    exact tidy_set htidy₁ p ⟨fun f c hc => (by cases hc), (htidy q (List.mem_of_getElem? hp)).gone⟩
  | suspended t =>
    simp only [setProcess, Comp.wlp_bind, Comp.wlp_modify, Comp.wlp_pure]
    refine ⟨hsur₁.set _ _ hp₁ fun j => ?_, tidy_set htidy₁ p ⟨fun f c hc => ?_, ?_⟩⟩
    · have hbj := hb j
      simp only [Process.held, Option.toList_some, List.map_cons, List.map_nil, List.count_append, List.count_nil]
      omega
    · cases hc
      exact ⟨hrun, hf⟩
    · exact (htidy q (List.mem_of_getElem? hp)).gone

/-! ## Steps -/

section Steps

variable (h : s.Sound)
include h

theorem pipe_step (p : Nat) : (step (.pipe p)).wlp (fun _ s' => s'.Sound) s := by
  simp only [step, Comp.wlp_bind]
  refine (caller_wlp p s).mono ?_
  rintro q _ ⟨rfl, hp, hrun, hcall⟩
  simp only [setProcess, Comp.wlp_get, Comp.wlp_modify, Comp.wlp_pure]
  -- the new write end is not in a table yet
  have hnew : Surplus { s with pipes := s.pipes ++ [.makePipe s.mem] } [.pipeWrite s.pipes.length] := by
    intro i
    have hi := h.counted i
    show Option.getD (Option.map PipeState.writeEnds (s.pipes ++ [.makePipe s.mem])[i]?) 0 = s.held.count _ + _
    rcases Nat.lt_trichotomy i s.pipes.length with hlt | rfl | hgt
    · rw [List.getElem?_append_left hlt]
      have hne : (File.pipeWrite s.pipes.length == .pipeWrite i) = false := by simp [Nat.ne_of_gt hlt]
      simp only [List.count_cons, List.count_nil, hne]
      exact hi
    · rw [strong_eq_zero (Nat.le_refl _)] at hi
      rw [List.getElem?_append_right (Nat.le_refl _), Nat.sub_self]
      simp only [List.count_cons, List.count_nil, beq_self_eq_true, if_true] at hi ⊢
      show 1 = _
      omega
    · rw [strong_eq_zero (Nat.le_of_lt hgt)] at hi
      have hne : (File.pipeWrite s.pipes.length == .pipeWrite i) = false := by simp [Nat.ne_of_lt hgt]
      rw [List.getElem?_eq_none (by rw [List.length_append]; exact hgt)]
      simp only [List.count_cons, List.count_nil, hne] at hi ⊢
      exact hi
  have htidy : ∀ r ∈ ({ s with pipes := s.pipes ++ [.makePipe s.mem] } : FdSystem).processes, Tidy r := h.tidy
  have hset := Sound.setTable htidy hnew (q.fdTable.sysPipe s.pipes.length).2 [] hp hrun hcall
    fun i => by
      have hread := (FdTable.files_install q.fdTable (.pipeRead s.pipes.length)).count_eq (.pipeWrite i)
      have hwrite := (FdTable.files_install (q.fdTable.install (.pipeRead s.pipes.length)).2
        (.pipeWrite s.pipes.length)).count_eq (.pipeWrite i)
      simp only [FdTable.sysPipe, hwrite, List.count_cons, hread, List.count_nil]
      simp
  exact ⟨hset.1, hset.2⟩

theorem dup_step (p fd : Nat) : (step (.dup p fd)).wlp (fun _ s' => s'.Sound) s := by
  simp only [step, Comp.wlp_bind]
  refine (caller_wlp p s).mono ?_
  rintro q _ ⟨rfl, hp, hrun, hcall⟩
  have hheld : ∀ f ∈ (q.fdTable.file fd).toList, f ∈ q.held := by
    intro f hf
    rw [held_of_call hcall]
    exact FdTable.mem_files.mpr ⟨fd, Option.mem_toList.mp hf⟩
  refine (cloneFiles_wlp h.counted hp hheld).mono ?_
  rintro _ s₁ ⟨hsame, h₁⟩
  simp only [setProcess, Comp.wlp_modify, Comp.wlp_pure]
  have hp₁ : s₁.processes[p]? = some q := by rw [hsame.processes, hp]
  have htidy₁ : ∀ q ∈ s₁.processes, Tidy q := hsame.processes ▸ h.tidy
  have hset := Sound.setTable htidy₁ h₁ (q.fdTable.sysDup fd).2 [] hp₁ hrun hcall fun i => by
    cases hfile : q.fdTable.file fd with
    | none => simp [FdTable.sysDup, hfile]
    | some g =>
      have hperm := (FdTable.files_install q.fdTable g).count_eq (.pipeWrite i)
      simp [FdTable.sysDup, hfile, hperm, List.count_cons]
  exact ⟨hset.1, hset.2⟩

theorem close_step (p fd : Nat) : (step (.close p fd)).wlp (fun _ s' => s'.Sound) s := by
  simp only [step, Comp.wlp_bind]
  refine (caller_wlp p s).mono ?_
  rintro q _ ⟨rfl, hp, hrun, hcall⟩
  simp only [setProcess, Comp.wlp_modify, Comp.wlp_pure]
  have hset := Sound.setTable h.tidy h.counted (q.fdTable.sysClose fd).2 ((q.fdTable.file fd).toList ++ [])
    hp hrun hcall fun i => by
    cases hfile : q.fdTable.file fd with
    | none => simp [FdTable.sysClose, hfile]
    | some g =>
      have hperm := (FdTable.files_set_none hfile).count_eq (.pipeWrite i)
      rw [← hperm]
      simp [FdTable.sysClose, hfile, List.count_cons]
  refine (dropFiles_wlp hset.1).mono ?_
  rintro _ s' ⟨hsame, h'⟩
  refine ⟨h', ?_⟩
  rw [hsame.processes]
  exact hset.2

theorem open_step (p : Nat) (path : List Char) (readable writable found : Bool) :
    (step (.open p path readable writable found)).wlp (fun _ s' => s'.Sound) s := by
  simp only [step, Comp.wlp_bind]
  refine (caller_wlp p s).mono ?_
  rintro q _ ⟨rfl, hp, hrun, hcall⟩
  simp only [setProcess, Comp.wlp_modify, Comp.wlp_pure]
  have hset := Sound.setTable h.tidy h.counted
    (q.fdTable.sysOpen (if found then some (.inode path readable writable) else none)).2 [] hp hrun hcall fun i => by
      cases found with
      | false => simp [FdTable.sysOpen]
      | true =>
        have hperm := (FdTable.files_install q.fdTable (.inode path readable writable)).count_eq (.pipeWrite i)
        simp [FdTable.sysOpen, hperm]
  exact ⟨hset.1, hset.2⟩

theorem fork_step (p : Nat) : (step (.fork p)).wlp (fun _ s' => s'.Sound) s := by
  simp only [step, Comp.wlp_bind]
  refine (caller_wlp p s).mono ?_
  rintro q _ ⟨rfl, hp, hrun, hcall⟩
  simp only [Comp.wlp_get]
  have hheld : ∀ f ∈ q.fdTable.files, f ∈ q.held := by
    rw [held_of_call hcall]
    exact fun f hf => hf
  refine (cloneFiles_wlp h.counted hp hheld).mono ?_
  rintro _ s₁ ⟨hsame, h₁⟩
  simp only [setProcess, Comp.wlp_modify, Comp.wlp_pure]
  have hp₁ : s₁.processes[p]? = some q := by rw [hsame.processes, hp]
  have htidy₁ : ∀ q ∈ s₁.processes, Tidy q := hsame.processes ▸ h.tidy
  have hq := h.tidy q (List.mem_of_getElem? hp)
  have hset := h₁.set { q with children := q.children ++ [s.processes.length] } (q.fdTable.files ++ []) hp₁ fun i => rfl
  have hq' : Tidy { q with children := q.children ++ [s.processes.length] } := ⟨hq.call, hq.gone⟩
  refine ⟨fun i => ?_, fun r hr => ?_⟩
  · have hi := hset i
    show Option.getD (Option.map PipeState.writeEnds s₁.pipes[i]?) 0 =
      ((s₁.processes.set p { q with children := q.children ++ [s.processes.length] } ++
        [(⟨.running, q.fdTable, [], none⟩ : Process)]).flatMap Process.held).count (.pipeWrite i) + _
    rw [List.flatMap_append, List.count_append, List.flatMap_singleton]
    simp only [held, Process.held, strong, List.append_nil, Option.toList_none, List.map_nil, List.count_nil] at hi ⊢
    omega
  · rcases List.mem_append.mp hr with hold | hnew
    · exact tidy_set htidy₁ p hq' r hold
    · rw [List.mem_singleton] at hnew
      subst hnew
      exact ⟨fun _ _ hc => (by cases hc), fun hg => (by cases hg)⟩

theorem exit_step (p : Nat) : (step (.exit p)).wlp (fun _ s' => s'.Sound) s := by
  simp only [step, exit, Comp.wlp_bind]
  refine (caller_wlp p s).mono ?_
  rintro q _ ⟨rfl, hp, hrun, hcall⟩
  simp only [setProcess, process, Comp.wlp_bind, Comp.wlp_assert, Comp.wlp_get, Comp.wlp_unwrap, Comp.wlp_modify,
    Comp.wlp_pure]
  intro hne init hinit
  have hset := h.counted.set { q with status := .zombie, children := [] } [] hp fun i => rfl
  have htidy : ∀ r ∈ s.processes.set p { q with status := .zombie, children := [] }, Tidy r := by
    refine tidy_set h.tidy p ⟨fun f c hc => ?_, fun hg => (by cases hg)⟩
    rw [show q.call = _ from hc] at hcall
    cases hcall
  have hi := htidy init (List.mem_of_getElem? hinit)
  have hinit' : Tidy { init with children := init.children ++ q.children } := ⟨hi.call, hi.gone⟩
  exact ⟨hset.set _ _ hinit fun i => rfl,
    tidy_set (s := { s with processes := s.processes.set p { q with status := .zombie, children := [] } }) htidy 0 hinit'⟩

theorem waitpid_step (p child : Nat) : (step (.waitpid p child)).wlp (fun _ s' => s'.Sound) s := by
  simp only [step, waitpid, Comp.wlp_bind]
  refine (caller_wlp p s).mono ?_
  rintro q _ ⟨rfl, hp, hrun, hcall⟩
  simp only [setProcess, process, Comp.wlp_bind, Comp.wlp_assert, Comp.wlp_get, Comp.wlp_unwrap, Comp.wlp_modify,
    Comp.wlp_pure]
  intro hmem c hc hz
  have hq := h.tidy q (List.mem_of_getElem? hp)
  have hset := h.counted.set { q with children := q.children.erase child } [] hp fun i => rfl
  have hq' : Tidy { q with children := q.children.erase child } := ⟨hq.call, hq.gone⟩
  have htidy := tidy_set h.tidy p hq'
  -- a zombie is in no call
  have hccall : c.call = none := by
    cases hcc : c.call with
    | none => rfl
    | some fc =>
      have hct := (h.tidy c (List.mem_of_getElem? hc)).call fc.1 fc.2 hcc
      rw [hz] at hct
      cases hct.1
  have hc' : (s.processes.set p { q with children := q.children.erase child })[child]? = some c := by
    rw [List.getElem?_set_ne (Ne.symm hmem.2), hc]
  have hset' := hset.set { c with status := .gone, fdTable := [], call := none } (c.fdTable.files ++ [])
    hc' fun i => by
      rw [held_of_call hccall, held_of_call rfl]
      simp [FdTable.files]
  refine (dropFiles_wlp hset').mono ?_
  rintro _ s' ⟨hsame, h'⟩
  refine ⟨h', ?_⟩
  rw [hsame.processes]
  have hc'' : Tidy { c with status := .gone, fdTable := [], call := none } := ⟨fun _ _ hcc => (by cases hcc), fun _ => rfl⟩
  exact tidy_set htidy child hc''

/-- The clone that a call makes of its file is dropped at once. -/
theorem drop_clone {s₁ : FdSystem} (hsame : s.SameHolders s₁) (h₁ : s₁.Surplus [file]) :
    (do dropFile file; return none : Comp FdSystem (Option Outcome)).wlp (fun _ s' => s'.Sound) s₁ := by
  simp only [Comp.wlp_bind, Comp.wlp_pure]
  refine (dropFile_wlp h₁).mono ?_
  rintro _ s' ⟨hsame', h'⟩
  refine ⟨h', ?_⟩
  rw [hsame'.processes, hsame.processes]
  exact h.tidy

/-- A call that has just made its clone. -/
theorem attend_clone {s₁ : FdSystem} (hp : s.processes[p]? = some q) (hrun : q.status = .running)
    (hcall : q.call = none) (hf : file ∈ q.fdTable.files) (hsame : s.SameHolders s₁) (h₁ : s₁.Surplus [file])
    {call : Transfer → Call} {x : Comp PipeState Outcome}
    (hx : ∀ ps, x.wlp (fun _ ps' => ps'.writeEnds = ps.writeEnds) ps) :
    (attend p i file call x).wlp (fun _ s' => s'.Sound) s₁ := by
  have hp₁ : s₁.processes[p]? = some q := by rw [hsame.processes, hp]
  have htidy₁ : ∀ q ∈ s₁.processes, Tidy q := hsame.processes ▸ h.tidy
  refine attend_wlp hx htidy₁ hp₁ hrun hf h₁ fun j => ?_
  rw [hcall]
  exact Nat.zero_add _

theorem read_step (p fd : Nat) (buf : UserBuffer) : (step (.read p fd buf)).wlp (fun _ s' => s'.Sound) s := by
  simp only [step, Comp.wlp_bind]
  refine (caller_wlp p s).mono ?_
  rintro q _ ⟨rfl, hp, hrun, hcall⟩
  cases hfile : q.fdTable.file fd with
  | none =>
    rw [Comp.wlp_pure]
    exact h
  | some file =>
    have hmem : file ∈ q.fdTable.files := FdTable.mem_files.mpr ⟨fd, hfile⟩
    have hpos : ∀ i, file = .pipeWrite i → 0 < s.strong i := by
      rintro i rfl
      exact h.counted.pos hp (by rw [held_of_call hcall]; exact hmem)
    simp only [Comp.wlp_bind]
    refine (cloneFile_wlp h.counted hpos).mono ?_
    rintro _ s₁ ⟨hsame, h₁⟩
    split
    · exact drop_clone h hsame h₁
    · cases file with
      | pipeRead i =>
        refine attend_clone h hp hrun hcall hmem hsame h₁ fun ps => ?_
        simp only [Pipe.read, Comp.wlp_bind, Comp.wlp_assert]
        exact fun _ => resumeRead_writeEnds _ ps
      | _ => exact drop_clone h hsame h₁

theorem write_step (p fd : Nat) (buf : UserBuffer) : (step (.write p fd buf)).wlp (fun _ s' => s'.Sound) s := by
  simp only [step, Comp.wlp_bind]
  refine (caller_wlp p s).mono ?_
  rintro q _ ⟨rfl, hp, hrun, hcall⟩
  cases hfile : q.fdTable.file fd with
  | none =>
    rw [Comp.wlp_pure]
    exact h
  | some file =>
    have hmem : file ∈ q.fdTable.files := FdTable.mem_files.mpr ⟨fd, hfile⟩
    have hpos : ∀ i, file = .pipeWrite i → 0 < s.strong i := by
      rintro i rfl
      exact h.counted.pos hp (by rw [held_of_call hcall]; exact hmem)
    dsimp only
    split
    · rw [Comp.wlp_pure]
      exact h
    · simp only [Comp.wlp_bind]
      refine (cloneFile_wlp h.counted hpos).mono ?_
      rintro _ s₁ ⟨hsame, h₁⟩
      cases file with
      | pipeWrite i =>
        refine attend_clone h hp hrun hcall hmem hsame h₁ fun ps => ?_
        simp only [Pipe.write, Comp.wlp_bind, Comp.wlp_assert]
        exact fun _ => resumeWrite_writeEnds _ ps
      | _ => exact drop_clone h hsame h₁

theorem resume_step (p : Nat) : (step (.resume p)).wlp (fun _ s' => s'.Sound) s := by
  simp only [step, process, Comp.wlp_bind, Comp.wlp_get, Comp.wlp_unwrap]
  intro q hp
  -- the call has made its clone before
  have hattend : ∀ {file c}, q.call = some (file, c) → ∀ {i} {call : Transfer → Call} {x : Comp PipeState Outcome},
      (∀ ps, x.wlp (fun _ ps' => ps'.writeEnds = ps.writeEnds) ps) →
      (attend p i file call x).wlp (fun _ s' => s'.Sound) s := by
    intro file c hcall i call x hx
    obtain ⟨hrun, hmem⟩ := (h.tidy q (List.mem_of_getElem? hp)).call file c hcall
    refine attend_wlp hx h.tidy hp hrun hmem h.counted fun j => ?_
    rw [hcall]
    rfl
  split
  · next hcall => exact hattend hcall (resumeRead_writeEnds _)
  · next hcall => exact hattend hcall (resumeWrite_writeEnds _)
  · rw [Comp.wlp_panic]
    trivial

/-- **One step.** -/
theorem step_wlp (op : FdOp) : (step op).wlp (fun _ s' => s'.Sound) s := by
  cases op with
  | pipe p => exact pipe_step h p
  | dup p fd => exact dup_step h p fd
  | close p fd => exact close_step h p fd
  | «open» p path readable writable found => exact open_step h p path readable writable found
  | fork p => exact fork_step h p
  | exec p =>
    simp only [step, Comp.wlp_bind, Comp.wlp_pure]
    refine (caller_wlp p s).mono ?_
    rintro q _ ⟨rfl, _⟩
    exact h
  | exit p => exact exit_step h p
  | waitpid p child => exact waitpid_step h p child
  | read p fd buf => exact read_step h p fd buf
  | write p fd buf => exact write_step h p fd buf
  | resume p => exact resume_step h p

end Steps

theorem Reached.sound (hs : Reached s) : s.Sound := by
  induction hs with
  | start mem => exact sound_start mem
  | step op _ h ih => exact step_wlp ih op _ _ h

/-! ## End of file -/

/-- A process with this status has a descriptor for the write end of the pipe `i`. -/
def Holds (s : FdSystem) (status : ProcessStatus) (i : Nat) : Prop :=
  ∃ q ∈ s.processes, q.status = status ∧ .pipeWrite i ∈ q.fdTable.files

theorem Sound.strong_eq_zero_iff (h : s.Sound) (i : Nat) :
    s.strong i = 0 ↔ ¬s.Holds .running i ∧ ¬s.Holds .zombie i := by
  rw [h.counted i, List.count_nil, Nat.add_zero, List.count_eq_zero]
  constructor
  · intro hno
    have hnone : ∀ status, ¬s.Holds status i := by
      rintro status ⟨q, hq, _, hmem⟩
      exact hno (List.mem_flatMap.mpr ⟨q, hq, List.mem_append_left _ hmem⟩)
    exact ⟨hnone .running, hnone .zombie⟩
  · rintro ⟨hrun, hzombie⟩ hmem
    obtain ⟨q, hq, hheld⟩ := List.mem_flatMap.mp hmem
    -- a file that a call holds is in the table too
    have htable : .pipeWrite i ∈ q.fdTable.files := by
      rcases List.mem_append.mp hheld with ht | hc
      · exact ht
      · obtain ⟨⟨f, c⟩, hcall, hf⟩ := List.mem_map.mp hc
        have hf' : f = .pipeWrite i := hf
        subst hf'
        exact ((h.tidy q hq).call _ c (Option.mem_toList.mp hcall)).2
    cases hstatus : q.status with
    | running => exact hrun ⟨q, hq, hstatus, htable⟩
    | zombie => exact hzombie ⟨q, hq, hstatus, htable⟩
    | gone =>
      rw [(h.tidy q hq).gone hstatus] at htable
      cases htable

/-- A step in which a process reads from the pipe `i`. -/
def Reads (s : FdSystem) (i : Nat) : FdOp → Prop
  | .read p fd _ => ∃ q, s.processes[p]? = some q ∧ q.fdTable.file fd = some (.pipeRead i)
  | .resume p => ∃ q c, s.processes[p]? = some q ∧ q.call = some (.pipeRead i, c)
  | _ => False

theorem resumeRead_returns (ps : PipeState) (hdrained : ps.ring.availableRead = 0) (hclosed : ps.writeEnds = 0)
    (t : Transfer) : (Pipe.resumeRead t).wlp (fun o _ => ∃ t', o = .returned t') ps := by
  have hend : ps.allWriteEndsClosed = true := decide_eq_true hclosed
  rw [Pipe.resumeRead, Pipe.readLoop, Pipe.moveLoop]
  simp only [Comp.wlp_bind, Comp.wlp_get]
  rw [if_pos hdrained, if_pos hend, Comp.wlp_pure]
  exact ⟨t, rfl⟩

theorem attend_returns {pipe : PipeState} (hpipe : s.pipes[i]? = some pipe) {call : Transfer → Call}
    {x : Comp PipeState Outcome} (hx : x.wlp (fun o _ => ∃ t, o = .returned t) { pipe with mem := s.mem }) :
    (attend p i file call x).wlp (fun o _ => ∃ t, o = some (.returned t)) s := by
  simp only [attend, process, onPipe, Comp.wlp_bind, Comp.wlp_get, Comp.wlp_unwrap, Comp.wlp_modify, Comp.wlp_pure]
  intro q _ pipe' hpipe' r hr
  cases hpipe.symm.trans hpipe'
  obtain ⟨t, ht⟩ := hx r.1 r.2 hr
  rw [ht]
  simp only [setProcess, Comp.wlp_bind, Comp.wlp_modify, Comp.wlp_pure]
  exact fun _ _ _ => ⟨t, rfl⟩

/-- **When the write end of a pipe is closed.** -/
theorem writeEnds_closed_iff {pipe : PipeState} (hs : Reached s) (hpipe : s.pipes[i]? = some pipe) :
    ((pipe.allWriteEndsClosed = true ↔ ¬s.Holds .running i) ↔ (s.Holds .zombie i → s.Holds .running i)) ∧
    ((s.Holds .zombie i → s.Holds .running i) → ¬s.Holds .running i → pipe.ring.availableRead = 0 →
      ∀ op o s', s.Reads i op → (step op).run s = some (o, s') → ∃ t, o = some (.returned t)) := by
  have hends : s.strong i = pipe.writeEnds := by
    rw [strong, hpipe]
    rfl
  have hclosed : pipe.allWriteEndsClosed = true ↔ ¬s.Holds .running i ∧ ¬s.Holds .zombie i := by
    rw [← hs.sound.strong_eq_zero_iff i, hends, PipeState.allWriteEndsClosed, decide_eq_true_iff]
  refine ⟨?_, fun hcond hno hdrained op o s' hreads hrun => ?_⟩
  · rw [hclosed]
    tauto
  · have hzero : pipe.writeEnds = 0 := by
      rw [← hends, hs.sound.strong_eq_zero_iff i]
      exact ⟨hno, fun hz => hno (hcond hz)⟩
    cases op with
    | read p fd buf =>
      obtain ⟨q, hq, hfile⟩ := hreads
      have hread : (step (.read p fd buf)).wlp (fun o _ => ∃ t, o = some (.returned t)) s := by
        simp only [step, Comp.wlp_bind]
        refine (caller_wlp p s).mono ?_
        rintro q' _ ⟨rfl, hq', _⟩
        cases hq.symm.trans hq'
        rw [hfile]
        show (do
          if ¬ (File.pipeRead i).readable = true then do
            dropFile (.pipeRead i)
            return none
          else attend p i (.pipeRead i) .read (Pipe.readEndWithBuffer.read buf) :
            Comp FdSystem (Option Outcome)).wlp _ s
        have hreadable : ¬¬(File.pipeRead i).readable = true := not_not_intro rfl
        rw [if_neg hreadable]
        refine attend_returns hpipe ?_
        simp only [Pipe.read, Comp.wlp_bind, Comp.wlp_assert]
        exact fun _ => resumeRead_returns { pipe with mem := s.mem } hdrained hzero _
      exact hread _ _ hrun
    | resume p =>
      obtain ⟨q, c, hq, hcall⟩ := hreads
      have hresume : (step (.resume p)).wlp (fun o _ => ∃ t, o = some (.returned t)) s := by
        simp only [step, process, Comp.wlp_bind, Comp.wlp_get, Comp.wlp_unwrap]
        intro q' hq'
        cases hq.symm.trans hq'
        rw [hcall]
        cases c with
        | read t => exact attend_returns hpipe (resumeRead_returns { pipe with mem := s.mem } hdrained hzero t)
        | write t =>
          simp only [Comp.wlp_panic]
      exact hresume _ _ hrun
    | _ => exact hreads.elim

/-! ## Runs -/

/-- Steps one after the other. -/
def runs : List FdOp → FdSystem → Option FdSystem
  | [], s => some s
  | op :: ops, s => ((step op).run s).bind fun r => runs ops r.2

theorem Reached.runs (ops : List FdOp) (hs : Reached s) (h : runs ops s = some s') : Reached s' := by
  induction ops generalizing s with
  | nil =>
    cases h
    exact hs
  | cons op ops ih =>
    rw [FdSystem.runs] at h
    obtain ⟨⟨_, s₁⟩, hrun, hrest⟩ := Option.bind_eq_some_iff.mp h
    exact ih (hs.step op hrun) hrest

/-- A run from the start. -/
theorem exists_run (P : FdSystem → Bool) (ops : List FdOp) (h : (runs ops (start fun _ => 0)).any P = true) :
    ∃ s, Reached s ∧ P s = true := by
  obtain ⟨s, hrun, hp⟩ := (Option.any_eq_true _ _).mp h
  exact ⟨s, (Reached.start _).runs ops hrun, hp⟩

/-- A process that has made a pipe and closed both ends. -/
theorem writeEnds_closed_run : ∃ s pipe, Reached s ∧ s.pipes[0]? = some pipe ∧
    ((pipe.allWriteEndsClosed = true ↔ ¬s.Holds .running 0) ↔ (s.Holds .zombie 0 → s.Holds .running 0)) := by
  obtain ⟨s, hs, hp⟩ := exists_run (fun s => s.pipes[0]?.isSome) [.pipe 0, .close 0 3, .close 0 4] (by decide +kernel)
  obtain ⟨pipe, hpipe⟩ := Option.isSome_iff_exists.mp hp
  exact ⟨s, pipe, hs, hpipe, (writeEnds_closed_iff hs hpipe).1⟩

/-- A child that has exited, and that nobody has collected, keeps the write end of its parent's pipe
open. -/
theorem zombie_keeps_pipe_open : ∃ s pipe, Reached s ∧ s.pipes[0]? = some pipe ∧
    pipe.allWriteEndsClosed = false ∧ ¬s.Holds .running 0 := by
  obtain ⟨s, hs, hp⟩ := exists_run
    (fun s => (s.pipes[0]?.any fun pipe : PipeState => !pipe.allWriteEndsClosed) && decide (∀ q ∈ s.processes,
      ¬(q.status = .running ∧ File.pipeWrite 0 ∈ q.fdTable.files)))
    [.pipe 0, .fork 0, .close 0 4, .exit 1] (by decide +kernel)
  obtain ⟨hpipe, hno⟩ := Bool.and_eq_true_iff.mp hp
  obtain ⟨pipe, hpipe, hopen⟩ := (Option.any_eq_true _ _).mp hpipe
  refine ⟨s, pipe, hs, hpipe, (Bool.not_eq_true' _).mp hopen, ?_⟩
  rintro ⟨q, hq, hstatus, hmem⟩
  exact of_decide_eq_true hno q hq ⟨hstatus, hmem⟩

end FdSystem

end RCore.Fs
