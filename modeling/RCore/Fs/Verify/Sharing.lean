import RCore.Fs.Verify.Image

/-!
# Sharing an open file

`dup` and `fork` give a descriptor for the same open file, and so the same offset. Whatever descriptors of whatever
processes are read, each byte goes to one of them and they come in order, as long as the file keeps its bytes
(`reads_shared`). Whatever descriptors are written, one write goes behind the other, as long as nothing else changes
the file (`writes_shared`).
-/

namespace RCore.Fs

open RCore Prog EasyFs Mm

/-- A descriptor of a process stands for the open file `n`. -/
def OpenFiles.refers (s : OpenFiles) (n p fd : Nat) : Prop :=
  (s.fdTables[p]?.bind fun fdTable => fdTable.slot fd) = some (.osInode n)

instance (s : OpenFiles) (n p fd : Nat) : Decidable (s.refers n p fd) := inferInstanceAs (Decidable (_ = _))

/-- What a call brings its process from the open file `n`. -/
def OpenFiles.received (s : OpenFiles) (n : Nat) : FileOp → FileAnswer → List UInt8
  | .read p fd _ _, .bytes size buf => if s.refers n p fd then buf.take size.toNat else []
  | _, _ => []

/-- What the kernel accepts of a call for the open file `n`. -/
def OpenFiles.accepted (s : OpenFiles) (n : Nat) : FileOp → FileAnswer → List UInt8
  | .write p fd buf _, .status size => if s.refers n p fd then buf.flatten.take size.toNat else []
  | _, _ => []

/-- What single calls give, put together. -/
def gathered (fs : EasyFileSystem) (what : OpenFiles → FileOp → FileAnswer → List UInt8) :
    List FileOp → OpenFiles → Disk → List UInt8
  | [], _, _ => []
  | op :: ops, s, d =>
    match (s.step fs op).exec d with
    | some ((answer, t), d') => what s op answer ++ gathered fs what ops t d'
    | none => []

/-- What the calls bring the processes from the open file `n`, one after the other. -/
def receivedBy (fs : EasyFileSystem) (n : Nat) : List FileOp → OpenFiles → Disk → List UInt8 :=
  gathered fs fun s => s.received n

/-- What the kernel accepts of the calls for the open file `n`, one after the other. -/
def acceptedBy (fs : EasyFileSystem) (n : Nat) : List FileOp → OpenFiles → Disk → List UInt8 :=
  gathered fs fun s => s.accepted n

/-- File `j` has these bytes. -/
def Unix.Keeps (u : Unix) (j : Nat) (bytes : List UInt8) : Prop := u.files[j]?.map UnixFile.bytes = some bytes

/-! ## One call -/

section Step

variable {u v : Unix} {n : Nat} {o : OpenFile} {f : UnixFile} {a : FileAnswer}

/-- The call goes through the open file `n`. -/
def Unix.Through (u : Unix) (n : Nat) : FileOp → Prop
  | .read p fd _ _ => (u.processes[p]?.bind fun fds => fds fd) = some (.osInode n)
  | .write p fd _ _ => (u.processes[p]?.bind fun fds => fds fd) = some (.osInode n)
  | _ => False

/-- Opening a file adds one at the end. -/
theorem Unix.open_opened {p : Nat} {path : String} {flags : UInt32} (hopen : u.step (.open_ p path flags) = some (a, v))
    (ho : u.opened[n]? = some o) : v.opened[n]? = some o := by
  obtain ⟨fds, -, hopen⟩ := Option.bind_eq_some_iff.mp hopen
  obtain ⟨bits, -, hopen⟩ := Option.bind_eq_some_iff.mp hopen
  have hsame := u.openFile_same path bits
  cases hfile : u.openFile path bits with
  | mk r w =>
    rw [hfile] at hopen hsame
    cases r with
    | none =>
      cases hopen
      rw [hsame.1, ho]
    | some j =>
      cases hopen
      have hlt : n < w.opened.length := by
        rw [hsame.1]
        exact (List.getElem?_eq_some_iff.mp ho).1
      show (w.opened ++ [_])[n]? = some o
      rw [List.getElem?_append_left hlt, hsame.1, ho]

/-- A call that does not go through an open file leaves it alone. -/
theorem Unix.step_opened {op : FileOp} (hstep : u.step op = some (a, v)) (hop : ¬u.Through n op)
    (ho : u.opened[n]? = some o) : v.opened[n]? = some o := by
  cases op with
  | open_ p path flags => exact Unix.open_opened hstep ho
  | close p fd =>
    obtain ⟨fds, -, hstep⟩ := Option.bind_eq_some_iff.mp hstep
    split at hstep <;> cases hstep <;> exact ho
  | dup p fd =>
    obtain ⟨fds, -, hstep⟩ := Option.bind_eq_some_iff.mp hstep
    split at hstep <;> cases hstep <;> exact ho
  | read p fd buf other =>
    obtain ⟨fds, hp, hstep⟩ := Option.bind_eq_some_iff.mp hstep
    rw [Unix.Through, hp, Option.bind_some] at hop
    split at hstep
    · next m hfd =>
      have hm : m ≠ n := fun he => hop (he ▸ hfd)
      obtain ⟨o', -, hread⟩ := Option.bind_eq_some_iff.mp hstep
      split at hread
      · obtain ⟨f', -, hread⟩ := Option.bind_eq_some_iff.mp hread
        cases hread
        exact (List.getElem?_set_ne hm).trans ho
      · cases hread
        exact ho
    · split at hstep <;> cases hstep <;> exact ho
    · cases hstep
      exact ho
  | write p fd buf other =>
    obtain ⟨fds, hp, hstep⟩ := Option.bind_eq_some_iff.mp hstep
    rw [Unix.Through, hp, Option.bind_some] at hop
    split at hstep
    · next m hfd =>
      have hm : m ≠ n := fun he => hop (he ▸ hfd)
      obtain ⟨o', -, hwrite⟩ := Option.bind_eq_some_iff.mp hstep
      split at hwrite
      · split at hwrite
        · cases hwrite
          exact ho
        · obtain ⟨f', -, hwrite⟩ := Option.bind_eq_some_iff.mp hwrite
          cases hwrite
          exact (List.getElem?_set_ne hm).trans ho
      · cases hwrite
        exact ho
    · split at hstep <;> cases hstep <;> exact ho
    · cases hstep
      exact ho
  | fstat p fd =>
    obtain ⟨fds, -, hstep⟩ := Option.bind_eq_some_iff.mp hstep
    split at hstep
    · obtain ⟨stat, -, hstep⟩ := Option.bind_eq_some_iff.mp hstep
      cases hstep
      exact ho
    · cases hstep
      exact ho
    · cases hstep
      exact ho
  | linkat olddirfd oldpath newdirfd newpath flags =>
    rw [Unix.step] at hstep
    split at hstep
    · split at hstep <;> cases hstep <;> exact ho
    · cases hstep
  | unlinkat dirfd path flags =>
    rw [Unix.step] at hstep
    split at hstep
    · split at hstep <;> cases hstep <;> exact ho
    · cases hstep
  | fork p =>
    obtain ⟨fds, -, hstep⟩ := Option.bind_eq_some_iff.mp hstep
    cases hstep
    exact ho
  | load path =>
    cases hstep
    exact ho
  | ls =>
    cases hstep
    exact ho

/-- A read through an open file. -/
theorem Unix.step_read {p fd : Nat} {buf : List (List UInt8)} {other : Nat × List (List UInt8)}
    (hop : u.Through n (.read p fd buf other)) :
    u.step (.read p fd buf other) = u.read n buf.flatten := by
  obtain ⟨fds, hp, hfd⟩ := Option.bind_eq_some_iff.mp hop
  rw [Unix.step, hp, Option.bind_eq_bind, Option.bind_some, hfd]

/-- A write through an open file. -/
theorem Unix.step_write {p fd : Nat} {buf : List (List UInt8)} {other : Nat} (hop : u.Through n (.write p fd buf other)) :
    u.step (.write p fd buf other) = u.write n buf.flatten := by
  obtain ⟨fds, hp, hfd⟩ := Option.bind_eq_some_iff.mp hop
  rw [Unix.step, hp, Option.bind_eq_bind, Option.bind_some, hfd]

/-- `new` in the place of the bytes from `offset` on, where there is something new. -/
def Unix.over (old : List UInt8) (offset : Nat) (new : List UInt8) : List UInt8 :=
  if new = [] then old else Unix.overwrite old offset new

/-- Two pieces of which one begins where the other ends. -/
theorem Unix.over_append (old : List UInt8) (offset : Nat) (l m : List UInt8) :
    Unix.over (Unix.over old offset l) (offset + l.length) m = Unix.over old offset (l ++ m) := by
  by_cases hl : l = []
  · subst hl
    rfl
  · by_cases hm : m = []
    · subst hm
      rw [List.append_nil]
      rfl
    · have hlm : l ++ m ≠ [] := List.append_ne_nil_of_left_ne_nil hl m
      rw [Unix.over, if_neg hm, Unix.over, if_neg hl, Unix.over, if_neg hlm]
      have hfirst : ((old ++ List.replicate (offset - old.length) 0).take offset).length = offset := by
        rw [List.length_take, List.length_append, List.length_replicate]
        omega
      generalize hpre : (old ++ List.replicate (offset - old.length) 0).take offset = pre at hfirst
      have hbegin : (pre ++ l).length = offset + l.length := by rw [List.length_append, hfirst]
      rw [Unix.overwrite, Unix.overwrite, Unix.overwrite, hpre]
      have hfull : offset + l.length - (pre ++ l ++ old.drop (offset + l.length)).length = 0 := by
        rw [List.length_append, hbegin]
        omega
      rw [hfull, List.replicate_zero, List.append_nil, List.take_left' hbegin, ← List.drop_drop, List.drop_left' hbegin,
        List.drop_drop, List.length_append, ← List.append_assoc pre, Nat.add_assoc]

variable {g : Geometry} {s : OpenFiles} {d : Disk} (h : Holds g u s d)
include h

/-- What the tables say a descriptor stands for. -/
theorem Holds.refers_iff {p fd : Nat} : s.refers n p fd ↔ (u.processes[p]?.bind fun fds => fds fd) = some (.osInode n) := by
  rw [OpenFiles.refers, ← h.fdTables, List.getElem?_map, Option.bind_map]
  rfl

theorem Holds.received_eq_nil {op : FileOp} (hop : ¬u.Through n op) : s.received n op a = [] := by
  cases op with
  | read p fd buf other => cases a <;> first | rfl | exact if_neg fun he => hop (h.refers_iff.mp he)
  | _ => rfl

theorem Holds.accepted_eq_nil {op : FileOp} (hop : ¬u.Through n op) : s.accepted n op a = [] := by
  cases op with
  | write p fd buf other => cases a <;> first | rfl | exact if_neg fun he => hop (h.refers_iff.mp he)
  | _ => rfl

/-- **One call that reads.** It brings the next bytes of an open file that is not writable, and the offset goes on by
as many. -/
theorem Holds.received_step {op : FileOp} (hstep : u.step op = some (a, v)) (ho : u.opened[n]? = some o)
    (hr : o.readable = true) (hw : o.writable = false) (hf : u.files[o.file]? = some f) :
    s.received n op a <+: f.bytes.drop o.offset ∧
      v.opened[n]? = some { o with offset := o.offset + (s.received n op a).length } := by
  by_cases hop : u.Through n op
  · cases op with
    | read p fd buf other =>
      rw [Unix.step_read hop, Unix.read, ho, Option.bind_eq_bind, Option.bind_some, if_pos hr, hf] at hstep
      have hpre := List.take_prefix buf.flatten.length (f.bytes.drop o.offset)
      generalize hnext : (f.bytes.drop o.offset).take buf.flatten.length = next at hpre
      rw [Option.bind_eq_bind, Option.bind_some] at hstep
      dsimp only at hstep
      rw [hnext] at hstep
      obtain ⟨rfl, rfl⟩ := Prod.mk.inj (Option.some.inj hstep)
      have hall : s.received n (.read p fd buf other) (.bytes next.length (next ++ buf.flatten.drop next.length)) = next :=
        (if_pos (h.refers_iff.mpr hop)).trans List.take_left
      rw [hall]
      exact ⟨hpre, List.getElem?_set_self (List.getElem?_eq_some_iff.mp ho).1⟩
    | write p fd buf other =>
      rw [Unix.step_write hop, Unix.write, ho, Option.bind_eq_bind, Option.bind_some, if_neg (by rw [hw]; decide)] at hstep
      cases hstep
      exact ⟨List.nil_prefix, ho⟩
    | _ => exact hop.elim
  · rw [h.received_eq_nil hop]
    exact ⟨List.nil_prefix, Unix.step_opened hstep hop ho⟩

/-- **One call that writes.** What is accepted for an open file that is not readable goes to its offset, and the offset
goes on by as many bytes. -/
theorem Holds.accepted_step {op : FileOp} (hstep : u.step op = some (a, v)) (ho : u.opened[n]? = some o)
    (hr : o.readable = false) (hw : o.writable = true) (hf : u.files[o.file]? = some f)
    (hkeep : ¬u.Through n op → v.Keeps o.file f.bytes) :
    v.Keeps o.file (Unix.over f.bytes o.offset (s.accepted n op a)) ∧
      v.opened[n]? = some { o with offset := o.offset + (s.accepted n op a).length } := by
  have hsame : u.Keeps o.file f.bytes := congrArg (Option.map UnixFile.bytes) hf
  by_cases hop : u.Through n op
  · cases op with
    | read p fd buf other =>
      rw [Unix.step_read hop, Unix.read, ho, Option.bind_eq_bind, Option.bind_some, if_neg (by rw [hr]; decide)] at hstep
      cases hstep
      exact ⟨hsame, ho⟩
    | write p fd buf other =>
      rw [Unix.step_write hop, Unix.write, ho, Option.bind_eq_bind, Option.bind_some, if_pos hw] at hstep
      have hall : s.accepted n (.write p fd buf other) (.status buf.flatten.length) = buf.flatten :=
        (if_pos (h.refers_iff.mpr hop)).trans List.take_length
      by_cases hnil : buf.flatten = []
      · rw [if_pos hnil] at hstep
        cases hstep
        have hnone : s.accepted n (.write p fd buf other) (.status 0) = [] :=
          (if_pos (h.refers_iff.mpr hop)).trans (List.take_zero ..)
        rw [hnone]
        exact ⟨hsame, ho⟩
      · rw [if_neg hnil, hf] at hstep
        obtain ⟨rfl, rfl⟩ := Prod.mk.inj (Option.some.inj hstep)
        rw [hall, Unix.over, if_neg hnil]
        refine ⟨?_, List.getElem?_set_self (List.getElem?_eq_some_iff.mp ho).1⟩
        show ((u.files.modify o.file _)[o.file]?).map UnixFile.bytes = _
        rw [List.getElem?_modify_eq, hf]
        rfl
    | _ => exact hop.elim
  · rw [h.accepted_eq_nil hop]
    exact ⟨hkeep hop, Unix.step_opened hstep hop ho⟩

end Step

/-! ## Runs -/

section Run

variable {g : Geometry} {n : Nat} {bytes : List UInt8}

/-- A call that the model answers is a step of the kernel. -/
theorem Holds.exec_step {u v : Unix} {s : OpenFiles} {d : Disk} {op : FileOp} {a : FileAnswer} (hl : g.Laid)
    (h : Holds g u s d) (hop : op.Proper) (hstep : u.step op = some (a, v)) (hfits : v.Fits g) :
    ∃ s' d', (s.step g.toEfs op).exec d = some ((a, s'), d') ∧ Holds g v s' d' := by
  have hmeets := h.meets hl hop
  rw [hstep] at hmeets
  obtain ⟨⟨_, s'⟩, d', hexec, rfl, h'⟩ := hmeets hfits
  exact ⟨s', d', hexec, h'⟩

/-- A call that it does not answer is a panic. -/
theorem Holds.exec_none {u : Unix} {s : OpenFiles} {d : Disk} {op : FileOp} (hl : g.Laid) (h : Holds g u s d)
    (hop : op.Proper) (hstep : u.step op = none) : (s.step g.toEfs op).exec d = none := by
  have hmeets := h.meets hl hop
  rw [hstep] at hmeets
  exact hmeets

theorem gathered_cons {fs : EasyFileSystem} {what : OpenFiles → FileOp → FileAnswer → List UInt8} {op : FileOp}
    {ops : List FileOp} {s s' : OpenFiles} {d d' : Disk} {a : FileAnswer} (hexec : (s.step fs op).exec d = some ((a, s'), d')) :
    gathered fs what (op :: ops) s d = what s op a ++ gathered fs what ops s' d' := by
  rw [gathered, hexec]

/-- What holds before a sequence of calls in which the file keeps its bytes. -/
theorem Holds.received_run (hl : g.Laid) (ops : List FileOp) : ∀ {u : Unix} {s : OpenFiles} {d : Disk} {o : OpenFile},
    Holds g u s d → (∀ op ∈ ops, op.Proper) → u.opened[n]? = some o → o.readable = true → o.writable = false →
    u.Keeps o.file bytes → StaysIn Unix.step (fun v => v.Fits g ∧ v.Keeps o.file bytes) ops u →
      receivedBy g.toEfs n ops s d <+: bytes.drop o.offset ∧
        ∀ answers t d', (each (OpenFiles.step g.toEfs) s ops).exec d = some ((answers, t), d') →
          (t.osInodes[n]?.map fun file => file.inner.offset) = some (o.offset + (receivedBy g.toEfs n ops s d).length) := by
  induction ops with
  | nil =>
    intro u s d o h _ ho _ _ _ _
    refine ⟨List.nil_prefix, fun answers t d' hexec => ?_⟩
    cases hexec
    rw [h.object ho]
    rfl
  | cons op ops ih =>
    intro u s d o h hops ho hr hw hkeeps hstays
    have hop := hops op List.mem_cons_self
    cases hstep : Unix.step op u with
    | none =>
      have hnone := h.exec_none hl hop hstep
      refine ⟨?_, fun answers t d' hexec => ?_⟩
      · rw [receivedBy, gathered, hnone]
        exact List.nil_prefix
      · rw [each, exec_bind_of_none hnone] at hexec
        cases hexec
    | some r =>
      obtain ⟨a, v⟩ := r
      obtain ⟨⟨hfits, hkeeps'⟩, hrest⟩ := hstays a v hstep
      obtain ⟨s', d', hexec, h'⟩ := h.exec_step hl hop hstep hfits
      obtain ⟨f, hf, rfl⟩ := Option.map_eq_some_iff.mp hkeeps
      obtain ⟨⟨tail, htail⟩, ho'⟩ := h.received_step hstep ho hr hw hf
      obtain ⟨hpre, hoff⟩ := ih h' (fun o ho => hops o (List.mem_cons_of_mem _ ho)) ho' hr hw hkeeps' hrest
      have hdrop : f.bytes.drop (o.offset + (s.received n op a).length) = tail := by
        rw [← List.drop_drop, ← htail, List.drop_left]
      have hreceived : receivedBy g.toEfs n (op :: ops) s d = s.received n op a ++ receivedBy g.toEfs n ops s' d' :=
        gathered_cons hexec
      rw [hreceived]
      refine ⟨?_, fun answers t d'' hrun => ?_⟩
      · rw [← htail]
        exact (List.prefix_append_right_inj _).mpr (hdrop ▸ hpre)
      · obtain ⟨_, _, _, l, hone, hmany, -⟩ := exec_each_cons hrun
        cases hexec.symm.trans hone
        rw [hoff l t d'' hmany, List.length_append, Nat.add_assoc]

/-- Calls of a kernel that has just started lead to what the model says. -/
theorem calls_before {total ib : UInt32} {dev : Disk} {fs : EasyFileSystem} {d : Disk}
    (h : (Geometry.compute total ib).NoUnderflow) (harea : 0 < (Geometry.compute total ib).inodeAreaBlocks.toNat)
    (he : (EasyFileSystem.create total ib).exec dev = some (fs, d)) {before : List FileOp}
    (hproper : ∀ op ∈ before, op.Proper)
    (hbefore : StaysIn Unix.step (Unix.Fits (Geometry.compute total ib)) before (Unix.packed []))
    {answers : List FileAnswer} {u : Unix} (hu : answersOf Unix.step before (Unix.packed []) = some (answers, u)) :
    fs = (Geometry.compute total ib).toEfs ∧
      ∃ s d₁, (each (OpenFiles.step fs) OpenFiles.start before).exec d = some ((answers, s), d₁) ∧
        Holds (Geometry.compute total ib) u s d₁ := by
  obtain ⟨rfl, hst⟩ := State.init h harea he
  have hstored : Stored (Geometry.compute total ib) (Unix.packed []).names (Unix.packed []).files ⟨[], 1, .directory, []⟩ [] d :=
    .empty hst
  have hmeets := hstored.start.runs (Geometry.compute_laid h) hproper hbefore
  rw [hu] at hmeets
  obtain ⟨⟨_, s⟩, d₁, hexec, rfl, hholds⟩ := hmeets trivial
  exact ⟨rfl, s, d₁, hexec, hholds⟩

/-- And so do the calls after them. -/
theorem calls_after {total ib : UInt32} {dev : Disk} {fs : EasyFileSystem} {d d₁ : Disk} {s : OpenFiles}
    (h : (Geometry.compute total ib).NoUnderflow) (harea : 0 < (Geometry.compute total ib).inodeAreaBlocks.toNat)
    (he : (EasyFileSystem.create total ib).exec dev = some (fs, d)) {before ops : List FileOp}
    (hproper : ∀ op ∈ before, op.Proper)
    (hbefore : StaysIn Unix.step (Unix.Fits (Geometry.compute total ib)) before (Unix.packed []))
    {answers answers' : List FileAnswer} {u v : Unix} (hu : answersOf Unix.step before (Unix.packed []) = some (answers, u))
    (hexec : (each (OpenFiles.step fs) OpenFiles.start before).exec d = some ((answers, s), d₁))
    (hproper' : ∀ op ∈ ops, op.Proper) (hstays : StaysIn Unix.step (Unix.Fits (Geometry.compute total ib)) ops u)
    (hv : answersOf Unix.step ops u = some (answers', v)) :
    ∃ t d₂, (each (OpenFiles.step fs) s ops).exec d₁ = some ((answers', t), d₂) ∧
      Holds (Geometry.compute total ib) v t d₂ := by
  obtain ⟨rfl, s', d', hexec', hholds⟩ := calls_before h harea he hproper hbefore hu
  cases hexec.symm.trans hexec'
  have hmeets := hholds.runs (Geometry.compute_laid h) hproper' hstays
  rw [hv] at hmeets
  obtain ⟨⟨_, t⟩, d₂, hexec₂, rfl, hend⟩ := hmeets trivial
  exact ⟨t, d₂, hexec₂, hend⟩

/-- **Reading through one open file.** On every file system that `create` makes, let some calls lead to an open file that
is readable and not writable, whatever descriptors of whatever processes stand for it. In all calls that follow, as long
as its file keeps its bytes, what the processes receive through it is, one after the other, what the file has from the
offset on; and the offset has then gone on by as much. No byte is given twice and none is left out. -/
theorem reads_shared (total ib : UInt32) (dev : Disk) (fs : EasyFileSystem) (d : Disk)
    (h : (Geometry.compute total ib).NoUnderflow) (harea : 0 < (Geometry.compute total ib).inodeAreaBlocks.toNat)
    (he : (EasyFileSystem.create total ib).exec dev = some (fs, d)) (before ops : List FileOp)
    (hproper : ∀ op ∈ before ++ ops, op.Proper)
    (hbefore : StaysIn Unix.step (Unix.Fits (Geometry.compute total ib)) before (Unix.packed []))
    (answers : List FileAnswer) (u : Unix) (hu : answersOf Unix.step before (Unix.packed []) = some (answers, u))
    (n : Nat) (o : OpenFile) (ho : u.opened[n]? = some o) (hr : o.readable = true) (hw : o.writable = false)
    (bytes : List UInt8) (hbytes : u.Keeps o.file bytes)
    (hkept : StaysIn Unix.step (fun v => v.Fits (Geometry.compute total ib) ∧ v.Keeps o.file bytes) ops u) :
    ∃ s d₁, (each (OpenFiles.step fs) OpenFiles.start before).exec d = some ((answers, s), d₁) ∧
      s.osInodes[n]? = some (osInode (Geometry.compute total ib) o) ∧ receivedBy fs n ops s d₁ <+: bytes.drop o.offset ∧
        ∀ answers' t d₂, (each (OpenFiles.step fs) s ops).exec d₁ = some ((answers', t), d₂) →
          (t.osInodes[n]?.map fun file => file.inner.offset) = some (o.offset + (receivedBy fs n ops s d₁).length) := by
  have hfirst := fun op hop => hproper op (List.mem_append_left ops hop)
  obtain ⟨rfl, s, d₁, hexec, hholds⟩ := calls_before h harea he hfirst hbefore hu
  have hafter := fun op hop => hproper op (List.mem_append_right before hop)
  exact ⟨s, d₁, hexec, hholds.object ho, hholds.received_run (Geometry.compute_laid h) ops hafter ho hr hw hbytes hkept⟩

/-- In the calls the names and the files fit, and only those through the open file `n` change the bytes of file `j`. -/
def Unix.OnlyThrough (g : Geometry) (n j : Nat) : List FileOp → Unix → Prop
  | [], _ => True
  | op :: ops, u => ∀ a v, u.step op = some (a, v) →
      v.Fits g ∧ (¬u.Through n op → ∀ bytes, u.Keeps j bytes → v.Keeps j bytes) ∧ Unix.OnlyThrough g n j ops v

theorem Unix.OnlyThrough.cons {j : Nat} {op : FileOp} {ops : List FileOp} {a : FileAnswer} {u v : Unix}
    (hstep : u.step op = some (a, v)) (hfits : v.Fits g) (hop : u.Through n op) (hrest : Unix.OnlyThrough g n j ops v) :
    Unix.OnlyThrough g n j (op :: ops) u := by
  intro b w hw
  rw [hstep] at hw
  cases hw
  exact ⟨hfits, fun hnot => absurd hop hnot, hrest⟩

/-- What holds after a sequence of calls in which only those through one open file change its file. -/
theorem Holds.accepted_run (hl : g.Laid) (ops : List FileOp) : ∀ {u : Unix} {s : OpenFiles} {d : Disk} {o : OpenFile}
    {bytes : List UInt8}, Holds g u s d → (∀ op ∈ ops, op.Proper) → u.opened[n]? = some o → o.readable = false →
    o.writable = true → u.Keeps o.file bytes → Unix.OnlyThrough g n o.file ops u →
      ∀ answers t d', (each (OpenFiles.step g.toEfs) s ops).exec d = some ((answers, t), d') →
        ∃ v, answersOf Unix.step ops u = some (answers, v) ∧ Holds g v t d' ∧
          v.Keeps o.file (Unix.over bytes o.offset (acceptedBy g.toEfs n ops s d)) ∧
          v.opened[n]? = some { o with offset := o.offset + (acceptedBy g.toEfs n ops s d).length } := by
  induction ops with
  | nil =>
    intro u s d o bytes h _ ho _ _ hkeeps _ answers t d' hexec
    cases hexec
    exact ⟨u, rfl, h, hkeeps, ho⟩
  | cons op ops ih =>
    intro u s d o bytes h hops ho hr hw hkeeps hstays answers t d'' hrun
    have hop := hops op List.mem_cons_self
    cases hstep : Unix.step op u with
    | none =>
      rw [each, exec_bind_of_none (h.exec_none hl hop hstep)] at hrun
      cases hrun
    | some r =>
      obtain ⟨a, v⟩ := r
      obtain ⟨hfits, honly, hrest⟩ := hstays a v hstep
      obtain ⟨s', d', hexec, h'⟩ := h.exec_step hl hop hstep hfits
      obtain ⟨f, hf, rfl⟩ := Option.map_eq_some_iff.mp hkeeps
      obtain ⟨hkeeps', ho'⟩ := h.accepted_step hstep ho hr hw hf fun hop => honly hop f.bytes hkeeps
      have haccepted : acceptedBy g.toEfs n (op :: ops) s d = s.accepted n op a ++ acceptedBy g.toEfs n ops s' d' :=
        gathered_cons hexec
      obtain ⟨_, _, _, l, hone, hmany, rfl⟩ := exec_each_cons hrun
      cases hexec.symm.trans hone
      obtain ⟨w, hw', hend, hbytes, hoff⟩ :=
        ih h' (fun o ho => hops o (List.mem_cons_of_mem _ ho)) ho' hr hw hkeeps' hrest l t d'' hmany
      rw [Unix.over_append] at hbytes
      refine ⟨w, answersOf_cons hstep hw', hend, ?_, ?_⟩
      · rw [haccepted]
        exact hbytes
      · rw [hoff, haccepted, List.length_append, Nat.add_assoc]

/-- **Writing through one open file.** On every file system that `create` makes, let some calls lead to an open file that
is writable and not readable, whatever descriptors of whatever processes stand for it. In all calls that follow, as long
as only calls through it change its file, what the kernel accepts for it is in the file in the end, one after the other
from the offset on, and the rest of the file is as it was: no write is lost and none goes over another. -/
theorem writes_shared (total ib : UInt32) (dev : Disk) (fs : EasyFileSystem) (d : Disk)
    (h : (Geometry.compute total ib).NoUnderflow) (harea : 0 < (Geometry.compute total ib).inodeAreaBlocks.toNat)
    (he : (EasyFileSystem.create total ib).exec dev = some (fs, d)) (before ops : List FileOp)
    (hproper : ∀ op ∈ before ++ ops, op.Proper)
    (hbefore : StaysIn Unix.step (Unix.Fits (Geometry.compute total ib)) before (Unix.packed []))
    (answers : List FileAnswer) (u : Unix) (hu : answersOf Unix.step before (Unix.packed []) = some (answers, u))
    (n : Nat) (o : OpenFile) (ho : u.opened[n]? = some o) (hr : o.readable = false) (hw : o.writable = true)
    (bytes : List UInt8) (hbytes : u.Keeps o.file bytes)
    (honly : Unix.OnlyThrough (Geometry.compute total ib) n o.file ops u) :
    ∃ s d₁, (each (OpenFiles.step fs) OpenFiles.start before).exec d = some ((answers, s), d₁) ∧
      s.osInodes[n]? = some (osInode (Geometry.compute total ib) o) ∧
        ∀ answers' t d₂, (each (OpenFiles.step fs) s ops).exec d₁ = some ((answers', t), d₂) →
          ∃ v, answersOf Unix.step ops u = some (answers', v) ∧ Holds (Geometry.compute total ib) v t d₂ ∧
            v.Keeps o.file (Unix.over bytes o.offset (acceptedBy fs n ops s d₁)) ∧
            v.opened[n]? = some { o with offset := o.offset + (acceptedBy fs n ops s d₁).length } := by
  have hfirst := fun op hop => hproper op (List.mem_append_left ops hop)
  obtain ⟨rfl, s, d₁, hexec, hholds⟩ := calls_before h harea he hfirst hbefore hu
  have hafter := fun op hop => hproper op (List.mem_append_right before hop)
  exact ⟨s, d₁, hexec, hholds.object ho, hholds.accepted_run (Geometry.compute_laid h) ops hafter ho hr hw hbytes honly⟩

/-- A process and its child write through one descriptor. -/
def bothWrite : List FileOp := [.write 0 3 [[7]] 0, .write 1 3 [[8, 9]] 0]

theorem writes_shared_fork : ∃ d s d₁ t d₂, (EasyFileSystem.create 0x4000 1).exec (fun _ => Bytes.zero blockSz) =
      some ((Geometry.compute 0x4000 1).toEfs, d) ∧
    (each (OpenFiles.step (Geometry.compute 0x4000 1).toEfs) OpenFiles.start [.open_ 0 "a" 0x201, .fork 0]).exec d =
      some (([.status 3, .status 1], s), d₁) ∧
    (each (OpenFiles.step (Geometry.compute 0x4000 1).toEfs) s bothWrite).exec d₁ =
      some (([.status 1, .status 2], t), d₂) ∧
    Holds (Geometry.compute 0x4000 1) (openedOnce [("a", [7, 8, 9])] 3 false true 2) t d₂ ∧
    Unix.over [] 0 (acceptedBy (Geometry.compute 0x4000 1).toEfs 0 bothWrite s d₁) = [7, 8, 9] := by
  have hpacked : (Unix.packed [("a", [7, 8, 9])]).Fits (Geometry.compute 0x4000 1) := Unix.packed_fits.mpr (by decide)
  have hempty : (Unix.packed [("a", [])]).Fits (Geometry.compute 0x4000 1) := Unix.packed_fits.mpr (by decide)
  have hone : (Unix.packed [("a", [7])]).Fits (Geometry.compute 0x4000 1) := Unix.packed_fits.mpr (by decide)
  have hfork : Unix.step (.fork 0) (openedOnce [("a", [])] 0 false true 1) =
      some (.status 1, openedOnce [("a", [])] 0 false true 2) := rfl
  have hwrite : Unix.step (.write 0 3 [[7]] 0) (openedOnce [("a", [])] 0 false true 2) =
      some (.status 1, openedOnce [("a", [7])] 1 false true 2) := rfl
  have hrest : Unix.step (.write 1 3 [[8, 9]] 0) (openedOnce [("a", [7])] 1 false true 2) =
      some (.status 2, openedOnce [("a", [7, 8, 9])] 3 false true 2) := rfl
  have hbefore : StaysIn Unix.step (Unix.Fits (Geometry.compute 0x4000 1)) [.open_ 0 "a" 0x201, .fork 0] (Unix.packed []) :=
    .cons step_open_new (hempty.of_eq rfl rfl) (.cons hfork (hempty.of_eq rfl rfl) (by trivial))
  have hanswers : answersOf Unix.step [.open_ 0 "a" 0x201, .fork 0] (Unix.packed []) =
      some ([.status 3, .status 1], openedOnce [("a", [])] 0 false true 2) :=
    answersOf_cons step_open_new (answersOf_cons hfork rfl)
  have honly : Unix.OnlyThrough (Geometry.compute 0x4000 1) 0 0 bothWrite (openedOnce [("a", [])] 0 false true 2) :=
    .cons hwrite (hone.of_eq rfl rfl) rfl (.cons hrest (hpacked.of_eq rfl rfl) rfl (by trivial))
  have hstays : StaysIn Unix.step (Unix.Fits (Geometry.compute 0x4000 1)) bothWrite (openedOnce [("a", [])] 0 false true 2) :=
    .cons hwrite (hone.of_eq rfl rfl) (.cons hrest (hpacked.of_eq rfl rfl) (by trivial))
  have hwrites : answersOf Unix.step bothWrite (openedOnce [("a", [])] 0 false true 2) =
      some ([.status 1, .status 2], openedOnce [("a", [7, 8, 9])] 3 false true 2) :=
    answersOf_cons hwrite (answersOf_cons hrest rfl)
  have hfirst : ∀ op ∈ [FileOp.open_ 0 "a" 0x201, .fork 0], op.Proper := by
    simp only [List.forall_mem_cons, FileOp.Proper]
    exact ⟨trivial, trivial, fun _ h => absurd h List.not_mem_nil⟩
  have hsecond : ∀ op ∈ bothWrite, op.Proper := by
    simp only [bothWrite, List.forall_mem_cons, FileOp.Proper]
    exact ⟨⟨by decide, by decide⟩, ⟨by decide, by decide⟩, fun _ h => absurd h List.not_mem_nil⟩
  have hlaid : (Geometry.compute 0x4000 1).NoUnderflow := by decide
  obtain ⟨_, d, hcreate, rfl, -⟩ := create_spec (fun _ => Bytes.zero blockSz) hlaid (by decide)
  obtain ⟨s, d₁, hexec, -, hafter⟩ := writes_shared 0x4000 1 _ _ d hlaid (by decide) hcreate _ bothWrite
    (List.forall_mem_append.mpr ⟨hfirst, hsecond⟩) hbefore _ _ hanswers 0 ⟨0, 0, false, true⟩ rfl rfl rfl [] rfl honly
  obtain ⟨t, d₂, hexec₂, -⟩ := calls_after hlaid (by decide) hcreate hfirst hbefore hanswers hexec hsecond hstays hwrites
  obtain ⟨v, hv, hholds, hbytes, -⟩ := hafter _ t d₂ hexec₂
  obtain ⟨-, rfl⟩ := Prod.mk.inj (Option.some.inj (hwrites.symm.trans hv))
  exact ⟨d, s, d₁, t, d₂, hcreate, hexec, hexec₂, hholds, (Option.some.inj hbytes).symm⟩

/-- A file that the first process has written and opened again, and what processes then have its descriptors. -/
def openedTwice (offset processes : Nat) : Unix :=
  { Unix.packed [("a", [7, 8, 9])] with
    opened := [⟨0, 3, false, true⟩, ⟨0, offset, true, false⟩]
    processes := List.replicate processes (Function.update
      (Function.update (Slots.slot (FdTable.new.map fun f => f.map .other)) 3 (some (.osInode 0))) 4 (some (.osInode 1))) }

theorem lowest_opened :
    Unix.lowest (Function.update (Slots.slot (FdTable.new.map fun f => f.map .other)) 3 (some (.osInode 0))) = 4 := by
  have hslot : Slots.slot (Slots.put (FdTable.new.map fun f => f.map .other) (FileRef.osInode 0)).2 =
      Function.update (Slots.slot (FdTable.new.map fun f => f.map .other)) 3 (some (.osInode 0)) := Slots.slot_put _ _
  rw [← hslot]
  exact (Slots.isLeast_alloc _).csInf_eq

/-- The first process writes a file, opens it again and has a child. -/
def writtenThenShared : List FileOp := [.open_ 0 "a" 0x201, .write 0 3 [[7], [8, 9]] 0, .open_ 0 "a" 0, .fork 0]

/-- It and the child read. -/
def bothRead : List FileOp := [.read 0 4 [[0, 0]] (0, []), .read 1 4 [[0, 0]] (0, [])]

theorem reads_shared_fork : ∃ d s d₁, (EasyFileSystem.create 0x4000 1).exec (fun _ => Bytes.zero blockSz) =
      some ((Geometry.compute 0x4000 1).toEfs, d) ∧
    (each (OpenFiles.step (Geometry.compute 0x4000 1).toEfs) OpenFiles.start writtenThenShared).exec d =
      some (([.status 3, .status 3, .status 4, .status 1], s), d₁) ∧
    receivedBy (Geometry.compute 0x4000 1).toEfs 1 bothRead s d₁ = [7, 8, 9] := by
  have hmade : (openedOnce [("a", [])] 0 false true 1).Fits (Geometry.compute 0x4000 1) :=
    (Unix.packed_fits.mpr (by decide) : (Unix.packed [("a", [])]).Fits _).of_eq rfl rfl
  have hpacked : (Unix.packed [("a", [7, 8, 9])]).Fits (Geometry.compute 0x4000 1) := Unix.packed_fits.mpr (by decide)
  have hfilled : (openedOnce [("a", [7, 8, 9])] 3 false true 1).Fits (Geometry.compute 0x4000 1) := hpacked.of_eq rfl rfl
  have htwice (offset processes : Nat) : (openedTwice offset processes).Fits (Geometry.compute 0x4000 1) :=
    hpacked.of_eq rfl rfl
  have hwrite : Unix.step (.write 0 3 [[7], [8, 9]] 0) (openedOnce [("a", [])] 0 false true 1) =
      some (.status 3, openedOnce [("a", [7, 8, 9])] 3 false true 1) := rfl
  have hagain : Unix.step (.open_ 0 "a" 0) (openedOnce [("a", [7, 8, 9])] 3 false true 1) =
      some (.status 4, openedTwice 0 1) := by
    have hstep : Unix.step (.open_ 0 "a" 0) (openedOnce [("a", [7, 8, 9])] 3 false true 1) =
        some (.status (Unix.lowest
            (Function.update (Slots.slot (FdTable.new.map fun f => f.map .other)) 3 (some (.osInode 0)))),
          { openedTwice 0 1 with
            processes := [Function.update
              (Function.update (Slots.slot (FdTable.new.map fun f => f.map .other)) 3 (some (.osInode 0)))
              (Unix.lowest (Function.update (Slots.slot (FdTable.new.map fun f => f.map .other)) 3 (some (.osInode 0))))
              (some (.osInode 1))] }) := rfl
    rw [hstep, lowest_opened]
    rfl
  have hfork : Unix.step (.fork 0) (openedTwice 0 1) = some (.status 1, openedTwice 0 2) := rfl
  have hread : Unix.step (.read 0 4 [[0, 0]] (0, [])) (openedTwice 0 2) = some (.bytes 2 [7, 8], openedTwice 2 2) := rfl
  have hrest : Unix.step (.read 1 4 [[0, 0]] (0, [])) (openedTwice 2 2) = some (.bytes 1 [9, 0], openedTwice 3 2) := rfl
  have hbefore : StaysIn Unix.step (Unix.Fits (Geometry.compute 0x4000 1)) writtenThenShared (Unix.packed []) :=
    .cons step_open_new hmade (.cons hwrite hfilled (.cons hagain (htwice _ _) (.cons hfork (htwice _ _) (by trivial))))
  have hanswers : answersOf Unix.step writtenThenShared (Unix.packed []) =
      some ([.status 3, .status 3, .status 4, .status 1], openedTwice 0 2) :=
    answersOf_cons step_open_new (answersOf_cons hwrite (answersOf_cons hagain (answersOf_cons hfork rfl)))
  have hkept : StaysIn Unix.step (fun v => v.Fits (Geometry.compute 0x4000 1) ∧ v.Keeps 0 [7, 8, 9]) bothRead
      (openedTwice 0 2) := .cons hread ⟨htwice _ _, rfl⟩ (.cons hrest ⟨htwice _ _, rfl⟩ (by trivial))
  have hstays : StaysIn Unix.step (Unix.Fits (Geometry.compute 0x4000 1)) bothRead (openedTwice 0 2) :=
    .cons hread (htwice _ _) (.cons hrest (htwice _ _) (by trivial))
  have hreads : answersOf Unix.step bothRead (openedTwice 0 2) = some ([.bytes 2 [7, 8], .bytes 1 [9, 0]], openedTwice 3 2) :=
    answersOf_cons hread (answersOf_cons hrest rfl)
  have hbuf : IsBuffer [[0, 0]] := ⟨by decide, by decide⟩
  have hfirst : ∀ op ∈ writtenThenShared, op.Proper := by
    simp only [writtenThenShared, List.forall_mem_cons, FileOp.Proper]
    exact ⟨trivial, ⟨by decide, by decide⟩, trivial, trivial, fun _ h => absurd h List.not_mem_nil⟩
  have hsecond : ∀ op ∈ bothRead, op.Proper := by
    simp only [bothRead, List.forall_mem_cons, FileOp.Proper]
    exact ⟨hbuf, hbuf, fun _ h => absurd h List.not_mem_nil⟩
  have hlaid : (Geometry.compute 0x4000 1).NoUnderflow := by decide
  obtain ⟨_, d, hcreate, rfl, -⟩ := create_spec (fun _ => Bytes.zero blockSz) hlaid (by decide)
  obtain ⟨s, d₁, hexec, -, hpre, hoff⟩ := reads_shared 0x4000 1 _ _ d hlaid (by decide) hcreate writtenThenShared bothRead
    (List.forall_mem_append.mpr ⟨hfirst, hsecond⟩) hbefore _ _ hanswers 1 ⟨0, 0, true, false⟩ rfl rfl rfl [7, 8, 9] rfl hkept
  refine ⟨d, s, d₁, hcreate, hexec, hpre.eq_of_length ?_⟩
  -- the two reads go through, and leave the offset at the end of the file
  obtain ⟨t, d₂, hexec₂, hend⟩ := calls_after hlaid (by decide) hcreate hfirst hbefore hanswers hexec hsecond hstays hreads
  have hlength := hoff _ t d₂ hexec₂
  rw [hend.osInodes] at hlength
  have hthree : 3 = 0 + (receivedBy (Geometry.compute 0x4000 1).toEfs 1 bothRead s d₁).length := Option.some.inj hlength
  rw [Nat.zero_add] at hthree
  exact hthree.symm

end Run

end RCore.Fs
