import RCore.Fs.Verify.Stored

/-!
# The file system calls do what they are for

`Holds g u s d` relates what programs see (`Unix`) to the tables of the kernel and the disk. A call answers as
`Unix.step` does and keeps the relation, if the names and files after it fit on the disk, and it panics where
`Unix.step` has no answer (`Holds.step`, `Holds.step_panics`).
-/

namespace RCore.Fs

open RCore Prog EasyFs DiskInode Mm

/-- The object for an open file. -/
def osInode (g : Geometry) (o : OpenFile) : OSInode :=
  ⟨o.readable, o.writable, ⟨o.offset, g.toEfs.inode (UInt32.ofNat (o.file + 1))⟩⟩

/-- The tables of the kernel and the disk stand for `u`. -/
structure Holds (g : Geometry) (u : Unix) (s : OpenFiles) (d : Disk) : Prop where
  stored : ∃ root nodes, Stored g u.names u.files root nodes d
  osInodes : s.osInodes = u.opened.map (osInode g)
  fdTables : s.fdTables.map Slots.slot = u.processes
  opened : ∀ o ∈ u.opened, o.file < u.files.length ∧ o.offset ≤ indirect2Bound * blockSz
  refs : ∀ fds ∈ u.processes, ∀ fd n, fds fd = some (.osInode n) → n < u.opened.length

/-- Buffers are those of user pointers. -/
def FileOp.Proper : FileOp → Prop
  | .read _ _ buf _ => IsBuffer buf
  | .write _ _ buf _ => IsBuffer buf
  | _ => True

namespace Holds

variable {g : Geometry} {u v : Unix} {s : OpenFiles} {d d' : Disk} {p fd n : Nat} {t : Slots FileRef}
  {fds : Nat → Option FileRef} {file : FileRef} (hl : g.Laid) (h : Holds g u s d)

include h in
/-- The table of a process. -/
theorem table (hp : u.processes[p]? = some fds) : ∃ t, s.fdTables[p]? = some t ∧ t.slot = fds := by
  rw [← h.fdTables, List.getElem?_map] at hp
  exact Option.map_eq_some_iff.mp hp

include h in
theorem no_table (hp : u.processes[p]? = none) : s.fdTables[p]? = none := by
  rw [← h.fdTables, List.getElem?_map] at hp
  exact Option.map_eq_none_iff.mp hp

include h in
/-- The object for an open file is in the kernel. -/
theorem object {o : OpenFile} (ho : u.opened[n]? = some o) : s.osInodes[n]? = some (osInode g o) := by
  rw [h.osInodes, List.getElem?_map, ho]
  rfl

include h in
/-- An open file that a descriptor stands for. -/
theorem openFile_of_ref (hp : u.processes[p]? = some fds) (hfd : fds fd = some (.osInode n)) :
    ∃ o f, u.opened[n]? = some o ∧ u.files[o.file]? = some f ∧ s.osInodes[n]? = some (osInode g o) ∧
      o.offset ≤ indirect2Bound * blockSz := by
  have hn := h.refs fds (List.mem_of_getElem? hp) fd n hfd
  have ho := List.getElem?_eq_getElem hn
  obtain ⟨hfile, hoff⟩ := h.opened _ (List.getElem_mem hn)
  exact ⟨_, _, ho, List.getElem?_eq_getElem hfile, h.object ho, hoff⟩

/-! ## Changing a part -/

include h in
/-- Other names and files. -/
theorem withStored (hst : ∃ root nodes, Stored g v.names v.files root nodes d') (ho : v.opened = u.opened)
    (hp : v.processes = u.processes) (hlen : u.files.length ≤ v.files.length) : Holds g v s d' where
  stored := hst
  osInodes := by rw [ho, h.osInodes]
  fdTables := by rw [hp, h.fdTables]
  opened o hmem := by
    rw [ho] at hmem
    obtain ⟨hfile, hoff⟩ := h.opened o hmem
    exact ⟨Nat.lt_of_lt_of_le hfile hlen, hoff⟩
  refs := by
    rw [ho, hp]
    exact h.refs

include h in
/-- Another table for a process. -/
theorem setTable (ht : t.slot = fds) (hrefs : ∀ fd n, fds fd = some (.osInode n) → n < u.opened.length) (p : Nat) :
    Holds g { u with processes := u.processes.set p fds } { s with fdTables := s.fdTables.set p t } d where
  stored := h.stored
  osInodes := h.osInodes
  fdTables := by
    rw [List.map_set, h.fdTables, ht]
  opened := h.opened
  refs fds' hmem := by
    rcases List.mem_or_eq_of_mem_set hmem with hmem | rfl
    · exact h.refs fds' hmem
    · exact hrefs

include h in
/-- A descriptor for a file. -/
theorem install (hp : u.processes[p]? = some fds) (ht : t.slot = fds)
    (hfile : ∀ n, file = .osInode n → n < u.opened.length) :
    (s.install p t file).1 = (u.install p fds file).1 ∧ Holds g (u.install p fds file).2 (s.install p t file).2 d := by
  have hfd : (t.put file).1 = Unix.lowest fds := by
    rw [Slots.put_fst, ht]
    rfl
  have hslot : (t.put file).2.slot = Function.update fds (Unix.lowest fds) (some file) := by rw [Slots.slot_put, hfd, ht]
  refine ⟨congrArg Int.ofNat hfd, h.setTable hslot (fun fd n hn => ?_) p⟩
  rcases eq_or_ne fd (Unix.lowest fds) with rfl | hne
  · rw [Function.update_self] at hn
    exact hfile n (Option.some.inj hn)
  · rw [Function.update_of_ne hne] at hn
    exact h.refs fds (List.mem_of_getElem? hp) fd n hn

include h in
/-- One more open file. -/
theorem addOpened {o : OpenFile} (hfile : o.file < u.files.length) (hoff : o.offset ≤ indirect2Bound * blockSz) :
    Holds g (u.addOpened o) { s with osInodes := s.osInodes ++ [osInode g o] } d where
  stored := h.stored
  osInodes := by
    rw [Unix.addOpened, List.map_append, h.osInodes]
    rfl
  fdTables := h.fdTables
  opened o' hmem := by
    rcases List.mem_append.mp hmem with hmem | hmem
    · exact h.opened o' hmem
    · rw [List.mem_singleton.mp hmem]
      exact ⟨hfile, hoff⟩
  refs fds hmem fd n hn := by
    rw [Unix.addOpened, List.length_append]
    exact Nat.lt_add_right _ (h.refs fds hmem fd n hn)

include h in
/-- An open file at another offset. -/
theorem setOpened {o : OpenFile} (hfile : o.file < u.files.length) (hoff : o.offset ≤ indirect2Bound * blockSz) (n : Nat) :
    Holds g { u with opened := u.opened.set n o } { s with osInodes := s.osInodes.set n (osInode g o) } d where
  stored := h.stored
  osInodes := by
    rw [List.map_set, h.osInodes]
  fdTables := h.fdTables
  opened o' hmem := by
    rcases List.mem_or_eq_of_mem_set hmem with hmem | rfl
    · exact h.opened o' hmem
    · exact ⟨hfile, hoff⟩
  refs fds hmem fd n' hn := by
    rw [List.length_set]
    exact h.refs fds hmem fd n' hn

end Holds

/-! ## `open_file` -/

section OpenFile

variable {g : Geometry} {u : Unix} {root : Node} {nodes : List Node} {d : Disk}

theorem Unix.openFile_lt (u : Unix) (path : String) (flags : OpenFlags) : u.files.length ≤ (u.openFile path flags).2.files.length := by
  unfold openFile
  split
  · dsimp only
    split
    · rw [setBytes, List.length_modify]
    · exact Nat.le_refl _
  · split
    · rw [addFile, List.length_append]
      exact Nat.le_add_right _ _
    · exact Nat.le_refl _

theorem Unix.openFile_same (u : Unix) (path : String) (flags : OpenFlags) :
    (u.openFile path flags).2.opened = u.opened ∧ (u.openFile path flags).2.processes = u.processes := by
  unfold openFile
  split
  · dsimp only
    split <;> exact ⟨rfl, rfl⟩
  · split <;> exact ⟨rfl, rfl⟩

theorem Stored.openFile_wp (hl : g.Laid) (h : Stored g u.names u.files root nodes d) (path : String) (flags : OpenFlags)
    (hfits : (u.openFile path flags).2.Fits g) : (openFile g.toEfs path flags).wp (fun o d' =>
      o = (u.openFile path flags).1.map (fun j => osInode g ⟨j, 0, flags.readWrite.1, flags.readWrite.2⟩) ∧
      (∃ root nodes, Stored g (u.openFile path flags).2.names (u.openFile path flags).2.files root nodes d') ∧
      ∀ j, (u.openFile path flags).1 = some j → j < (u.openFile path flags).2.files.length) d := by
  have hfind := h.find_exec hl path
  cases hf : u.find path with
  | some j =>
    have hj := h.find_lt hf
    have hj' : j < (u.setBytes j []).files.length := by
      rw [Unix.setBytes, List.length_modify]
      exact hj
    obtain ⟨d', root', nodes', hclear, hst⟩ := h.clear_exec hl hj
    rw [hf, Option.map_some] at hfind
    simp only [openFile, Unix.openFile, hf, Option.map_some]
    by_cases hc : flags.contains .CREATE = true
    · rw [if_pos hc, wp_bind_of_exec hfind, hc, Bool.true_or, if_pos rfl]
      dsimp only
      rw [wp_bind_of_exec hclear, wp_pure]
      exact ⟨rfl, ⟨root', nodes', hst⟩, fun k hk => Option.some.inj hk ▸ hj'⟩
    · have hc' : flags.contains .CREATE = false := eq_false_of_ne_true hc
      rw [if_neg hc, wp_bind_of_exec hfind, hc', Bool.false_or]
      dsimp only
      by_cases ht : flags.contains .TRUNC = true
      · rw [if_pos ht, if_pos ht, wp_bind_of_exec hclear, wp_pure]
        exact ⟨rfl, ⟨root', nodes', hst⟩, fun k hk => Option.some.inj hk ▸ hj'⟩
      · rw [if_neg ht, if_neg ht, wp_pure]
        exact ⟨rfl, ⟨root, nodes, h⟩, fun k hk => Option.some.inj hk ▸ hj⟩
  | none =>
    rw [hf, Option.map_none] at hfind
    simp only [openFile, Unix.openFile, hf] at hfits ⊢
    by_cases hc : flags.contains .CREATE = true
    · rw [if_pos hc] at hfits
      obtain ⟨d', root', nodes', hcreate, hst⟩ := h.create_exec hl hf hfits
      rw [if_pos hc, if_pos hc, wp_bind_of_exec hfind]
      dsimp only
      rw [wp_bind_of_exec hcreate, wp_pure]
      refine ⟨rfl, ⟨root', nodes', hst⟩, fun k hk => ?_⟩
      obtain rfl := Option.some.inj hk
      rw [Unix.addFile, List.length_append]
      exact Nat.lt_succ_self _
    · rw [if_neg hc, if_neg hc, wp_bind_of_exec hfind]
      dsimp only
      rw [wp_pure]
      exact ⟨rfl, ⟨root, nodes, h⟩, fun k hk => by cases hk⟩

end OpenFile

/-! ## The calls -/

theorem asIsize_of_lt {n : Nat} (h : n < 2 ^ 63) : asIsize n = n := by rw [asIsize, if_pos h]


section Calls

variable {g : Geometry} {u : Unix} {s : OpenFiles} {d : Disk} (hl : g.Laid) (h : Holds g u s d)

include h in
/-- Every call of a process starts with its table. -/
theorem Holds.meets_table {p : Nat} {k : Slots FileRef → EfsM (FileAnswer × OpenFiles)}
    {m : (Nat → Option FileRef) → Option (FileAnswer × Unix)} (hk : ∀ t, u.processes[p]? = some t.slot →
      Meets (Holds g) (Unix.Fits g) (k t) (m t.slot) d) :
    Meets (Holds g) (Unix.Fits g) (s.fdTable p >>= k) (u.processes[p]? >>= m) d := by
  refine Meets.unwrap h.no_table fun fds hp => ?_
  obtain ⟨t, ht, rfl⟩ := h.table hp
  exact ⟨t, ht, hk t hp⟩

include h in
theorem Holds.close_meets (p fd : Nat) :
    Meets (Holds g) (Unix.Fits g) (s.step g.toEfs (.close p fd)) (u.step (.close p fd)) d := by
  rw [OpenFiles.step, OpenFiles.sysClose, bind_assoc]
  refine h.meets_table fun t hp => ?_
  cases hslot : t.slot fd with
  | none => exact fun _ => ⟨_, _, rfl, rfl, h⟩
  | some file =>
    refine fun _ => ⟨_, _, rfl, rfl, h.setTable (Slots.slot_set_none t fd) (fun fd' n hn => ?_) p⟩
    rcases eq_or_ne fd' fd with rfl | hne
    · rw [Function.update_self] at hn
      cases hn
    · rw [Function.update_of_ne hne] at hn
      exact h.refs t.slot (List.mem_of_getElem? hp) fd' n hn

include h in
theorem Holds.dup_meets (p fd : Nat) :
    Meets (Holds g) (Unix.Fits g) (s.step g.toEfs (.dup p fd)) (u.step (.dup p fd)) d := by
  rw [OpenFiles.step, OpenFiles.sysDup, bind_assoc]
  refine h.meets_table fun t hp => ?_
  cases hslot : t.slot fd with
  | none => exact fun _ => ⟨_, _, rfl, rfl, h⟩
  | some file =>
    obtain ⟨hfd, hholds⟩ := h.install hp rfl fun n hn => h.refs t.slot (List.mem_of_getElem? hp) fd n (hn ▸ hslot)
    exact fun _ => ⟨_, _, rfl, congrArg FileAnswer.status hfd, hholds⟩

include h in
theorem Holds.fork_meets (p : Nat) :
    Meets (Holds g) (Unix.Fits g) (s.step g.toEfs (.fork p)) (u.step (.fork p)) d := by
  rw [OpenFiles.step, OpenFiles.fork, bind_assoc]
  refine h.meets_table fun t hp => ?_
  have hlen : s.fdTables.length = u.processes.length := by rw [← h.fdTables, List.length_map]
  refine fun _ => ⟨_, _, rfl, congrArg (fun n : Nat => FileAnswer.status n) hlen, ?_⟩
  refine { h with fdTables := ?_, refs := fun fds hmem => ?_ }
  · rw [List.map_append, h.fdTables]
    rfl
  · rcases List.mem_append.mp hmem with hmem | hmem
    · exact h.refs fds hmem
    · rw [List.mem_singleton.mp hmem]
      exact h.refs t.slot (List.mem_of_getElem? hp)

include hl h in
theorem Holds.open_meets (p : Nat) (path : String) (flags : UInt32) :
    Meets (Holds g) (Unix.Fits g) (s.step g.toEfs (.open_ p path flags)) (u.step (.open_ p path flags)) d := by
  rw [OpenFiles.step, OpenFiles.sysOpen, bind_assoc]
  refine h.meets_table fun t hp => ?_
  rw [bind_assoc]
  refine Meets.unwrap id fun bits hbits => ⟨bits, hbits, ?_⟩
  obtain ⟨root, nodes, hst⟩ := h.stored
  have hlt := u.openFile_lt path bits
  have hsame := u.openFile_same path bits
  have hwp := hst.openFile_wp hl path bits
  cases hopen : u.openFile path bits with
  | mk r v =>
    rw [hopen] at hlt hsame hwp
    obtain ⟨hopened, hprocesses⟩ := hsame
    cases r with
    | none =>
      intro hfits
      obtain ⟨_, d', hexec, rfl, hst', -⟩ := hwp hfits
      rw [bind_assoc, wp_bind_of_exec hexec]
      exact ⟨_, _, rfl, rfl, h.withStored hst' hopened hprocesses hlt⟩
    | some j =>
      intro hfits
      obtain ⟨_, d', hexec, rfl, hst', hj⟩ := hwp (hfits.of_eq rfl rfl)
      rw [bind_assoc, wp_bind_of_exec hexec]
      -- the object is the last of the open files, and the table refers to it
      have hlen : s.osInodes.length = v.opened.length := by rw [h.osInodes, List.length_map, hopened]
      have hadd := (h.withStored hst' hopened hprocesses hlt).addOpened (o := ⟨j, 0, bits.readWrite.1, bits.readWrite.2⟩)
        (hj j rfl) (Nat.zero_le _)
      have hlast (n : Nat) (hn : FileRef.osInode v.opened.length = .osInode n) :
          n < (v.addOpened ⟨j, 0, bits.readWrite.1, bits.readWrite.2⟩).opened.length := by
        rw [← FileRef.osInode.inj hn, Unix.addOpened, List.length_append]
        exact Nat.lt_succ_self _
      obtain ⟨hfd, hholds⟩ := hadd.install (hprocesses ▸ hp) rfl hlast
      dsimp only [Option.map_some]
      rw [hlen]
      exact ⟨_, _, rfl, congrArg FileAnswer.status hfd, hholds⟩

include hl h in
theorem Holds.linkat_meets (olddirfd : Int) (oldpath : String) (newdirfd : Int) (newpath : String) (flags : UInt32) :
    Meets (Holds g) (Unix.Fits g) (s.step g.toEfs (.linkat olddirfd oldpath newdirfd newpath flags))
      (u.step (.linkat olddirfd oldpath newdirfd newpath flags)) d := by
  obtain ⟨root, nodes, hst⟩ := h.stored
  rw [OpenFiles.step, sysLinkat, Unix.step, ite_and, ite_and, bind_assoc]
  refine Meets.assert fun _ => ?_
  rw [bind_assoc]
  refine Meets.assert fun _ => ?_
  rw [bind_assoc]
  refine Meets.assert fun _ => ?_
  cases hn : u.find newpath with
  | some j =>
    have hold : u.find newpath ≠ none := hn ▸ Option.some_ne_none j
    exact fun _ => (wp_bind_of_exec (hst.linkat_old hl (.inl hold)) _ _).mpr ⟨_, _, rfl, rfl, h⟩
  | none =>
    cases ho : u.find oldpath with
    | none => exact fun _ => (wp_bind_of_exec (hst.linkat_old hl (.inr ho)) _ _).mpr ⟨_, _, rfl, rfl, h⟩
    | some j =>
      intro hfits
      obtain ⟨d', root', nodes', hexec, hst'⟩ := hst.linkat_new hl hn ho hfits
      have hlen : u.files.length ≤ (u.addName newpath j).files.length := by rw [Unix.addName, List.length_modify]
      exact (wp_bind_of_exec hexec _ _).mpr ⟨_, _, rfl, rfl, h.withStored ⟨root', nodes', hst'⟩ rfl rfl hlen⟩

include hl h in
theorem Holds.unlinkat_meets (dirfd : Int) (path : String) (flags : UInt32) :
    Meets (Holds g) (Unix.Fits g) (s.step g.toEfs (.unlinkat dirfd path flags)) (u.step (.unlinkat dirfd path flags)) d := by
  obtain ⟨root, nodes, hst⟩ := h.stored
  rw [OpenFiles.step, sysUnlinkat, Unix.step, ite_and, bind_assoc]
  refine Meets.assert fun _ => ?_
  rw [bind_assoc]
  refine Meets.assert fun _ => ?_
  cases hf : u.find path with
  | none => exact fun _ => (wp_bind_of_exec (hst.unlinkat_absent hl hf) _ _).mpr ⟨_, _, rfl, rfl, h⟩
  | some j =>
    intro hfits
    obtain ⟨d', root', nodes', hexec, hst'⟩ := hst.unlinkat_present hl hf hfits.records
    refine (wp_bind_of_exec hexec _ _).mpr ⟨_, _, rfl, rfl, h.withStored ⟨root', nodes', hst'⟩ rfl rfl ?_⟩
    rw [List.length_modify]

include hl h in
theorem Holds.fstat_meets (p fd : Nat) :
    Meets (Holds g) (Unix.Fits g) (s.step g.toEfs (.fstat p fd)) (u.step (.fstat p fd)) d := by
  obtain ⟨root, nodes, hst⟩ := h.stored
  rw [OpenFiles.step, OpenFiles.sysFstat, bind_assoc]
  refine h.meets_table fun t hp => ?_
  cases hslot : t.slot fd with
  | none => exact fun _ => ⟨_, _, rfl, rfl, h⟩
  | some file =>
    cases file with
    | other f => exact fun _ => ⟨_, _, rfl, rfl, h⟩
    | osInode n =>
      obtain ⟨o, f, ho, hf, hn, -⟩ := h.openFile_of_ref hp hslot
      have hmodel : u.fstat n = some (.stat 0 (some ⟨0, o.file + 1, StatMode.FILE, f.nlink.toNat, Vector.replicate 7 0⟩)) := by
        rw [Unix.fstat, ho, Option.bind_eq_bind, Option.bind_some, hf]
        rfl
      have hexec := hst.fstat_exec hl (o := osInode g o) rfl hf
      dsimp only
      rw [hn, hmodel]
      intro _
      rw [bind_assoc, wp_bind_of_exec (show exec (unwrap (some (osInode g o))) d = some (osInode g o, d) from rfl), bind_assoc,
        wp_bind_of_exec hexec]
      exact ⟨_, _, rfl, rfl, h⟩

include hl h in
theorem Holds.load_meets (path : String) :
    Meets (Holds g) (Unix.Fits g) (s.step g.toEfs (.load path)) (u.step (.load path)) d := by
  obtain ⟨root, nodes, hst⟩ := h.stored
  intro hfits
  have hopen : u.openFile path OpenFlags.RDONLY = (u.find path, u) := by
    rw [Unix.openFile]
    cases u.find path <;> rfl
  have hwp := hst.openFile_wp hl path OpenFlags.RDONLY
  rw [hopen] at hwp
  obtain ⟨_, d', hexec, rfl, ⟨root', nodes', hst'⟩, hj⟩ := hwp hfits
  have hload : (loadApp g.toEfs path).exec d = some ((u.find path).bind fun j => u.files[j]?.map UnixFile.bytes, d') := by
    rw [loadApp, exec_bind, hexec, Option.bind_some]
    cases hf : u.find path with
    | none => rfl
    | some j =>
      have hjf : u.files[j]? = _ := List.getElem?_eq_getElem (hj j hf)
      have hread := hst'.readAll_exec hl
        (o := osInode g ⟨j, 0, OpenFlags.RDONLY.readWrite.1, OpenFlags.RDONLY.readWrite.2⟩) rfl hjf rfl
      dsimp only [Option.map_some]
      rw [exec_bind, hread, Option.bind_some, Option.bind_some, hjf]
      rfl
  exact (wp_bind_of_exec hload _ _).mpr ⟨_, _, rfl, rfl, h.withStored ⟨root', nodes', hst'⟩ rfl rfl (Nat.le_refl _)⟩

include hl h in
theorem Holds.read_meets (p fd : Nat) (buf : List (List UInt8)) (other : Nat × List (List UInt8)) (hbuf : IsBuffer buf) :
    Meets (Holds g) (Unix.Fits g) (s.step g.toEfs (.read p fd buf other)) (u.step (.read p fd buf other)) d := by
  obtain ⟨root, nodes, hst⟩ := h.stored
  rw [OpenFiles.step, OpenFiles.sysRead, bind_assoc]
  refine h.meets_table fun t hp => ?_
  cases hslot : t.slot fd with
  | none => exact fun _ => ⟨_, _, rfl, rfl, h⟩
  | some file =>
    cases file with
    | other f =>
      dsimp only
      rw [show s.readable (.other f) = f.readable from rfl]
      cases f.readable with
      | true => exact fun _ => ⟨_, _, rfl, rfl, h⟩
      | false => exact fun _ => ⟨_, _, rfl, rfl, h⟩
    | osInode n =>
      obtain ⟨o, f, ho, hf, hn, hoff⟩ := h.openFile_of_ref hp hslot
      have hreadable : s.readable (.osInode n) = o.readable := by
        rw [OpenFiles.readable, hn]
        rfl
      dsimp only
      rw [hreadable, Unix.read, ho, Option.bind_eq_bind, Option.bind_some]
      by_cases hr : o.readable = true
      · rw [if_pos hr, if_pos hr, hf, hn, bind_assoc]
        have hget : exec (unwrap (some (osInode g o))) d = some (osInode g o, d) := rfl
        obtain ⟨r, hexec, hflat⟩ := hst.read_exec hl (o := osInode g o) rfl hf hbuf (Nat.lt_of_le_of_lt hoff (by decide))
        have hcount : ((f.bytes.drop o.offset).take buf.flatten.length).length ≤ f.bytes.length - o.offset :=
          Nat.le_trans (List.length_take_le' _ _) (Nat.le_of_eq List.length_drop)
        have hend : f.bytes.length ≤ 16540 * 512 := hst.length_le hf
        have hoff : o.offset ≤ 16540 * 512 := hoff
        have hnext : o.offset + ((f.bytes.drop o.offset).take buf.flatten.length).length ≤ 16540 * 512 := by omega
        have hmoved := h.setOpened (n := n)
          (o := { o with offset := o.offset + ((f.bytes.drop o.offset).take buf.flatten.length).length })
          (List.getElem?_eq_some_iff.mp hf).1 hnext
        have hsmall : ((f.bytes.drop o.offset).take buf.flatten.length).length < 2 ^ 63 := by omega
        refine fun _ => (wp_bind_of_exec hget _ _).mpr ?_
        rw [Prog.bind_assoc, wp_bind_of_exec hexec]
        exact ⟨_, _, rfl, congrArg₂ FileAnswer.bytes (asIsize_of_lt hsmall) hflat, hmoved⟩
      · rw [if_neg hr, if_neg hr]
        exact fun _ => ⟨_, _, rfl, rfl, h⟩

include hl h in
theorem Holds.write_meets (p fd : Nat) (buf : List (List UInt8)) (other : Nat) (hbuf : IsBuffer buf) :
    Meets (Holds g) (Unix.Fits g) (s.step g.toEfs (.write p fd buf other)) (u.step (.write p fd buf other)) d := by
  obtain ⟨root, nodes, hst⟩ := h.stored
  rw [OpenFiles.step, OpenFiles.sysWrite, bind_assoc]
  refine h.meets_table fun t hp => ?_
  cases hslot : t.slot fd with
  | none => exact fun _ => ⟨_, _, rfl, rfl, h⟩
  | some file =>
    cases file with
    | other f =>
      dsimp only
      rw [show s.writable (.other f) = f.writable from rfl]
      cases f.writable with
      | true => exact fun _ => ⟨_, _, rfl, rfl, h⟩
      | false => exact fun _ => ⟨_, _, rfl, rfl, h⟩
    | osInode n =>
      obtain ⟨o, f, ho, hf, hn, hoff⟩ := h.openFile_of_ref hp hslot
      have hwritable : s.writable (.osInode n) = o.writable := by
        rw [OpenFiles.writable, hn]
        rfl
      dsimp only
      rw [hwritable, Unix.write, ho, Option.bind_eq_bind, Option.bind_some]
      by_cases hw : o.writable = true
      · rw [if_pos hw, if_pos hw, hn, bind_assoc]
        have hget : exec (unwrap (some (osInode g o))) d = some (osInode g o, d) := rfl
        by_cases hnil : buf.flatten = []
        · obtain rfl := hbuf.flatten_eq_nil.mp hnil
          obtain ⟨hlt, hget'⟩ := List.getElem?_eq_some_iff.mp ho
          have hsame : u.opened.set n o = u.opened := by rw [← hget', List.set_getElem_self]
          have hmoved := h.setOpened (n := n) (o := o) (List.getElem?_eq_some_iff.mp hf).1 hoff
          rw [hsame] at hmoved
          rw [if_pos (show ([] : List (List UInt8)).flatten = [] from rfl)]
          exact fun _ => ⟨_, _, rfl, rfl, hmoved⟩
        · rw [if_neg hnil, hf]
          intro hfits
          have hfile : (u.setBytes o.file (Unix.overwrite f.bytes o.offset buf.flatten)).Fits g := hfits.of_eq rfl rfl
          obtain ⟨d', root', nodes', hexec, hst'⟩ := hst.write_exec hl (o := osInode g o) rfl hf hbuf hnil hfile
          have hlen : u.files.length ≤ (u.setBytes o.file (Unix.overwrite f.bytes o.offset buf.flatten)).files.length := by
            rw [Unix.setBytes, List.length_modify]
          have hwritten := h.withStored (v := u.setBytes o.file (Unix.overwrite f.bytes o.offset buf.flatten))
            ⟨root', nodes', hst'⟩ rfl rfl hlen
          have hmoved := hwritten.setOpened (n := n) (o := { o with offset := o.offset + buf.flatten.length })
            (Nat.lt_of_lt_of_le (List.getElem?_eq_some_iff.mp hf).1 hlen)
            (hfile.offset_le hf)
          refine (wp_bind_of_exec hget _ _).mpr ?_
          rw [Prog.bind_assoc, wp_bind_of_exec hexec]
          exact ⟨_, _, rfl, congrArg FileAnswer.status (asIsize_of_lt hbuf.small), hmoved⟩
      · rw [if_neg hw, if_neg hw]
        exact fun _ => ⟨_, _, rfl, rfl, h⟩

include hl h in
theorem Holds.ls_meets : Meets (Holds g) (Unix.Fits g) (s.step g.toEfs .ls) (u.step .ls) d := by
  obtain ⟨root, nodes, hst⟩ := h.stored
  exact fun _ => (wp_bind_of_exec (hst.ls_exec hl) _ _).mpr ⟨_, _, rfl, rfl, h⟩

include hl h in
/-- **The calls.** A call does what the model says, if the names and files after it fit on the disk. -/
theorem Holds.meets {op : FileOp} (hop : op.Proper) :
    Meets (Holds g) (Unix.Fits g) (s.step g.toEfs op) (u.step op) d := by
  cases op with
  | open_ p path flags => exact h.open_meets hl p path flags
  | close p fd => exact h.close_meets p fd
  | dup p fd => exact h.dup_meets p fd
  | read p fd buf other => exact h.read_meets hl p fd buf other hop
  | write p fd buf other => exact h.write_meets hl p fd buf other hop
  | fstat p fd => exact h.fstat_meets hl p fd
  | linkat olddirfd oldpath newdirfd newpath flags => exact h.linkat_meets hl olddirfd oldpath newdirfd newpath flags
  | unlinkat dirfd path flags => exact h.unlinkat_meets hl dirfd path flags
  | fork p => exact h.fork_meets p
  | load path => exact h.load_meets hl path
  | ls => exact h.ls_meets hl

end Calls

end RCore.Fs
