import RCore.Fs.Pipe
import RCore.Lib.Slots

/-!
# Descriptor tables

The files that a descriptor can refer to, and the functions of `os/src/syscall/fs.rs` and
`TaskControlBlockInner::alloc_fd` (`os/src/task/task.rs`) on the table of a process. Two descriptors refer
to the same file if their values are equal; the two ends of a pipe are named by the pipe.
-/

namespace RCore.Fs

/-- What an `Arc<dyn File>` points to. -/
inductive File where
  | stdin
  | stdout
  /-- An `OSInode`, which `open_file` makes of a path. -/
  | inode (path : List Char) (readable writable : Bool)
  | pipeRead (pipe : Nat)
  | pipeWrite (pipe : Nat)
  deriving DecidableEq

namespace File

/-- `File::readable` -/
def readable : File → Bool
  | stdin => true
  | stdout => false
  | inode _ r _ => r
  | pipeRead _ => Pipe.readEndWithBuffer.readable
  | pipeWrite _ => Pipe.writeEndWithBuffer.readable

/-- `File::writable` -/
def writable : File → Bool
  | stdin => false
  | stdout => true
  | inode _ _ w => w
  | pipeRead _ => Pipe.readEndWithBuffer.writable
  | pipeWrite _ => Pipe.writeEndWithBuffer.writable

end File

/-- `fd_table` -/
abbrev FdTable := List (Option File)

namespace FdTable

/-- The table of a new process that is not forked. -/
def new : FdTable := [some .stdin, some .stdout, some .stdout]

/-- `fd_table[fd]`, `none` also beyond the end. -/
def file (t : FdTable) (fd : Nat) : Option File := t[fd]?.join

/-- The files of a table. -/
def files (t : FdTable) : List File := t.filterMap id

/-- `TaskControlBlockInner::alloc_fd` -/
def allocFd (t : FdTable) : Nat × FdTable :=
  match t.findIdx? Option.isNone with
  | some fd => (fd, t)
  | none => (t.length, t ++ [none])

/-- `alloc_fd` and the assignment after it. -/
def install (t : FdTable) (file : File) : Nat × FdTable :=
  let (fd, t) := t.allocFd
  (fd, t.set fd (some file))

/-- `sys_open`; `inode` is what `open_file` returns. -/
def sysOpen (t : FdTable) (inode : Option File) : Int × FdTable :=
  match inode with
  | some file =>
    let (fd, t) := t.install file
    (fd, t)
  | none => (-1, t)

/-- `sys_close` -/
def sysClose (t : FdTable) (fd : Nat) : Int × FdTable :=
  if (t.file fd).isNone then (-1, t) else (0, t.set fd none)

/-- `sys_pipe`: the two descriptors. -/
def sysPipe (t : FdTable) (pipe : Nat) : (Nat × Nat) × FdTable :=
  let (readFd, t) := t.install (.pipeRead pipe)
  let (writeFd, t) := t.install (.pipeWrite pipe)
  ((readFd, writeFd), t)

/-- `sys_dup` -/
def sysDup (t : FdTable) (fd : Nat) : Int × FdTable :=
  match t.file fd with
  | none => (-1, t)
  | some file =>
    let (newFd, t) := t.install file
    (newFd, t)

/-! ## The files of a table -/

variable {t : FdTable} {fd : Nat} {f : File}

theorem mem_files : f ∈ t.files ↔ ∃ fd, t.file fd = some f := by
  rw [files, List.mem_filterMap]
  constructor
  · rintro ⟨o, ho, rfl⟩
    obtain ⟨fd, hfd⟩ := List.mem_iff_getElem?.mp ho
    exact ⟨fd, by rw [file, hfd]; rfl⟩
  · rintro ⟨fd, hfd⟩
    exact ⟨some f, List.mem_of_getElem? (Option.join_eq_some_iff.mp hfd), rfl⟩

/-- A free place is filled. -/
theorem files_set_some (h : t[fd]? = some none) (f : File) : (files (t.set fd (some f))).Perm (f :: t.files) := by
  induction t generalizing fd with
  | nil => cases h
  | cons o t ih =>
    cases fd with
    | zero =>
      cases h
      exact .refl _
    | succ fd =>
      have ht := ih (show t[fd]? = some none from h)
      cases o with
      | none => exact ht
      | some g => exact (ht.cons g).trans (.swap f g _)

/-- A place is emptied. -/
theorem files_set_none (h : t.file fd = some f) : (f :: files (t.set fd none)).Perm t.files := by
  have hfd : t[fd]? = some (some f) := Option.join_eq_some_iff.mp h
  clear h
  induction t generalizing fd with
  | nil => cases hfd
  | cons o t ih =>
    cases fd with
    | zero =>
      cases hfd
      exact .refl _
    | succ fd =>
      have ht := ih (show t[fd]? = some (some f) from hfd)
      cases o with
      | none => exact ht
      | some g => exact (List.Perm.swap g f _).trans (ht.cons g)

/-- The place that `alloc_fd` finds is free. -/
theorem allocFd_free (t : FdTable) : t.allocFd.2[t.allocFd.1]? = some none ∧ t.allocFd.2.files = t.files := by
  refine ⟨Slots.alloc_free t, ?_⟩
  unfold allocFd
  cases t.findIdx? Option.isNone with
  | some fd => rfl
  | none =>
    show files (t ++ [none]) = t.files
    rw [files, List.filterMap_append]
    exact List.append_nil _

theorem files_install (t : FdTable) (f : File) : (t.install f).2.files.Perm (f :: t.files) := by
  obtain ⟨hfree, hfiles⟩ := t.allocFd_free
  have h := files_set_some hfree f
  rw [hfiles] at h
  exact h

/-! ## What a descriptor refers to -/

/-- `fd` is the lowest free descriptor. -/
structure Lowest (t : FdTable) (fd : Nat) : Prop where
  free : t.file fd = none
  taken : ∀ m < fd, t.file m ≠ none

theorem Lowest.unique {fd fd' : Nat} (h : t.Lowest fd) (h' : t.Lowest fd') : fd = fd' := by
  rcases Nat.lt_trichotomy fd fd' with hlt | heq | hlt
  · exact absurd h.free (h'.taken fd hlt)
  · exact heq
  · exact absurd h'.free (h.taken fd' hlt)

theorem lowest_allocFd (t : FdTable) : t.Lowest t.allocFd.1 := by
  obtain ⟨hfree, hlow⟩ := Slots.isLeast_alloc t
  exact ⟨hfree, fun m hm hnone => Nat.not_le_of_lt hm (hlow hnone)⟩

theorem file_set {o : Option File} (h : fd < t.length) : file (t.set fd o) = Function.update t.file fd o :=
  Slots.slot_set h

theorem file_allocFd (t : FdTable) : t.allocFd.2.file = t.file := Slots.slot_alloc t

theorem lowest_install (t : FdTable) (f : File) : t.Lowest (t.install f).1 := t.lowest_allocFd

theorem file_install (t : FdTable) (f : File) :
    (t.install f).2.file = Function.update t.file (t.install f).1 (some f) := by
  obtain ⟨hfree, -⟩ := t.allocFd_free
  obtain ⟨hlt, -⟩ := List.getElem?_eq_some_iff.mp hfree
  rw [← file_allocFd t]
  exact file_set hlt

theorem file_sysClose (t : FdTable) (fd : Nat) : (t.sysClose fd).2.file = Function.update t.file fd none := by
  unfold sysClose
  split
  · rename_i h
    exact (Function.update_eq_self_iff.mpr (Option.isNone_iff_eq_none.mp h).symm).symm
  · rename_i h
    refine file_set (Nat.lt_of_not_le fun hle => h ?_)
    rw [file, List.getElem?_eq_none hle]
    rfl

theorem sysDup_of_file (h : t.file fd = some f) : t.sysDup fd = (((t.install f).1 : Int), (t.install f).2) := by
  rw [sysDup, h]

/-- Closing a descriptor and duplicating another puts that one's file in its place, if everything below it
is taken. -/
theorem dup_after_close {src : Nat} (hlow : ∀ m < fd, t.file m ≠ none) (hne : src ≠ fd) (hsrc : t.file src = some f) :
    ((t.sysClose fd).2.sysDup src).1 = fd ∧
      ((t.sysClose fd).2.sysDup src).2.file = Function.update t.file fd (some f) := by
  have hclose := file_sysClose t fd
  have hsrc' : (t.sysClose fd).2.file src = some f := by rw [hclose, Function.update_of_ne hne, hsrc]
  have hlowest : (t.sysClose fd).2.Lowest fd := by
    refine ⟨by rw [hclose, Function.update_self], fun m hm => ?_⟩
    rw [hclose, Function.update_of_ne (Nat.ne_of_lt hm)]
    exact hlow m hm
  have hfd := (lowest_install (t.sysClose fd).2 f).unique hlowest
  rw [sysDup_of_file hsrc']
  refine ⟨congrArg Int.ofNat hfd, ?_⟩
  rw [file_install, hfd, hclose, Function.update_idem]

end FdTable

end RCore.Fs
