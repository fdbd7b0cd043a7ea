import RCore.EasyFs.Verify.Unlink

/-!
# Names that fill a record

`DirEntry::new` takes a name of up to 28 bytes, and `DirEntry::name` looks for a NUL in the 28 bytes of the record. A
name of 28 bytes leaves none: its record cannot be read back, and every scan of the directory that comes to it panics.
-/

namespace RCore.EasyFs

open RCore Prog DiskInode

/-! ## Records -/

namespace DirEntry

end DirEntry

section Slot

variable {d : Disk} {di : DiskInode} {c : List UInt8} {bs : List UInt32} {i : Nat} {name : String}

end Slot

/-! ## Directories -/

namespace State

variable {g : Geometry} {es : List DirEntry} {root : Node} {files : List Node} {d d' : Disk}

/-- The calls that bind no name keep the records. -/
theorem keepsRecords (hl : g.Laid) (h : State g es root files d) {call : Call} (hadm : Admissible g d call)
    (hcreate : ∀ name, call ≠ .create name) (hlink : ∀ oldpath newpath, call ≠ .linkat oldpath newpath) {a : Answer}
    (he : (call.run g.toEfs).exec d = some (a, d')) : ∃ files', State g es root files' d' := by
  cases call with
  | create name => exact absurd rfl (hcreate name)
  | linkat oldpath newpath => exact absurd rfl (hlink oldpath newpath)
  | find name =>
    rw [Call.run, exec_bind_pure, h.inv.find_exec h.dir.toIsDir hl.sound] at he
    obtain ⟨⟨r, e⟩, hexec, heq⟩ := Option.map_eq_some_iff.mp he
    obtain ⟨_, _, heq'⟩ := Option.map_eq_some_iff.mp hexec
    cases heq'
    cases heq
    exact ⟨files, h⟩
  | ls =>
    rw [Call.run, exec_bind_pure, h.inv.ls_exec h.dir.toIsDir hl.sound] at he
    obtain ⟨⟨r, e⟩, hexec, heq⟩ := Option.map_eq_some_iff.mp he
    obtain ⟨_, _, heq'⟩ := Option.map_eq_some_iff.mp hexec
    cases heq'
    cases heq
    exact ⟨files, h⟩
  | writeAt ino offset buf =>
    obtain ⟨r, e, hexec, _, bs, hst⟩ := h.writeAt hl hadm
    rw [Call.run, exec_bind_pure, hexec] at he
    cases he
    exact ⟨_, hst⟩
  | readAt ino offset buf =>
    obtain ⟨r, e, hexec, rfl, _⟩ := h.readAt hl hadm
    rw [Call.run, exec_bind, hexec] at he
    cases he
    exact ⟨files, h⟩
  | clear ino =>
    obtain ⟨r, e, hexec, hst⟩ := h.clear hl hadm
    rw [Call.run, exec_bind, hexec] at he
    cases he
    exact ⟨_, hst⟩

end State

/-! ## Runs -/

/-- A run of calls that return, from `d` on: the names that have got a record, and the disk it leaves. -/
inductive Binds (g : Geometry) (fs : EasyFileSystem) (d : Disk) : List String → Disk → Prop
  | start : Binds g fs d [] d
  | create {names : List String} {d₁ d₂ : Disk} {name : String} {r : Option Inode} (h : Binds g fs d names d₁)
      (hadm : Admissible g d₁ (.create name))
      (he : (fs.rootInode.create fs name).exec d₁ = some (r, d₂)) :
      Binds g fs d (if r.isSome then names ++ [name] else names) d₂
  | linkat {names : List String} {d₁ d₂ : Disk} {oldpath newpath : String} {r : Int} (h : Binds g fs d names d₁)
      (hadm : Admissible g d₁ (.linkat oldpath newpath))
      (he : (fs.rootInode.linkat fs oldpath newpath).exec d₁ = some (r, d₂)) :
      Binds g fs d (if r = 0 then names ++ [newpath] else names) d₂
  | unlinkat {names : List String} {d₁ d₂ : Disk} {path : String} {r : Int} (h : Binds g fs d names d₁)
      (he : (fs.rootInode.unlinkat fs path).exec d₁ = some (r, d₂)) : Binds g fs d names d₂
  | other {names : List String} {d₁ d₂ : Disk} {call : Call} {a : Answer} (h : Binds g fs d names d₁)
      (hadm : Admissible g d₁ call) (hcreate : ∀ name, call ≠ .create name)
      (hlink : ∀ oldpath newpath, call ≠ .linkat oldpath newpath) (he : (call.run fs).exec d₁ = some (a, d₂)) :
      Binds g fs d names d₂

/-- The records of the root directory are those of the names that have been bound. -/
theorem Binds.state {g : Geometry} {d d' : Disk} {names : List String} (hl : g.Laid) {root : Node} {files : List Node}
    (h₀ : State g [] root files d) (h : Binds g g.toEfs d names d') :
    ∃ (b : Bindings) (root' : Node) (files' : List Node), b.map (·.1) = names ∧ State g (records b) root' files' d' := by
  have hrec : ∀ (b : Bindings) (name : String) (id : UInt32),
      records (b ++ [(name, id)]) = records b ++ [DirEntry.made name id] := fun b name id => List.map_append
  induction h with
  | start => exact ⟨[], root, files, rfl, h₀⟩
  | @create names d₁ d₂ name r _ hadm he ih =>
    obtain ⟨b, root', files', rfl, hst⟩ := ih
    rcases hst.create hl hadm he with ⟨rfl, rfl, _⟩ | ⟨_, rfl, bs, hst'⟩
    · exact ⟨b, root', files', rfl, hst⟩
    · rw [← hrec] at hst'
      exact ⟨_, _, _, List.map_append, hst'⟩
  | @linkat names d₁ d₂ oldpath newpath r _ hadm he ih =>
    obtain ⟨b, root', files', rfl, hst⟩ := ih
    rcases hst.linkat hl hadm he with ⟨rfl, rfl, _⟩ | ⟨j, _, _, _, rfl, bs, hst'⟩
    · exact ⟨b, root', files', rfl, hst⟩
    · rw [← hrec] at hst'
      exact ⟨_, _, _, List.map_append, hst'⟩
  | @unlinkat names d₁ d₂ path r _ he ih =>
    obtain ⟨b, root', files', hnames, hst⟩ := ih
    cases hscan : scan path (records b) with
    | none =>
      -- the scan panics
      have hexec := hst.inv.lookup_exec hst.dir.toIsDir hl.sound path
      rw [hscan] at hexec
      rw [Inode.unlinkat, exec_bind, hexec] at he
      cases he
    | some found =>
      cases found with
      | none =>
        rw [hst.unlinkat_absent hl hscan] at he
        cases he
        exact ⟨b, root', files', hnames, hst⟩
      | some id =>
        obtain ⟨files'', hst'⟩ := hst.unlinkat_present hl hscan he
        exact ⟨b, root', files'', hnames, hst'⟩
  | other _ hadm hcreate hlink he ih =>
    obtain ⟨b, root', files', hnames, hst⟩ := ih
    obtain ⟨files'', hst'⟩ := hst.keepsRecords hl hadm hcreate hlink he
    exact ⟨b, root', files'', hnames, hst'⟩

end RCore.EasyFs
