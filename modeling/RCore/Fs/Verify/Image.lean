import RCore.EasyFs.Verify.Carried
import RCore.Fs.Verify.Pack

/-!
# The image and the kernel

The packer leaves the apps on the device, and the kernel, which opens the device with an empty block cache, then runs
the file system calls of its processes on it.
-/

namespace RCore.Fs

open RCore Prog EasyFs CacheState Mm

/-! ## Calls on the block cache -/

section Calls

variable (fs : EasyFileSystem) (s : OpenFiles)

end Calls

/-! ## The image -/

/-- A file system that has just been made. -/
theorem Stored.empty {g : Geometry} {d : Disk} (h : State g [] ⟨[], 1, .directory, []⟩ [] d) :
    Stored g (Unix.packed []).names (Unix.packed []).files ⟨[], 1, .directory, []⟩ [] d :=
  ⟨⟨h, fun _ hp => absurd hp List.not_mem_nil, List.nodup_nil⟩, rfl, fun _ hp => absurd hp List.not_mem_nil⟩

section Image

variable {srcDir : List String} {hostFile : String → Option (List UInt8)} {apps : List (String × List UInt8)}
  (hsrc : srcDir.mapM appName = some (apps.map Prod.fst)) (hhost : ∀ app ∈ apps, hostFile app.1 = some app.2)
  (hnodup : (apps.map Prod.fst).Nodup) (hfits : (Unix.packed apps).Fits packGeometry)
include hsrc hhost hnodup hfits

end Image

/-! ## Runs -/

section Runs

variable {g : Geometry} {u : Unix} {s : OpenFiles} {d : Disk}

/-- What holds before a sequence of calls. -/
theorem Holds.runs (hl : g.Laid) (h : Holds g u s d) {ops : List FileOp} (hops : ∀ op ∈ ops, op.Proper)
    (hstays : StaysIn Unix.step (Unix.Fits g) ops u) :
    Meets (Holds g) (fun _ => True) (each (OpenFiles.step g.toEfs) s ops) (answersOf Unix.step ops u) d :=
  Meets.each (fun _ _ _ _ hR hop => hR.meets hl hop) ops h hops hstays

/-- The kernel as it starts, on a disk with the apps. -/
theorem Stored.start {apps : List (String × List UInt8)} {root : Node} {nodes : List Node}
    (h : Stored g (Unix.packed apps).names (Unix.packed apps).files root nodes d) :
    Holds g (Unix.packed apps) OpenFiles.start d where
  stored := ⟨root, nodes, h⟩
  osInodes := rfl
  fdTables := rfl
  opened o hmem := absurd hmem List.not_mem_nil
  refs fds hmem fd n hn := by
    have hnew : fds = Slots.slot (FdTable.new.map fun f => f.map .other) := List.mem_singleton.mp hmem
    rw [hnew, Slots.slot, List.getElem?_map] at hn
    cases hf : FdTable.new[fd]? with
    | none =>
      rw [hf] at hn
      cases hn
    | some f =>
      rw [hf] at hn
      cases f <;> cases hn

/-- A file that the first process has opened, and what processes then have its descriptors. -/
def openedOnce (apps : List (String × List UInt8)) (offset : Nat) (readable writable : Bool) (processes : Nat) : Unix :=
  { Unix.packed apps with
    opened := [⟨0, offset, readable, writable⟩]
    processes := List.replicate processes
      (Function.update (Slots.slot (FdTable.new.map fun f => f.map .other)) 3 (some (.osInode 0))) }

theorem lowest_new : Unix.lowest (Slots.slot (FdTable.new.map fun f => f.map .other)) = 3 :=
  (Slots.isLeast_alloc _).csInf_eq

theorem step_open_new :
    Unix.step (.open_ 0 "a" 0x201) (Unix.packed []) = some (.status 3, openedOnce [("a", [])] 0 false true 1) := by
  have hstep : Unix.step (.open_ 0 "a" 0x201) (Unix.packed []) =
      some (.status (Unix.lowest (Slots.slot (FdTable.new.map fun f => f.map .other))),
        { Unix.packed [("a", [])] with
          opened := [⟨0, 0, false, true⟩]
          processes := [Function.update (Slots.slot (FdTable.new.map fun f => f.map .other))
            (Unix.lowest (Slots.slot (FdTable.new.map fun f => f.map .other))) (some (.osInode 0))] }) := rfl
  rw [hstep, lowest_new]
  rfl

end Runs

/-! ## From the packer to the calls -/

end RCore.Fs
