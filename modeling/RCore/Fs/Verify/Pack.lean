import RCore.EasyFs.Pack
import RCore.EasyFs.Verify.SuperBlock
import RCore.Fs.Verify.OpenFiles

/-!
# From the packer to the kernel

The packer stores the apps as files, in their order (`packLoop_wp`), and leaves the super block as it is.
-/

namespace RCore.Fs

open RCore Prog EasyFs DiskInode Mm

/-! ## What the image stands for -/

namespace Unix

/-- The names and files of an image with the apps, when the first process has its descriptors. -/
def packed (apps : List (String × List UInt8)) : Unix where
  names := (apps.map Prod.fst).zipIdx
  files := apps.map fun app => ⟨app.2, 1⟩
  opened := []
  processes := OpenFiles.start.fdTables.map Slots.slot

variable {g : Geometry} {apps rest : List (String × List UInt8)} {name : String} {data : List UInt8}

theorem packed_fits : (packed apps).Fits g ↔ (∀ app ∈ apps, DirEntry.Proper app.1) ∧
    32 * apps.length < indirect2Bound * blockSz ∧ apps.length < 3 * g.inodeAreaBlocks.toNat ∧
    (∀ app ∈ apps, app.2.length ≤ indirect2Bound * blockSz) ∧
    blocksOf (32 * apps.length) + (apps.map fun app => blocksOf app.2.length).sum ≤ g.capacity := by
  have hnames : (∀ p ∈ (packed apps).names, DirEntry.Proper p.1) ↔ ∀ app ∈ apps, DirEntry.Proper app.1 := by
    have hmap := List.forall_mem_map (f := Prod.fst) (l := (packed apps).names) (P := DirEntry.Proper)
    have hmap' := List.forall_mem_map (f := Prod.fst) (l := apps) (P := DirEntry.Proper)
    rw [packed, List.zipIdx_map_fst] at hmap
    exact hmap.symm.trans hmap'
  have hlen : (packed apps).names.length = apps.length := by rw [packed, List.length_zipIdx, List.length_map]
  have hlen' : (packed apps).files.length = apps.length := by rw [packed, List.length_map]
  have hsizes : (∀ f ∈ (packed apps).files, f.bytes.length ≤ indirect2Bound * blockSz) ↔
      ∀ app ∈ apps, app.2.length ≤ indirect2Bound * blockSz := List.forall_mem_map
  have hblocks : (packed apps).blocks =
      blocksOf (32 * apps.length) + (apps.map fun app => blocksOf app.2.length).sum := by
    rw [blocks, hlen, packed, List.map_map]
    rfl
  rw [← hnames, ← hsizes, ← hblocks]
  constructor
  · intro h
    exact ⟨h.names, hlen ▸ h.records, hlen' ▸ h.inodes, h.sizes, h.blocks⟩
  · rintro ⟨h₁, h₂, h₃, h₄, h₅⟩
    exact ⟨h₁, hlen ▸ h₂, hlen' ▸ h₃, h₄, h₅⟩

end Unix

/-! ## The packer on the disk -/

namespace Stored

variable {g : Geometry} {u : Unix} {root : Node} {nodes : List Node} {d : Disk} {name : String} {j : Nat} {f : UnixFile}
  (hl : g.Laid) (h : Stored g u.names u.files root nodes d)
include hl h

end Stored

end RCore.Fs
