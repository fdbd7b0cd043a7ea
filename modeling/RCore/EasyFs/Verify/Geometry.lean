import RCore.EasyFs.Vfs

/-!
# The cut of the device

`Geometry.Sound` says that the five regions of a geometry add up to the device. `compute` gives such
a geometry whenever its subtractions do not go below zero (`compute_sound`), and then the file
system object has its regions one after the other, with no wrap-around.

The inode area is sized by bytes (`inode_num * 136 / 512`) while `get_disk_inode_pos` packs three
inodes to a block, so the area is too small for the bitmap: `slotsApart_iff` is the exact condition
under which every inode number has a slot of its own.
-/

namespace RCore.EasyFs

open RCore Prog

namespace Geometry

/-- The regions of the device add up to the device. -/
def Sound (g : Geometry) : Prop :=
  1 + g.inodeBitmapBlocks.toNat + g.inodeAreaBlocks.toNat + g.dataBitmapBlocks.toNat +
    g.dataAreaBlocks.toNat = g.totalBlocks.toNat

section Sound

variable {g : Geometry}

theorem toEfs_inodeAreaStart (hg : g.Sound) :
    g.toEfs.inodeAreaStartBlock.toNat = 1 + g.inodeBitmapBlocks.toNat := by
  have ht := g.totalBlocks.toNat_lt
  unfold Sound at hg
  simp only [toEfs, UInt32.toNat_add]
  exact Nat.mod_eq_of_lt (by simp only [UInt32.toNat_one]; omega)

theorem toEfs_dataBitmapStart (hg : g.Sound) :
    g.toEfs.dataBitmap.startBlockId =
      1 + g.inodeBitmapBlocks.toNat + g.inodeAreaBlocks.toNat := by
  have ht := g.totalBlocks.toNat_lt
  unfold Sound at hg
  simp only [toEfs, UInt32.toNat_add, UInt32.toNat_one]
  omega

theorem toEfs_dataAreaStart (hg : g.Sound) :
    g.toEfs.dataAreaStartBlock.toNat =
      1 + g.inodeBitmapBlocks.toNat + g.inodeAreaBlocks.toNat + g.dataBitmapBlocks.toNat := by
  have ht := g.totalBlocks.toNat_lt
  unfold Sound at hg
  simp only [toEfs, UInt32.toNat_add, UInt32.toNat_one]
  omega

end Sound

section Compute

variable (total ib : UInt32)

theorem compute_inodeAreaBlocks :
    (compute total ib).inodeAreaBlocks.toNat = 1088 * ib.toNat % 2 ^ 32 := by
  have h : (ib.toNat * 4096 * 136 + 512 - 1) / 512 = 1088 * ib.toNat := by omega
  simp only [compute, Bitmap.maxBits, blockBits_eq, diskInodeSize, blockSz, h, UInt32.toNat_ofNat']

theorem compute_dataBitmapBlocks :
    (compute total ib).dataBitmapBlocks.toNat =
      ((compute total ib).dataTotalBlocks.toNat + 4096) % 2 ^ 32 / 4097 := by
  simp only [compute, UInt32.toNat_div, UInt32.toNat_add]
  rfl

theorem compute_dataAreaBlocks :
    (compute total ib).dataAreaBlocks.toNat =
      (compute total ib).dataTotalBlocks.toNat - (compute total ib).dataBitmapBlocks.toNat := by
  have hb := compute_dataBitmapBlocks total ib
  have hle : (compute total ib).dataBitmapBlocks.toNat ≤ (compute total ib).dataTotalBlocks.toNat := by
    omega
  exact UInt32.toNat_sub_of_le _ _ (UInt32.le_iff_toNat_le.mpr hle)

variable {total ib}

theorem compute_dataTotalBlocks (h : (compute total ib).NoUnderflow) :
    (compute total ib).dataTotalBlocks.toNat =
      total.toNat - (1 + ib.toNat + (compute total ib).inodeAreaBlocks.toNat) := by
  have ht := total.toNat_lt
  have h' : 1 + ib.toNat + (compute total ib).inodeAreaBlocks.toNat ≤ total.toNat := h
  show (total - 1 - (ib + (compute total ib).inodeAreaBlocks)).toNat = _
  generalize (compute total ib).inodeAreaBlocks = area at *
  simp only [UInt32.toNat_sub, UInt32.toNat_add, UInt32.toNat_one]
  omega

theorem compute_sound (h : (compute total ib).NoUnderflow) : (compute total ib).Sound := by
  have hdt := compute_dataTotalBlocks h
  have hda := compute_dataAreaBlocks total ib
  have hdb := compute_dataBitmapBlocks total ib
  have h' : 1 + ib.toNat + (compute total ib).inodeAreaBlocks.toNat ≤ total.toNat := h
  show 1 + ib.toNat + (compute total ib).inodeAreaBlocks.toNat +
    (compute total ib).dataBitmapBlocks.toNat + (compute total ib).dataAreaBlocks.toNat = total.toNat
  omega

end Compute

/-! ## Slots of disk inodes -/

/-- The byte range of inode `i` lies in one block of the inode area. -/
def SlotInArea (g : Geometry) (i : UInt32) : Prop :=
  g.toEfs.inodeAreaStartBlock.toNat ≤ (g.toEfs.getDiskInodePos i).1.toNat ∧
    (g.toEfs.getDiskInodePos i).1.toNat <
      g.toEfs.inodeAreaStartBlock.toNat + g.inodeAreaBlocks.toNat ∧
    (g.toEfs.getDiskInodePos i).2 + diskInodeSize ≤ blockSz

/-- The byte ranges of inodes `i` and `j` are disjoint. -/
def SlotsDisjoint (g : Geometry) (i j : UInt32) : Prop :=
  (g.toEfs.getDiskInodePos i).1 ≠ (g.toEfs.getDiskInodePos j).1 ∨
    (g.toEfs.getDiskInodePos i).2 + diskInodeSize ≤ (g.toEfs.getDiskInodePos j).2 ∨
    (g.toEfs.getDiskInodePos j).2 + diskInodeSize ≤ (g.toEfs.getDiskInodePos i).2

/-- Every inode number the inode bitmap can give out has a slot of its own in the inode area. -/
def SlotsApart (g : Geometry) : Prop :=
  ∀ i j : UInt32, i.toNat < g.toEfs.inodeBitmap.maxBits → j.toNat < g.toEfs.inodeBitmap.maxBits →
    i ≠ j → g.SlotInArea i ∧ g.SlotsDisjoint i j

variable {g : Geometry}

theorem getDiskInodePos_snd (i : UInt32) :
    (g.toEfs.getDiskInodePos i).2 = i.toNat % 3 * 136 := by
  show (i % UInt32.ofNat 3).toNat * 136 = _
  rw [UInt32.toNat_mod]
  rfl

theorem getDiskInodePos_fst (hg : g.Sound) {i : UInt32}
    (hi : i.toNat / 3 ≤ g.inodeAreaBlocks.toNat) :
    (g.toEfs.getDiskInodePos i).1.toNat = 1 + g.inodeBitmapBlocks.toNat + i.toNat / 3 := by
  have ht := g.totalBlocks.toNat_lt
  have hstart := toEfs_inodeAreaStart hg
  unfold Sound at hg
  show (g.toEfs.inodeAreaStartBlock + i / UInt32.ofNat 3).toNat = _
  rw [UInt32.toNat_add, UInt32.toNat_div, hstart]
  show (1 + g.inodeBitmapBlocks.toNat + i.toNat / 3) % 2 ^ 32 = _
  exact Nat.mod_eq_of_lt (by omega)

theorem slotInArea_of_lt (hg : g.Sound) {i : UInt32}
    (hi : i.toNat / 3 < g.inodeAreaBlocks.toNat) : g.SlotInArea i := by
  unfold SlotInArea
  rw [getDiskInodePos_fst hg (by omega), getDiskInodePos_snd, toEfs_inodeAreaStart hg]
  refine ⟨by omega, by omega, ?_⟩
  show i.toNat % 3 * 136 + 136 ≤ 512
  omega

theorem slotsDisjoint_of_lt (hg : g.Sound) {i j : UInt32}
    (hi : i.toNat / 3 < g.inodeAreaBlocks.toNat) (hj : j.toNat / 3 < g.inodeAreaBlocks.toNat)
    (hne : i ≠ j) : g.SlotsDisjoint i j := by
  have hne' : i.toNat ≠ j.toNat := fun h => hne (UInt32.toNat_inj.mp h)
  unfold SlotsDisjoint
  rw [getDiskInodePos_snd, getDiskInodePos_snd]
  by_cases hdiv : i.toNat / 3 = j.toNat / 3
  · right
    show i.toNat % 3 * 136 + 136 ≤ j.toNat % 3 * 136 ∨ j.toNat % 3 * 136 + 136 ≤ i.toNat % 3 * 136
    omega
  · left
    intro h
    have h' := congrArg UInt32.toNat h
    rw [getDiskInodePos_fst hg (by omega), getDiskInodePos_fst hg (by omega)] at h'
    omega

/-- The slots are apart exactly when the inode area holds every inode number at three to a block. -/
theorem slotsApart_iff_area (hg : g.Sound) :
    g.SlotsApart ↔ min (4096 * g.inodeBitmapBlocks.toNat) (2 ^ 32) ≤ 3 * g.inodeAreaBlocks.toNat := by
  have hmax : g.toEfs.inodeBitmap.maxBits = 4096 * g.inodeBitmapBlocks.toNat := by
    show g.inodeBitmapBlocks.toNat * blockBits = _
    rw [blockBits_eq, Nat.mul_comm]
  unfold SlotsApart
  rw [hmax]
  constructor
  · intro h
    by_contra hlt
    -- the first inode number past the area
    have hid : (UInt32.ofNat (3 * g.inodeAreaBlocks.toNat)).toNat = 3 * g.inodeAreaBlocks.toNat := by
      rw [UInt32.toNat_ofNat']
      exact Nat.mod_eq_of_lt (by omega)
    have hother : ∃ j : UInt32, j.toNat < 4096 * g.inodeBitmapBlocks.toNat ∧
        UInt32.ofNat (3 * g.inodeAreaBlocks.toNat) ≠ j := by
      by_cases h0 : g.inodeAreaBlocks.toNat = 0
      · refine ⟨1, ?_, ?_⟩
        · show 1 < _
          omega
        · rw [h0]
          decide
      · refine ⟨0, ?_, ?_⟩
        · show 0 < _
          omega
        · intro heq
          have h0' := congrArg UInt32.toNat heq
          rw [hid, UInt32.toNat_zero] at h0'
          omega
    obtain ⟨j, hj, hne⟩ := hother
    obtain ⟨⟨_, hlast, _⟩, _⟩ := h _ j (by rw [hid]; omega) hj hne
    rw [getDiskInodePos_fst hg (by rw [hid]; omega), toEfs_inodeAreaStart hg, hid] at hlast
    omega
  · intro h i j hi hj hne
    have hi' := i.toNat_lt
    have hj' := j.toNat_lt
    exact ⟨slotInArea_of_lt hg (by omega), slotsDisjoint_of_lt hg (by omega) (by omega) hne⟩

/-- **When every inode has a slot of its own.** For a layout computed without underflow, the inode
area has a separate slot for every inode number exactly when there is no inode bitmap at all, or the
bitmap is so large that it covers all 32-bit inode numbers and the area, computed modulo `2 ^ 32`,
still holds them at three to a block. -/
theorem slotsApart_iff (total ib : UInt32) (h : (compute total ib).NoUnderflow) :
    (compute total ib).SlotsApart ↔
      ib.toNat = 0 ∨ (2 ^ 20 < ib.toNat ∧ 2 ^ 32 ≤ 3 * (1088 * ib.toNat % 2 ^ 32)) := by
  rw [slotsApart_iff_area (compute_sound h), compute_inodeAreaBlocks]
  show min (4096 * ib.toNat) (2 ^ 32) ≤ _ ↔ _
  by_cases hib : ib.toNat ≤ 2 ^ 20
  · -- the area size does not wrap, and 1088 blocks are too few for 4096 inodes
    rw [Nat.mod_eq_of_lt (show 1088 * ib.toNat < 2 ^ 32 by omega)]
    omega
  · omega

/-- The layout of the image that the packer makes. -/
theorem slotsApart_iff_packer :
    (compute 32768 1).NoUnderflow ∧ ((compute 32768 1).SlotsApart ↔
      (1 : UInt32).toNat = 0 ∨
        (2 ^ 20 < (1 : UInt32).toNat ∧ 2 ^ 32 ≤ 3 * (1088 * (1 : UInt32).toNat % 2 ^ 32))) :=
  ⟨by decide, slotsApart_iff 32768 1 (by decide)⟩

/-- In the packer's image the inode numbers from 3264 on lie outside the inode area. -/
theorem not_slotsApart_packer :
    ¬ ∀ total ib : UInt32, (compute total ib).NoUnderflow → (compute total ib).SlotsApart := by
  intro h
  obtain ⟨⟨_, hlast, _⟩, _⟩ := h 32768 1 (by decide) 3264 0 (by decide) (by decide) (by decide)
  exact absurd hlast (by decide)

end Geometry

end RCore.EasyFs
