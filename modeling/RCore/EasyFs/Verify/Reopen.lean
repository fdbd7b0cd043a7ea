import RCore.EasyFs.Verify.Alloc
import RCore.EasyFs.Verify.BlockTree

/-!
# Opening what was created

`create` computes the layout forward from the size of the device, `open` backward from the counts in
the super block. `create_reopens` says that the two agree: the super block survives the rest of
`create`, and `open` computes the same file system object from it. The regions of that object follow
each other and fill the device, and the data bitmap has a bit for every block of the data area.
-/

namespace RCore.EasyFs

open RCore Prog

/-! ## Regions -/

/-- A run of blocks of the device. -/
structure Region where
  start : Nat
  blocks : Nat

/-- Block `b` lies in the region. -/
def Region.Holds (r : Region) (b : Nat) : Prop := r.start ≤ b ∧ b < r.start + r.blocks

/-- The regions follow each other, share no block, and together are the blocks below `total`. -/
structure Partitions (rs : List Region) (total : Nat) : Prop where
  consecutive : rs.IsChain fun r r' => r.start + r.blocks = r'.start
  disjoint : rs.Pairwise fun r r' => ∀ b, ¬ (r.Holds b ∧ r'.Holds b)
  cover : ∀ b, b < total ↔ ∃ r ∈ rs, r.Holds b

/-- Regions that follow each other share no block. -/
theorem pairwise_disjoint_of_chain {rs : List Region}
    (h : rs.IsChain fun r r' => r.start + r.blocks = r'.start) :
    rs.Pairwise fun r r' => ∀ b, ¬ (r.Holds b ∧ r'.Holds b) := by
  have : IsTrans Region fun r r' => r.start + r.blocks ≤ r'.start :=
    ⟨fun r r' r'' h₁ h₂ => by omega⟩
  have hle : rs.Pairwise fun r r' => r.start + r.blocks ≤ r'.start :=
    List.isChain_iff_pairwise.mp (h.imp fun r r' hr => Nat.le_of_eq hr)
  apply hle.imp
  intro r r' hr b hb
  unfold Region.Holds at hb
  omega

/-- The super block, the inode bitmap, the inode area, the data bitmap and the data area, where the
file system object has them. -/
def EasyFileSystem.regions (fs : EasyFileSystem) (sb : SuperBlock) : List Region :=
  [⟨0, 1⟩, ⟨fs.inodeBitmap.startBlockId, fs.inodeBitmap.blocks⟩,
    ⟨fs.inodeAreaStartBlock.toNat, sb.inodeAreaBlocks.toNat⟩,
    ⟨fs.dataBitmap.startBlockId, fs.dataBitmap.blocks⟩,
    ⟨fs.dataAreaStartBlock.toNat, sb.dataAreaBlocks.toNat⟩]

namespace Geometry

/-- No `u32` operation of the layout arithmetic goes below zero or past `2 ^ 32`. -/
def NoWrap (g : Geometry) : Prop := g.NoUnderflow ∧ g.dataTotalBlocks.toNat + 4096 < 2 ^ 32

instance (g : Geometry) : Decidable g.NoWrap := inferInstanceAs (Decidable (_ ∧ _))

theorem partitions_toEfs {g : Geometry} (hg : g.Sound) :
    Partitions (g.toEfs.regions g.superBlock) g.totalBlocks.toNat := by
  have hi := toEfs_inodeAreaStart hg
  have hb := toEfs_dataBitmapStart hg
  have hd := toEfs_dataAreaStart hg
  have hregions : g.toEfs.regions g.superBlock =
      [⟨0, 1⟩, ⟨1, g.inodeBitmapBlocks.toNat⟩,
        ⟨1 + g.inodeBitmapBlocks.toNat, g.inodeAreaBlocks.toNat⟩,
        ⟨1 + g.inodeBitmapBlocks.toNat + g.inodeAreaBlocks.toNat, g.dataBitmapBlocks.toNat⟩,
        ⟨1 + g.inodeBitmapBlocks.toNat + g.inodeAreaBlocks.toNat + g.dataBitmapBlocks.toNat,
          g.dataAreaBlocks.toNat⟩] := by
    rw [EasyFileSystem.regions, hi, hb, hd]
    rfl
  unfold Sound at hg
  have hchain : (g.toEfs.regions g.superBlock).IsChain
      fun r r' => r.start + r.blocks = r'.start := by
    rw [hregions]
    simp only [List.isChain_cons_cons, List.isChain_singleton, and_true]
  refine ⟨hchain, pairwise_disjoint_of_chain hchain, ?_⟩
  intro b
  rw [hregions]
  simp only [List.mem_cons, List.not_mem_nil, or_false, exists_eq_or_imp, exists_eq_left,
    Region.Holds]
  omega

/-- Every block of the data area has a bit. -/
theorem dataArea_le_maxBits {total ib : UInt32} (h : (compute total ib).NoWrap) :
    (compute total ib).dataAreaBlocks.toNat ≤ (compute total ib).toEfs.dataBitmap.maxBits := by
  have hdb := compute_dataBitmapBlocks total ib
  have hda := compute_dataAreaBlocks total ib
  have hmax : (compute total ib).toEfs.dataBitmap.maxBits =
      4096 * (compute total ib).dataBitmapBlocks.toNat := by
    show (compute total ib).dataBitmapBlocks.toNat * blockBits = _
    rw [blockBits_eq, Nat.mul_comm]
  rw [Nat.mod_eq_of_lt h.2] at hdb
  rw [hmax]
  omega

end Geometry

/-! ## The super block -/

theorem SuperBlock.decode_encode (sb : SuperBlock) (b : Block) : decode (sb.encode b) = sb := by
  obtain ⟨magic, total, ib, ia, db, da⟩ := sb
  simp only [encode, decode, mk.injEq]
  refine ⟨?_, ?_, ?_, ?_, ?_, ?_⟩
  · repeat rw [u32At_setU32_ne _ (by decide) (by decide)]
    exact u32At_setU32_same _ (by decide) _
  · repeat rw [u32At_setU32_ne _ (by decide) (by decide)]
    exact u32At_setU32_same _ (by decide) _
  · repeat rw [u32At_setU32_ne _ (by decide) (by decide)]
    exact u32At_setU32_same _ (by decide) _
  · repeat rw [u32At_setU32_ne _ (by decide) (by decide)]
    exact u32At_setU32_same _ (by decide) _
  · repeat rw [u32At_setU32_ne _ (by decide) (by decide)]
    exact u32At_setU32_same _ (by decide) _
  · exact u32At_setU32_same _ (by decide) _

section Create

variable {total ib : UInt32} {dev d : Disk} {fs : EasyFileSystem}

/-- Nothing `create` does after it has written the super block touches block 0. -/
theorem create_superBlock (h : (Geometry.compute total ib).NoUnderflow)
    (he : (EasyFileSystem.create total ib).exec dev = some (fs, d)) :
    SuperBlock.decode (d 0) = (Geometry.compute total ib).superBlock := by
  have hg := Geometry.compute_sound h
  have hpos := Geometry.getDiskInodePos_fst hg (i := 0) (by simp)
  have hbm : (Geometry.compute total ib).toEfs.inodeBitmap = ⟨1, ib.toNat⟩ := rfl
  have hwp : (EasyFileSystem.create total ib).wp (fun _ e => e = d) dev := ⟨fs, d, he, rfl⟩
  simp only [EasyFileSystem.create, EasyFileSystem.allocInode, wp_bind] at hwp
  generalize Geometry.compute total ib = g at *
  obtain ⟨_, d₁, _, hwp⟩ := hwp
  simp only [wp_withModify, wp_pure] at hwp
  obtain ⟨r, d₂, hr, hwp⟩ := hwp
  have hpost := (Bitmap.alloc_spec g.toEfs.inodeBitmap _).wlp r d₂ hr
  have hzero : d₂ 0 = g.superBlock.encode (d₁ 0) := by
    cases r with
    | none => rw [hpost.1, Function.update_self]
    | some k =>
      rw [hpost.2.2.2.2 0 (by rw [hbm]; exact Or.inl Nat.zero_lt_one), Function.update_self]
  obtain ⟨k, d₃, hu, hwp⟩ := hwp
  have hd₃ : d₃ = d₂ := by
    rw [exec_unwrap] at hu
    cases r with
    | none => cases hu
    | some k' =>
      cases hu
      rfl
  simp only [wp_assert] at hwp
  obtain ⟨_, hwp⟩ := hwp
  generalize g.toEfs.getDiskInodePos 0 = pos at *
  obtain ⟨rootInodeBlockId, rootInodeOffset⟩ := pos
  simp only at hpos
  simp only [wp_bind, wp_assert, wp_pure, wp_sync] at hwp
  rw [← hwp.2, Function.update_of_ne (by omega), hd₃, hzero, SuperBlock.decode_encode]

theorem open_exec {g : Geometry} (h : SuperBlock.decode (d 0) = g.superBlock) :
    EasyFileSystem.open_.exec d = some (g.toEfs, d) := by
  rw [← wp_eq_iff, EasyFileSystem.open_, wp_withRead]
  simp only [wp_bind, wp_assert, wp_pure, h]
  refine ⟨rfl, ?_, trivial⟩
  simp only [Geometry.toEfs, Geometry.superBlock, SuperBlock.initialized, UInt32.add_assoc]

/-- **Opening what was created.** When the `u32` arithmetic of the layout does not wrap, `open` on
the device that `create` leaves gives the same file system object, its regions partition the device,
and the data bitmap covers the data area. `create` returns whenever there is an inode bitmap. -/
theorem create_reopens (total ib : UInt32) (dev : Disk) (h : (Geometry.compute total ib).NoWrap) :
    ((∃ r, (EasyFileSystem.create total ib).exec dev = some r) ↔ 0 < ib.toNat) ∧
    (∀ fs d, (EasyFileSystem.create total ib).exec dev = some (fs, d) →
      EasyFileSystem.open_.exec d = some (fs, d) ∧
      Partitions (fs.regions (Geometry.compute total ib).superBlock) total.toNat ∧
      (Geometry.compute total ib).dataAreaBlocks.toNat ≤ fs.dataBitmap.maxBits) := by
  refine ⟨⟨?_, ?_⟩, ?_⟩
  · rintro ⟨⟨fs, d⟩, he⟩
    exact create_bitmap_pos he
  · intro hib
    obtain ⟨fs, d, he, _⟩ := create_spec dev h.1 hib
    exact ⟨(fs, d), he⟩
  · intro fs d he
    have hsuper := create_superBlock h.1 he
    obtain ⟨rfl, _⟩ := create_exec h.1 he
    exact ⟨open_exec hsuper, Geometry.partitions_toEfs (Geometry.compute_sound h.1),
      Geometry.dataArea_le_maxBits h⟩

/-- The image that the packer makes. -/
theorem create_reopens_packer : ∃ fs d,
    (EasyFileSystem.create 32768 1).exec (fun _ => Bytes.zero blockSz) = some (fs, d) ∧
      EasyFileSystem.open_.exec d = some (fs, d) ∧
      Partitions (fs.regions (Geometry.compute 32768 1).superBlock) 32768 := by
  obtain ⟨hret, hall⟩ := create_reopens 32768 1 (fun _ => Bytes.zero blockSz) (by decide)
  obtain ⟨⟨fs, d⟩, he⟩ := hret.mpr (by decide)
  obtain ⟨hopen, hpart, _⟩ := hall fs d he
  exact ⟨fs, d, he, hopen, hpart⟩

end Create

end RCore.EasyFs
