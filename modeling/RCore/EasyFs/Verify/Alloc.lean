import Mathlib.Logic.Relation
import RCore.EasyFs.Verify.Geometry
import RCore.EasyFs.Verify.Records

/-!
# Making a file system and allocating blocks

`createPost` says what `EasyFileSystem::create` leaves on the device. `Marked g owned d` says that
the data bitmap marks exactly the blocks `owned`; `alloc_data` adds a block to such a list and
`dealloc_data` removes one.

The data bitmap has a bit for more blocks than the data area holds, unless the area happens to fill
it. `neverLeaves_iff` is the exact condition under which no sequence of `alloc_data` and
`dealloc_data` calls gets a block outside the data area.
-/

namespace RCore.EasyFs

open RCore Prog

/-! ## `create` -/

/-- The device with its first `total` blocks cleared. -/
def cleared (total : Nat) (dev : Disk) : Disk :=
  fun x => if x < total then Bytes.zero blockSz else dev x

theorem clearBlocks_spec (n i : Nat) (d : Disk) :
    (EasyFileSystem.clearBlocks n i).wp (fun _ d' =>
      ∀ x, d' x = if i ≤ x ∧ x < i + n then Bytes.zero blockSz else d x) d := by
  induction n generalizing i d with
  | zero =>
    simp only [EasyFileSystem.clearBlocks, wp_pure]
    intro x
    rw [if_neg (by omega)]
  | succ n ih =>
    simp only [EasyFileSystem.clearBlocks, wp_bind, wp_withModify, wp_pure]
    refine wp_mono (ih (i + 1) _) ?_
    intro _ d' h x
    rw [h x]
    by_cases hx : x = i
    · rw [hx, if_neg (by omega), Function.update_self, if_pos (by omega)]
    · rw [Function.update_of_ne hx]
      by_cases hin : i + 1 ≤ x ∧ x < i + 1 + n
      · rw [if_pos hin, if_pos (by omega)]
      · rw [if_neg hin, if_neg (by omega)]

/-- What `create` leaves: bit 0 of the inode bitmap, the root inode in its slot, and zeros in every
other block after the super block. -/
structure CreatePost (g : Geometry) (dev d : Disk) : Prop where
  bits : ∀ k, k < g.toEfs.inodeBitmap.maxBits → (g.toEfs.inodeBitmap.bit d k = true ↔ k = 0)
  root : d (1 + g.inodeBitmapBlocks.toNat) = (DiskInode.initialized 0 .directory).encode
    (cleared g.totalBlocks.toNat dev (1 + g.inodeBitmapBlocks.toNat)) 0
  rest : ∀ x, 1 + g.inodeBitmapBlocks.toNat < x → d x = cleared g.totalBlocks.toNat dev x

section Create

variable {total ib : UInt32} {dev : Disk}

theorem create_spec (dev : Disk) (h : (Geometry.compute total ib).NoUnderflow) (hib : 0 < ib.toNat) :
    (EasyFileSystem.create total ib).wp (fun fs d =>
      fs = (Geometry.compute total ib).toEfs ∧ CreatePost (Geometry.compute total ib) dev d)
      dev := by
  have hg := Geometry.compute_sound h
  have hpos := Geometry.getDiskInodePos_fst hg (i := 0) (by simp)
  have hsnd := Geometry.getDiskInodePos_snd (g := Geometry.compute total ib) 0
  have hle : 1 + ib.toNat + (Geometry.compute total ib).inodeAreaBlocks.toNat ≤ total.toNat := h
  have htot : (Geometry.compute total ib).totalBlocks.toNat = total.toNat := rfl
  have hibm : (Geometry.compute total ib).inodeBitmapBlocks.toNat = ib.toNat := rfl
  have hbm : (Geometry.compute total ib).toEfs.inodeBitmap = ⟨1, ib.toNat⟩ := rfl
  simp only [EasyFileSystem.create, wp_bind]
  generalize Geometry.compute total ib = g at *
  refine wp_mono (clearBlocks_spec total.toNat 0 dev) ?_
  intro _ d1 hd1
  have hd1' : d1 = cleared g.totalBlocks.toNat dev := by
    funext x
    rw [hd1 x, cleared, htot, Nat.zero_add]
    simp
  subst hd1'
  simp only [wp_withModify, wp_pure, EasyFileSystem.allocInode, wp_bind]
  generalize hsb : Function.update (cleared g.totalBlocks.toNat dev) 0 _ = d2
  -- every bit of the cleared inode bitmap is clear
  have hclear : ∀ k, k < g.toEfs.inodeBitmap.maxBits → g.toEfs.inodeBitmap.bit d2 k = false := by
    intro k hk
    rw [hbm] at hk ⊢
    have hk' : k / 4096 < ib.toNat := by
      simp only [Bitmap.maxBits, blockBits_eq] at hk
      omega
    unfold Bitmap.bit
    rw [← hsb, blockBits_eq, Function.update_of_ne (by simp), cleared,
      if_pos (by show 1 + k / 4096 < _; omega), Bitmap.blockBit_zero]
  have hbits0 : 0 < g.toEfs.inodeBitmap.maxBits := by
    rw [hbm]
    exact Nat.mul_pos hib (by decide)
  refine wp_mono (Bitmap.alloc_spec g.toEfs.inodeBitmap d2) ?_
  intro r d3 hr
  cases r with
  | none =>
    have h0 := hr.2 0 hbits0
    rw [hclear 0 hbits0] at h0
    cases h0
  | some k =>
    obtain ⟨hk, _, hlow, hset, hout⟩ := hr
    have hk0 : k = 0 := by
      by_contra hne
      have h0 := hlow 0 (Nat.pos_of_ne_zero hne)
      rw [hclear 0 hbits0] at h0
      cases h0
    subst hk0
    simp only [wp_unwrap_some, wp_assert]
    refine ⟨rfl, ?_⟩
    generalize g.toEfs.getDiskInodePos 0 = pos at *
    obtain ⟨rootInodeBlockId, rootInodeOffset⟩ := pos
    simp only [UInt32.toNat_zero, Nat.zero_div, Nat.add_zero, Nat.zero_mod, Nat.zero_mul] at hpos hsnd
    simp only [wp_pure, wp_sync, hpos, hsnd]
    -- the root inode goes to the block after the bitmap, which `alloc` did not touch
    have hrest : ∀ x, 1 + g.inodeBitmapBlocks.toNat ≤ x → d3 x = cleared g.totalBlocks.toNat dev x := by
      intro x hx
      rw [hout x (by rw [hbm]; exact .inr (by simp only; omega)), ← hsb,
        Function.update_of_ne (by omega)]
    refine ⟨by decide, trivial, ?_, ?_, ?_⟩
    · intro j hj
      have hframe : ∀ x, ¬ g.toEfs.inodeBitmap.Outside x → Function.update d3
          (1 + g.inodeBitmapBlocks.toNat) ((DiskInode.initialized 0 .directory).encode
            (d3 (1 + g.inodeBitmapBlocks.toNat)) 0) x = d3 x := by
        intro x hx
        apply Function.update_of_ne
        rintro rfl
        exact hx (by rw [hbm]; exact .inr (by simp only; omega))
      refine (Bool.eq_iff_iff.mp (Bitmap.bit_congr _ hframe hj)).trans ?_
      rw [hset j, hclear j hj]
      simp
    · rw [Function.update_self, hrest _ (le_refl _)]
    · intro x hx
      rw [← hrest x (by omega)]
      exact Function.update_of_ne (by omega) _ _

/-- Without an inode bitmap block `create` panics on the root inode. -/
theorem create_bitmap_pos {fs : EasyFileSystem} {d : Disk}
    (he : (EasyFileSystem.create total ib).exec dev = some (fs, d)) : 0 < ib.toNat := by
  by_contra h0
  have hwp : (EasyFileSystem.create total ib).wp (fun _ _ => True) dev := ⟨fs, d, he, trivial⟩
  simp only [EasyFileSystem.create, EasyFileSystem.allocInode, wp_bind] at hwp
  obtain ⟨_, d1, _, hwp⟩ := hwp
  obtain ⟨_, d2, _, hwp⟩ := hwp
  obtain ⟨r, d3, hr, hwp⟩ := hwp
  have hbm : (Geometry.compute total ib).toEfs.inodeBitmap = ⟨1, 0⟩ := by
    show Bitmap.mk 1 ib.toNat = _
    rw [Nat.eq_zero_of_not_pos h0]
  rw [hbm] at hr
  cases hr
  obtain ⟨_, _, hu, _⟩ := hwp
  cases hu

theorem create_exec {fs : EasyFileSystem} {d : Disk} (h : (Geometry.compute total ib).NoUnderflow)
    (he : (EasyFileSystem.create total ib).exec dev = some (fs, d)) :
    fs = (Geometry.compute total ib).toEfs ∧ CreatePost (Geometry.compute total ib) dev d :=
  (create_spec dev h (create_bitmap_pos he)).wlp fs d he

end Create

/-! ## `alloc_data` and `dealloc_data` -/

/-- What `alloc_data` does when it answers `b` on `d` and leaves `d'`. -/
def AllocDataPost (fs : EasyFileSystem) (d : Disk) (b : UInt32) (d' : Disk) : Prop :=
  ∃ k, fs.dataBitmap.AllocPost d (some k) d' ∧ b = UInt32.ofNat k + fs.dataAreaStartBlock

section Data

variable {fs : EasyFileSystem} {d d' : Disk} {b : UInt32}

theorem allocData_spec {k : Nat} (hk : k < fs.dataBitmap.maxBits)
    (hclear : fs.dataBitmap.bit d k = false) : fs.allocData.wp (AllocDataPost fs d) d := by
  simp only [EasyFileSystem.allocData, wp_bind]
  refine wp_mono (Bitmap.alloc_spec fs.dataBitmap d) ?_
  intro r e hr
  cases r with
  | none =>
    have hset := hr.2 k hk
    rw [hclear] at hset
    cases hset
  | some j =>
    simp only [wp_unwrap_some, wp_pure]
    exact ⟨j, hr, rfl⟩

theorem allocData_exec (he : fs.allocData.exec d = some (b, d')) : AllocDataPost fs d b d' := by
  have hwp : fs.allocData.wp (fun c e => c = b ∧ e = d') d := ⟨b, d', he, rfl, rfl⟩
  simp only [EasyFileSystem.allocData, wp_bind] at hwp
  obtain ⟨r, e, hr, hwp⟩ := hwp
  have hpost := (Bitmap.alloc_spec fs.dataBitmap d).wlp r e hr
  cases r with
  | none =>
    obtain ⟨_, _, hu, _⟩ := hwp
    cases hu
  | some k =>
    simp only [wp_unwrap_some, wp_pure] at hwp
    obtain ⟨rfl, rfl⟩ := hwp
    exact ⟨k, hpost, rfl⟩

theorem deallocData_spec
    (hset : fs.dataBitmap.bit (Function.update d b.toNat (Bytes.zero blockSz))
      (b - fs.dataAreaStartBlock).toNat = true) :
    (fs.deallocData b).wp (fun _ d' =>
      (∀ j, fs.dataBitmap.bit d' j =
        (fs.dataBitmap.bit (Function.update d b.toNat (Bytes.zero blockSz)) j &&
          decide (j ≠ (b - fs.dataAreaStartBlock).toNat))) ∧
      ∀ i, i ≠ fs.dataBitmap.startBlockId + (b - fs.dataAreaStartBlock).toNat / blockBits →
        d' i = Function.update d b.toNat (Bytes.zero blockSz) i) d := by
  simp only [EasyFileSystem.deallocData, wp_bind, wp_withModify, wp_pure]
  exact Bitmap.dealloc_spec fs.dataBitmap _ hset

theorem deallocData_exec {u : Unit} (he : (fs.deallocData b).exec d = some (u, d')) (j : Nat) :
    fs.dataBitmap.bit d' j =
      (fs.dataBitmap.bit (Function.update d b.toNat (Bytes.zero blockSz)) j &&
        decide (j ≠ (b - fs.dataAreaStartBlock).toNat)) := by
  cases hset : fs.dataBitmap.bit (Function.update d b.toNat (Bytes.zero blockSz))
      (b - fs.dataAreaStartBlock).toNat with
  | true => exact ((deallocData_spec hset).wlp u d' he).1 j
  | false =>
    have hwp : (fs.deallocData b).wp (fun _ _ => True) d := ⟨u, d', he, trivial⟩
    simp only [EasyFileSystem.deallocData, wp_bind, wp_withModify, wp_pure] at hwp
    obtain ⟨_, _, hnone, _⟩ := hwp
    rw [Bitmap.dealloc_clear fs.dataBitmap _ hset] at hnone
    cases hnone

end Data

/-! ## Sequences of calls -/

/-- One call that returns: `alloc_data`, or `dealloc_data` of any block number from the start of the
data area on. The second component lists the blocks that are allocated: those `alloc_data` returned
and `dealloc_data` did not take back. -/
inductive DataStep (fs : EasyFileSystem) : Disk × List UInt32 → Disk × List UInt32 → Prop
  | alloc {d d' : Disk} {live : List UInt32} {b : UInt32}
      (he : fs.allocData.exec d = some (b, d')) : DataStep fs (d, live) (d', b :: live)
  | dealloc {d d' : Disk} {live : List UInt32} {b : UInt32} (hb : fs.dataAreaStartBlock ≤ b)
      (he : (fs.deallocData b).exec d = some ((), d')) : DataStep fs (d, live) (d', live.erase b)

/-- Whatever calls were made on `d0` before, `alloc_data` returns a block of the data area that is
not allocated, and none when every block of the data area is. -/
def NeverLeaves (fs : EasyFileSystem) (total : UInt32) (d0 : Disk) : Prop :=
  ∀ d live, Relation.ReflTransGen (DataStep fs) (d0, []) (d, live) →
    (∀ b d', fs.allocData.exec d = some (b, d') →
      fs.dataAreaStartBlock ≤ b ∧ b < total ∧ b ∉ live) ∧
    ((∀ b, fs.dataAreaStartBlock ≤ b → b < total → b ∈ live) →
      ∀ b d', fs.allocData.exec d ≠ some (b, d'))

/-- The allocated blocks are distinct blocks of the data area, with their bits set. -/
structure LiveMarked (fs : EasyFileSystem) (d : Disk) (live : List UInt32) : Prop where
  nodup : live.Nodup
  marked : ∀ b ∈ live, fs.dataAreaStartBlock ≤ b ∧
    (b - fs.dataAreaStartBlock).toNat < fs.dataBitmap.maxBits ∧
    fs.dataBitmap.bit d (b - fs.dataAreaStartBlock).toNat = true

section Runs

variable {g : Geometry} {d d' d0 : Disk} {live : List UInt32} {b : UInt32}

theorem maxBits_dataBitmap (g : Geometry) :
    g.toEfs.dataBitmap.maxBits = 4096 * g.dataBitmapBlocks.toNat := by
  show g.dataBitmapBlocks.toNat * blockBits = _
  rw [blockBits_eq, Nat.mul_comm]

/-- The number of the block that bit `k` stands for, as long as the area covers the bit. -/
theorem toNat_dataBlock (hg : g.Sound) {k : Nat} (hk : k ≤ g.dataAreaBlocks.toNat) :
    (UInt32.ofNat k + g.toEfs.dataAreaStartBlock).toNat =
      g.toEfs.dataAreaStartBlock.toNat + k := by
  have hstart := Geometry.toEfs_dataAreaStart hg
  have ht := g.totalBlocks.toNat_lt
  unfold Geometry.Sound at hg
  rw [UInt32.toNat_add, UInt32.toNat_ofNat']
  omega

theorem dataBlock_sub (k : Nat) (hk : k < 2 ^ 32) (s : UInt32) :
    (UInt32.ofNat k + s - s).toNat = k := by
  rw [UInt32.add_sub_cancel, UInt32.toNat_ofNat']
  exact Nat.mod_eq_of_lt hk

/-- A block from the start of the data area on is no block of the data bitmap. -/
theorem bit_update_data (hg : g.Sound) (hb : g.toEfs.dataAreaStartBlock ≤ b) (c : Block) {k : Nat}
    (hk : k < g.toEfs.dataBitmap.maxBits) :
    g.toEfs.dataBitmap.bit (Function.update d b.toNat c) k = g.toEfs.dataBitmap.bit d k := by
  apply Bitmap.bit_congr _ _ hk
  intro x hx
  apply Function.update_of_ne
  rintro rfl
  have hb' := UInt32.le_iff_toNat_le.mp hb
  rw [Geometry.toEfs_dataAreaStart hg] at hb'
  exact hx (.inr (by rw [Geometry.toEfs_dataBitmapStart hg]; exact hb'))

theorem LiveMarked.step (hg : g.Sound) (hcap : g.toEfs.dataBitmap.maxBits ≤ g.dataAreaBlocks.toNat)
    (hL : LiveMarked g.toEfs d live) {d' : Disk} {live' : List UInt32}
    (hs : DataStep g.toEfs (d, live) (d', live')) : LiveMarked g.toEfs d' live' := by
  cases hs with
  | @alloc _ _ _ b he =>
    obtain ⟨k, ⟨hk, hclear, _, hbits, _⟩, rfl⟩ := allocData_exec he
    have hlt := g.dataAreaBlocks.toNat_lt
    have hsub := dataBlock_sub k (by omega) g.toEfs.dataAreaStartBlock
    refine ⟨List.nodup_cons.mpr ⟨?_, hL.nodup⟩, ?_⟩
    · intro hmem
      have hset := (hL.marked _ hmem).2.2
      rw [hsub, hclear] at hset
      cases hset
    · intro c hc
      rcases List.mem_cons.mp hc with rfl | hc
      · refine ⟨?_, by rw [hsub]; exact hk, by rw [hsub, hbits]; simp⟩
        rw [UInt32.le_iff_toNat_le, toNat_dataBlock hg (by omega)]
        omega
      · obtain ⟨h1, h2, h3⟩ := hL.marked c hc
        exact ⟨h1, h2, by rw [hbits, h3]; rfl⟩
  | @dealloc _ _ _ b hb he =>
    refine ⟨hL.nodup.erase b, ?_⟩
    intro c hc
    obtain ⟨hne, hc⟩ := hL.nodup.mem_erase_iff.mp hc
    obtain ⟨h1, h2, h3⟩ := hL.marked c hc
    refine ⟨h1, h2, ?_⟩
    rw [deallocData_exec he, bit_update_data hg hb _ h2, h3]
    have hk : (c - g.toEfs.dataAreaStartBlock).toNat ≠ (b - g.toEfs.dataAreaStartBlock).toNat := by
      rw [UInt32.toNat_sub_of_le _ _ h1, UInt32.toNat_sub_of_le _ _ hb]
      have hne' : c.toNat ≠ b.toNat := fun h => hne (UInt32.toNat_inj.mp h)
      have h1' := UInt32.le_iff_toNat_le.mp h1
      have hb' := UInt32.le_iff_toNat_le.mp hb
      omega
    simp [hk]

theorem LiveMarked.run (hg : g.Sound) (hcap : g.toEfs.dataBitmap.maxBits ≤ g.dataAreaBlocks.toNat)
    (hrun : Relation.ReflTransGen (DataStep g.toEfs) (d0, []) (d, live)) :
    LiveMarked g.toEfs d live := by
  have haux : ∀ s, Relation.ReflTransGen (DataStep g.toEfs) (d0, []) s →
      LiveMarked g.toEfs s.1 s.2 := by
    intro s hs
    induction hs with
    | refl => exact ⟨List.nodup_nil, fun b hb => absurd hb List.not_mem_nil⟩
    | tail _ hstep ih => exact ih.step hg hcap hstep
  exact haux _ hrun

theorem neverLeaves_of_cap (hg : g.Sound)
    (hcap : g.toEfs.dataBitmap.maxBits ≤ g.dataAreaBlocks.toNat) :
    NeverLeaves g.toEfs g.totalBlocks d0 := by
  intro d live hrun
  have hL := LiveMarked.run hg hcap hrun
  have hret : ∀ b d', g.toEfs.allocData.exec d = some (b, d') →
      g.toEfs.dataAreaStartBlock ≤ b ∧ b < g.totalBlocks ∧ b ∉ live := by
    intro b d' he
    have hL' := hL.step hg hcap (DataStep.alloc he)
    obtain ⟨k, ⟨hk, _⟩, hb⟩ := allocData_exec he
    have hval := toNat_dataBlock hg (k := k) (by omega)
    have hstart := Geometry.toEfs_dataAreaStart hg
    refine ⟨(hL'.marked b List.mem_cons_self).1, ?_, (List.nodup_cons.mp hL'.nodup).1⟩
    rw [UInt32.lt_iff_toNat_lt, hb, hval, hstart]
    unfold Geometry.Sound at hg
    omega
  refine ⟨hret, fun hall b d' he => ?_⟩
  obtain ⟨h1, h2, h3⟩ := hret b d' he
  exact h3 (hall b h1 h2)

/-- While bit `k` is clear, calls of `alloc_data` come to it: each sets the lowest clear bit. -/
theorem alloc_reaches {k : Nat} (hk : k < g.toEfs.dataBitmap.maxBits) (n : Nat) :
    ∀ d live m, k < m + n → (∀ i, i < m → g.toEfs.dataBitmap.bit d i = true) →
      g.toEfs.dataBitmap.bit d k = false →
      ∃ e live' e', Relation.ReflTransGen (DataStep g.toEfs) (d, live) (e, live') ∧
        g.toEfs.allocData.exec e = some (UInt32.ofNat k + g.toEfs.dataAreaStartBlock, e') := by
  induction n with
  | zero =>
    intro d live m hm hfull hclear
    rw [hfull k hm] at hclear
    cases hclear
  | succ n ih =>
    intro d live m hm hfull hclear
    obtain ⟨b, d', he, j, ⟨_, hj, hlow, hbits, _⟩, rfl⟩ := allocData_spec hk hclear
    rcases Nat.lt_trichotomy j k with h | rfl | h
    · have hmj : m ≤ j := by
        by_contra hlt
        rw [hfull j (by omega)] at hj
        cases hj
      have hfull' : ∀ i, i < j + 1 → g.toEfs.dataBitmap.bit d' i = true := by
        intro i hi
        rw [hbits]
        rcases Nat.lt_succ_iff_lt_or_eq.mp hi with hi | rfl
        · rw [hlow i hi]
          rfl
        · simp
      have hclear' : g.toEfs.dataBitmap.bit d' k = false := by
        rw [hbits, hclear, Bool.false_or]
        exact decide_eq_false (by omega)
      obtain ⟨e, live', e', hrun, hexec⟩ := ih d' _ (j + 1) (by omega) hfull' hclear'
      exact ⟨e, live', e', .head (DataStep.alloc he) hrun, hexec⟩
    · exact ⟨d, live, d', .refl, he⟩
    · rw [hlow k h] at hclear
      cases hclear

/-- A clear bit past the data area is allocated in the end, and its block is not on the device. -/
theorem not_neverLeaves (hg : g.Sound) {k : Nat} (hk : k < g.toEfs.dataBitmap.maxBits)
    (hpast : g.dataAreaBlocks.toNat ≤ k) (hk32 : k < 2 ^ 32)
    (hclear : g.toEfs.dataBitmap.bit d0 k = false) :
    ¬ NeverLeaves g.toEfs g.totalBlocks d0 := by
  intro h
  obtain ⟨e, live, e', hrun, he⟩ := alloc_reaches hk (k + 1) d0 [] 0 (by omega)
    (fun i hi => absurd hi (Nat.not_lt_zero i)) hclear
  obtain ⟨hlo, hhi, _⟩ := (h e live hrun).1 _ _ he
  have hstart := Geometry.toEfs_dataAreaStart hg
  rw [UInt32.le_iff_toNat_le, UInt32.toNat_add, UInt32.toNat_ofNat'] at hlo
  rw [UInt32.lt_iff_toNat_lt, UInt32.toNat_add, UInt32.toNat_ofNat'] at hhi
  unfold Geometry.Sound at hg
  omega

/-- `create` leaves the last bit of the data bitmap clear. (When the inode area has no block at all,
the root inode lies in the first block of the data bitmap, but in its low bytes.) -/
theorem create_last_bit (hg : g.Sound) {dev : Disk} (hc : CreatePost g dev d0)
    (hdb : 0 < g.dataBitmapBlocks.toNat) :
    g.toEfs.dataBitmap.bit d0 (g.toEfs.dataBitmap.maxBits - 1) = false := by
  have hdiv : (g.toEfs.dataBitmap.maxBits - 1) / 4096 = g.dataBitmapBlocks.toNat - 1 := by
    rw [maxBits_dataBitmap]
    omega
  have hmod : (g.toEfs.dataBitmap.maxBits - 1) % 4096 = 4095 := by
    rw [maxBits_dataBitmap]
    omega
  unfold Bitmap.bit
  rw [blockBits_eq, hdiv, hmod, Geometry.toEfs_dataBitmapStart hg]
  have hzero : ∀ x, x < g.totalBlocks.toNat → cleared g.totalBlocks.toNat dev x = Bytes.zero blockSz :=
    fun x hx => if_pos hx
  unfold Geometry.Sound at hg
  by_cases hroot : 1 + g.inodeBitmapBlocks.toNat + g.inodeAreaBlocks.toNat +
      (g.dataBitmapBlocks.toNat - 1) = 1 + g.inodeBitmapBlocks.toNat
  · rw [hroot, hc.root, hzero _ (by omega)]
    unfold Bitmap.blockBit u64At DiskInode.encode
    rw [Bytes.word_splice_disjoint 8 _ (by rw [DiskInode.bytes_length]; omega), Bytes.word_zero,
      Nat.zero_testBit]
  · rw [hc.rest _ (by omega), hzero _ (by omega), Bitmap.blockBit_zero]

theorem neverLeaves_iff_cap (hg : g.Sound) {dev : Disk} (hc : CreatePost g dev d0)
    (h32 : g.toEfs.dataBitmap.maxBits ≤ 2 ^ 32) :
    NeverLeaves g.toEfs g.totalBlocks d0 ↔
      g.toEfs.dataBitmap.maxBits ≤ g.dataAreaBlocks.toNat := by
  constructor
  · intro h
    by_contra hlt
    have hdb : 0 < g.dataBitmapBlocks.toNat := by
      rw [maxBits_dataBitmap] at hlt
      omega
    exact not_neverLeaves hg (by omega) (by omega) (by omega) (create_last_bit hg hc hdb) h
  · exact neverLeaves_of_cap hg

end Runs

/-- **When block allocation stays on the device.** For a layout computed without underflow, no
sequence of `alloc_data` and `dealloc_data` calls on the file system that `create` makes is given a
block outside the data area, or one that is allocated, exactly when the blocks left for the data
bitmap and the data area are a multiple of 4097, or so many that the bitmap size wraps to zero. -/
theorem neverLeaves_iff (total ib : UInt32) (dev : Disk) (fs : EasyFileSystem) (d0 : Disk)
    (h : (Geometry.compute total ib).NoUnderflow)
    (he : (EasyFileSystem.create total ib).exec dev = some (fs, d0)) :
    NeverLeaves fs total d0 ↔
      4097 ∣ total.toNat - (1 + ib.toNat + 1088 * ib.toNat % 2 ^ 32) ∨
        2 ^ 32 - 4096 ≤ total.toNat - (1 + ib.toNat + 1088 * ib.toNat % 2 ^ 32) := by
  obtain ⟨rfl, hc⟩ := create_exec h he
  have hg := Geometry.compute_sound h
  have hdb := Geometry.compute_dataBitmapBlocks total ib
  have hda := Geometry.compute_dataAreaBlocks total ib
  have hdt := Geometry.compute_dataTotalBlocks h
  have hlt := (Geometry.compute total ib).dataTotalBlocks.toNat_lt
  rw [Geometry.compute_inodeAreaBlocks] at hdt
  rw [← hdt]
  refine (neverLeaves_iff_cap hg hc (by rw [maxBits_dataBitmap]; omega)).trans ?_
  rw [maxBits_dataBitmap]
  by_cases hwrap : 2 ^ 32 - 4096 ≤ (Geometry.compute total ib).dataTotalBlocks.toNat
  · simp only [hwrap, or_true, iff_true]
    omega
  · rw [Nat.mod_eq_of_lt (by omega)] at hdb
    simp only [hwrap, or_false]
    omega

/-- The image that the packer makes. -/
theorem neverLeaves_iff_packer : ∃ fs d0,
    (EasyFileSystem.create 32768 1).exec (fun _ => Bytes.zero blockSz) = some (fs, d0) ∧
      (NeverLeaves fs 32768 d0 ↔
        4097 ∣ (32768 : UInt32).toNat - (1 + (1 : UInt32).toNat + 1088 * (1 : UInt32).toNat % 2 ^ 32) ∨
          2 ^ 32 - 4096 ≤ (32768 : UInt32).toNat -
            (1 + (1 : UInt32).toNat + 1088 * (1 : UInt32).toNat % 2 ^ 32)) := by
  obtain ⟨fs, d0, he, _⟩ := create_spec (fun _ => Bytes.zero blockSz)
    (show (Geometry.compute 32768 1).NoUnderflow by decide) (by decide)
  exact ⟨fs, d0, he, neverLeaves_iff 32768 1 _ fs d0 (by decide) he⟩

/-- In the packer's image the data area has 31670 blocks and the bitmap 32768 bits. -/
theorem not_neverLeaves_packer :
    ¬ ∀ (total ib : UInt32) (dev : Disk) (fs : EasyFileSystem) (d0 : Disk),
      (Geometry.compute total ib).NoUnderflow →
        (EasyFileSystem.create total ib).exec dev = some (fs, d0) → NeverLeaves fs total d0 := by
  intro h
  have hu : (Geometry.compute 32768 1).NoUnderflow := by decide
  obtain ⟨fs, d0, he, rfl, hc⟩ := create_spec (fun _ => Bytes.zero blockSz) hu (by decide)
  have hcap := (neverLeaves_iff_cap (Geometry.compute_sound hu) hc (by decide)).mp
    (h 32768 1 _ _ d0 hu he)
  exact absurd hcap (by decide)

end RCore.EasyFs
