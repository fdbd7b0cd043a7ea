import RCore.EasyFs.Verify.Alloc

/-!
# Owned blocks

`Owned g owned d` says that `owned` is the list of the blocks in use: distinct blocks of the data
area, exactly those that the data bitmap marks, while every block of the data area outside the list
is zero. The allocator moves blocks in and out of the list, and writing to a block of the list
changes nothing about it.
-/

namespace RCore.EasyFs

open RCore Prog

namespace Geometry

/-- The first block of the data area. -/
def dataStart (g : Geometry) : Nat := g.toEfs.dataAreaStartBlock.toNat

/-- How many blocks of the data area the data bitmap can give out. -/
def capacity (g : Geometry) : Nat := min g.dataAreaBlocks.toNat g.toEfs.dataBitmap.maxBits

theorem dataStart_eq {g : Geometry} (hg : g.Sound) :
    g.dataStart = g.toEfs.dataBitmap.startBlockId + g.dataBitmapBlocks.toNat := by
  rw [dataStart, toEfs_dataAreaStart hg, toEfs_dataBitmapStart hg]

/-- Blocks from the start of the data area on are outside the data bitmap. -/
theorem outside_of_dataStart_le {g : Geometry} (hg : g.Sound) {x : Nat} (hx : g.dataStart ≤ x) :
    g.toEfs.dataBitmap.Outside x := by
  rw [dataStart_eq hg] at hx
  exact .inr hx

end Geometry

/-- The blocks in use are `owned`. -/
structure Owned (g : Geometry) (owned : List UInt32) (d : Disk) : Prop where
  nodup : owned.Nodup
  inArea : ∀ b ∈ owned, g.dataStart ≤ b.toNat ∧ b.toNat < g.dataStart + g.capacity
  bits : ∀ k, k < g.toEfs.dataBitmap.maxBits →
    (g.toEfs.dataBitmap.bit d k = true ↔ ∃ b ∈ owned, b.toNat = g.dataStart + k)
  zeros : ∀ x, g.dataStart ≤ x → x < g.dataStart + g.dataAreaBlocks.toNat →
    (∀ b ∈ owned, b.toNat ≠ x) → d x = Bytes.zero blockSz

namespace Owned

variable {g : Geometry} {owned : List UInt32} {d d' : Disk}

theorem perm (h : Owned g owned d) {owned' : List UInt32} (hp : owned.Perm owned') :
    Owned g owned' d where
  nodup := hp.nodup_iff.mp h.nodup
  inArea b hb := h.inArea b (hp.mem_iff.mpr hb)
  bits k hk := by
    rw [h.bits k hk]
    simp only [hp.mem_iff]
  zeros x h1 h2 h3 := h.zeros x h1 h2 fun b hb => h3 b (hp.mem_iff.mp hb)

/-- A disk with the same data bitmap and the same free blocks. -/
theorem congr (hg : g.Sound) (h : Owned g owned d)
    (hd : ∀ x, g.toEfs.dataBitmap.startBlockId ≤ x → (∀ b ∈ owned, b.toNat ≠ x) → d' x = d x) :
    Owned g owned d' where
  nodup := h.nodup
  inArea := h.inArea
  bits k hk := by
    rw [← h.bits k hk, Bitmap.bit_congr _ _ hk]
    intro x hx
    have hnot : g.toEfs.dataBitmap.startBlockId ≤ x ∧
        x < g.toEfs.dataBitmap.startBlockId + g.dataBitmapBlocks.toNat := by
      have hx' : ¬ (x < g.toEfs.dataBitmap.startBlockId ∨
          g.toEfs.dataBitmap.startBlockId + g.dataBitmapBlocks.toNat ≤ x) := hx
      omega
    apply hd x hnot.1
    intro b hb heq
    have hlo := (h.inArea b hb).1
    rw [Geometry.dataStart_eq hg] at hlo
    omega
  zeros x h1 h2 h3 := by
    have hlo : g.toEfs.dataBitmap.startBlockId ≤ x := by
      rw [Geometry.dataStart_eq hg] at h1
      omega
    rw [hd x hlo h3]
    exact h.zeros x h1 h2 h3

theorem length_le (h : Owned g owned d) {n : Nat} (hn : n ≤ g.toEfs.dataBitmap.maxBits)
    (hset : ∀ k, k < n → g.toEfs.dataBitmap.bit d k = true) : n ≤ owned.length := by
  have hsub : (List.range n).map (g.dataStart + ·) ⊆ owned.map UInt32.toNat := by
    intro x hx
    obtain ⟨k, hk, rfl⟩ := List.mem_map.mp hx
    have hk' := List.mem_range.mp hk
    obtain ⟨b, hb, heq⟩ := (h.bits k (by omega)).mp (hset k hk')
    exact List.mem_map.mpr ⟨b, hb, heq⟩
  have hnd : ((List.range n).map (g.dataStart + ·)).Nodup :=
    List.Nodup.map (fun _ _ h => Nat.add_left_cancel h) List.nodup_range
  have hle := (List.subperm_of_subset hnd hsub).length_le
  simpa using hle

/-! ## Allocation -/

theorem allocData (hg : g.Sound) (h : Owned g owned d) (hspace : owned.length < g.capacity) :
    g.toEfs.allocData.wp (fun b d' => Owned g (b :: owned) d' ∧ d' b.toNat = Bytes.zero blockSz ∧
      ∀ x, g.toEfs.dataBitmap.Outside x → d' x = d x) d := by
  have hcap : g.capacity ≤ g.toEfs.dataBitmap.maxBits := Nat.min_le_right _ _
  have hcap' : g.capacity ≤ g.dataAreaBlocks.toNat := Nat.min_le_left _ _
  have hfree : ∃ k, k < g.toEfs.dataBitmap.maxBits ∧ g.toEfs.dataBitmap.bit d k = false := by
    by_contra hnone
    have hall : ∀ k, k < g.capacity → g.toEfs.dataBitmap.bit d k = true := by
      intro k hk
      by_contra hb
      exact hnone ⟨k, by omega, by simpa using hb⟩
    have hle := h.length_le hcap hall
    omega
  obtain ⟨k, hk, hclear⟩ := hfree
  refine wp_mono (allocData_spec hk hclear) ?_
  rintro b d' ⟨j, ⟨hj, hjclear, hlow, hbits, hout⟩, rfl⟩
  -- all lower bits are set, so the bit is within the area
  have hjlen : j ≤ owned.length := h.length_le (by omega) hlow
  have hval : (UInt32.ofNat j + g.toEfs.dataAreaStartBlock).toNat = g.dataStart + j :=
    toNat_dataBlock hg (by omega)
  have hfresh : ∀ b ∈ owned, b.toNat ≠ g.dataStart + j := by
    intro b hb heq
    have hset := (h.bits j hj).mpr ⟨b, hb, heq⟩
    rw [hjclear] at hset
    cases hset
  refine ⟨⟨?_, ?_, ?_, ?_⟩, ?_, hout⟩
  · refine List.nodup_cons.mpr ⟨fun hmem => ?_, h.nodup⟩
    exact hfresh _ hmem hval
  · intro b hb
    rcases List.mem_cons.mp hb with rfl | hb
    · rw [hval]
      omega
    · exact h.inArea b hb
  · intro i hi
    rw [hbits, Bool.or_eq_true, h.bits i hi, decide_eq_true_iff]
    constructor
    · rintro (⟨b, hb, heq⟩ | rfl)
      · exact ⟨b, List.mem_cons_of_mem _ hb, heq⟩
      · exact ⟨_, List.mem_cons_self, hval⟩
    · rintro ⟨b, hb, heq⟩
      rcases List.mem_cons.mp hb with rfl | hb
      · right
        omega
      · exact .inl ⟨b, hb, heq⟩
  · intro x h1 h2 h3
    rw [hout x (Geometry.outside_of_dataStart_le hg h1)]
    exact h.zeros x h1 h2 fun b hb => h3 b (List.mem_cons_of_mem _ hb)
  · rw [hval, hout _ (Geometry.outside_of_dataStart_le hg (by omega))]
    exact h.zeros _ (by omega) (by omega) hfresh

theorem allocBlocks (hg : g.Sound) (n : Nat) :
    ∀ (owned : List UInt32) (d : Disk), Owned g owned d → owned.length + n ≤ g.capacity →
      (Inode.allocBlocks g.toEfs n).wp (fun v d' => v.length = n ∧ Owned g (owned ++ v) d' ∧
        (∀ b ∈ v, d' b.toNat = Bytes.zero blockSz) ∧
        ∀ x, g.toEfs.dataBitmap.Outside x → d' x = d x) d := by
  induction n with
  | zero =>
    intro owned d h _
    simp only [Inode.allocBlocks, wp_pure]
    exact ⟨rfl, by rwa [List.append_nil], fun b hb => absurd hb List.not_mem_nil, fun x _ => trivial⟩
  | succ n ih =>
    intro owned d h hspace
    simp only [Inode.allocBlocks, wp_bind, wp_pure]
    refine wp_mono (allocData hg h (by omega)) ?_
    rintro b d1 ⟨h1, hz, hout⟩
    refine wp_mono (ih (b :: owned) d1 h1 (by simp only [List.length_cons]; omega)) ?_
    rintro v d2 ⟨hlen, h2, hzv, hout2⟩
    have hb : g.toEfs.dataBitmap.Outside b.toNat :=
      Geometry.outside_of_dataStart_le hg (h1.inArea b List.mem_cons_self).1
    refine ⟨by rw [List.length_cons, hlen], h2.perm ?_, ?_, ?_⟩
    · exact List.perm_middle.symm
    · intro c hc
      rcases List.mem_cons.mp hc with rfl | hc
      · rw [hout2 _ hb, hz]
      · exact hzv c hc
    · intro x hx
      rw [hout2 x hx, hout x hx]

/-! ## Deallocation -/

theorem deallocData (hg : g.Sound) {b : UInt32} (h : Owned g (b :: owned) d) :
    (g.toEfs.deallocData b).wp (fun _ d' => Owned g owned d' ∧
      ∀ x, g.toEfs.dataBitmap.Outside x → b.toNat ≠ x → d' x = d x) d := by
  obtain ⟨hlo, hhi⟩ := h.inArea b List.mem_cons_self
  have hcap : g.capacity ≤ g.toEfs.dataBitmap.maxBits := Nat.min_le_right _ _
  have hle : g.toEfs.dataAreaStartBlock ≤ b := UInt32.le_iff_toNat_le.mpr hlo
  have hsub : (b - g.toEfs.dataAreaStartBlock).toNat = b.toNat - g.dataStart :=
    UInt32.toNat_sub_of_le _ _ hle
  have hk : b.toNat - g.dataStart < g.toEfs.dataBitmap.maxBits := by omega
  have hset : g.toEfs.dataBitmap.bit (Function.update d b.toNat (Bytes.zero blockSz))
      (b - g.toEfs.dataAreaStartBlock).toNat = true := by
    rw [hsub, bit_update_data hg hle _ hk]
    exact (h.bits _ hk).mpr ⟨b, List.mem_cons_self, by omega⟩
  obtain ⟨hnot, hnd⟩ := List.nodup_cons.mp h.nodup
  have hpos : g.toEfs.dataBitmap.startBlockId + (b.toNat - g.dataStart) / 4096 < g.dataStart := by
    rw [Geometry.dataStart_eq hg] at hhi hlo ⊢
    rw [maxBits_dataBitmap] at hk
    rw [Geometry.dataStart_eq hg] at hk
    omega
  refine wp_mono (deallocData_spec hset) ?_
  rintro _ d' ⟨hbits, hout⟩
  rw [hsub] at hbits hout
  rw [blockBits_eq] at hout
  have hframe : ∀ x, g.toEfs.dataBitmap.Outside x → b.toNat ≠ x → d' x = d x := by
    intro x hx hne
    rw [hout x, Function.update_of_ne hne.symm]
    intro heq
    rcases hx with hx | hx
    · omega
    · have hx' : g.toEfs.dataBitmap.startBlockId + g.dataBitmapBlocks.toNat ≤ x := hx
      rw [← Geometry.dataStart_eq hg] at hx'
      omega
  refine ⟨⟨hnd, fun c hc => h.inArea c (List.mem_cons_of_mem _ hc), ?_, ?_⟩, hframe⟩
  · intro i hi
    rw [hbits, bit_update_data hg hle _ hi, Bool.and_eq_true, h.bits i hi, decide_eq_true_iff]
    constructor
    · rintro ⟨⟨c, hc, heq⟩, hne⟩
      rcases List.mem_cons.mp hc with rfl | hc
      · exact absurd (by omega) hne
      · exact ⟨c, hc, heq⟩
    · rintro ⟨c, hc, heq⟩
      refine ⟨⟨c, List.mem_cons_of_mem _ hc, heq⟩, fun hi' => hnot ?_⟩
      have hcb : c = b := UInt32.toNat_inj.mp (by omega)
      exact hcb ▸ hc
  · intro x h1 h2 h3
    by_cases hxb : b.toNat = x
    · rw [hout x (by omega), ← hxb, Function.update_self]
    · rw [hframe x (Geometry.outside_of_dataStart_le hg h1) hxb]
      refine h.zeros x h1 h2 fun c hc => ?_
      rcases List.mem_cons.mp hc with rfl | hc
      · exact hxb
      · exact h3 c hc

theorem deallocBlocks (hg : g.Sound) (v : List UInt32) :
    ∀ (d : Disk), Owned g (v ++ owned) d →
      (Inode.deallocBlocks g.toEfs v).wp (fun _ d' => Owned g owned d' ∧
        ∀ x, g.toEfs.dataBitmap.Outside x → (∀ b ∈ v, b.toNat ≠ x) → d' x = d x) d := by
  induction v with
  | nil =>
    intro d h
    simp only [Inode.deallocBlocks, wp_pure]
    exact ⟨h, fun x _ _ => trivial⟩
  | cons b v ih =>
    intro d h
    simp only [Inode.deallocBlocks, wp_bind]
    refine wp_mono (deallocData hg h) ?_
    rintro _ d1 ⟨h1, hf1⟩
    refine wp_mono (ih d1 h1) ?_
    rintro _ d2 ⟨h2, hf2⟩
    refine ⟨h2, fun x hx hv => ?_⟩
    rw [hf2 x hx fun c hc => hv c (List.mem_cons_of_mem _ hc), hf1 x hx (hv b List.mem_cons_self)]

end Owned

end RCore.EasyFs
