import Mathlib.Order.Bounds.Basic
import RCore.EasyFs.Bitmap

/-!
# The bitmap as a set of numbers

Whatever the blocks of a bitmap hold, `alloc` and `dealloc` act on the set of the bits that are 1: `alloc` inserts the least
number that is not in the set, at the position that `decomposition` computes from it, and `dealloc` takes a number out.
-/

namespace RCore.EasyFs.Bitmap

open RCore Prog

/-- The bits below `max_bits` that are 1. -/
def set (bm : Bitmap) (d : Disk) : Set Nat := { k | k < bm.maxBits ∧ bm.bit d k = true }

/-- Bit `k` apart, all is as it was. -/
structure OnlyBit (bm : Bitmap) (d d' : Disk) (k : Nat) : Prop where
  bits : ∀ j, j ≠ k → bm.bit d' j = bm.bit d j
  blocks : ∀ i, i ≠ bm.startBlockId + k / blockBits → d' i = d i

/-- Bit `k` is marked where `decomposition` says. -/
def Marks (bm : Bitmap) (d d' : Disk) (k : Nat) : Prop :=
  d' = Function.update d (bm.startBlockId + (decomposition k).1)
    (setU64 (d (bm.startBlockId + (decomposition k).1)) (decomposition k).2.1
      (u64At (d (bm.startBlockId + (decomposition k).1)) (decomposition k).2.1 ||| 1 <<< (decomposition k).2.2))

/-- What a bitmap does as a set. -/
structure ActsAsSet (bm : Bitmap) (d : Disk) : Prop where
  alloc_returns : ∃ r d', bm.alloc.exec d = some (r, d') ∧ (r = none ↔ bm.set d = Set.Iio bm.maxBits)
  alloc_full : ∀ d', bm.alloc.exec d = some (none, d') → d' = d
  alloc_lowest : ∀ k d', bm.alloc.exec d = some (some k, d') → IsLeast (Set.Iio bm.maxBits \ bm.set d) k ∧
    bm.set d' = insert k (bm.set d) ∧ bm.OnlyBit d d' k ∧ bm.Marks d d' k
  dealloc_clears : ∀ k ∈ bm.set d, ∃ d', (bm.dealloc k).exec d = some ((), d') ∧ bm.set d' = bm.set d \ {k} ∧ bm.OnlyBit d d' k
  dealloc_panics : ∀ k, k < bm.maxBits → ((bm.dealloc k).exec d = none ↔ k ∉ bm.set d)
  /-- `decomposition` undoes the composition of a number in `alloc`. -/
  positions : ∀ blockId bits64Pos innerPos, blockId < bm.blocks → bits64Pos < 64 → innerPos < 64 →
    blockId * blockBits + bits64Pos * 64 + innerPos < bm.maxBits ∧
      decomposition (blockId * blockBits + bits64Pos * 64 + innerPos) = (blockId, bits64Pos, innerPos)

variable {bm : Bitmap} {d d' : Disk} {k : Nat}

theorem decomposition_compose (blockId : Nat) {w i : Nat} (hw : w < 64) (hi : i < 64) :
    decomposition (blockId * blockBits + w * 64 + i) = (blockId, w, i) := by
  have hblock : (blockId * 4096 + w * 64 + i) / 4096 = blockId := by omega
  have hword : (blockId * 4096 + w * 64 + i) % 4096 / 64 = w := by omega
  have hbit : (blockId * 4096 + w * 64 + i) % 4096 % 64 = i := by omega
  rw [decomposition, blockBits_eq, hblock, hword, hbit]

/-- The search of `alloc` stores one word at most. -/
theorem allocFrom_marks (bm : Bitmap) (d : Disk) (n blockId : Nat) : (bm.allocFrom n blockId).wp (fun r d' =>
    match r with
    | none => d' = d
    | some k => bm.Marks d d' k) d := by
  induction n generalizing blockId with
  | zero => rw [allocFrom, wp_pure]
  | succ n ih =>
    rw [allocFrom, wp_bind, wp_withModify, wp_pure, allocIn]
    cases hfb : freeBit (d (bm.startBlockId + blockId)) with
    | none =>
      dsimp only
      rw [Function.update_eq_self]
      exact ih (blockId + 1)
    | some p =>
      obtain ⟨w, i⟩ := p
      obtain ⟨hw, hi, -⟩ := freeBit_some hfb
      dsimp only
      rw [wp_pure]
      dsimp only
      rw [Marks, decomposition_compose blockId hw hi]

theorem alloc_exec (bm : Bitmap) (d : Disk) : ∃ r d', bm.alloc.exec d = some (r, d') ∧ AllocPost bm d r d' ∧
    ∀ k, r = some k → bm.Marks d d' k := by
  obtain ⟨r, d', he, hpost⟩ := alloc_spec bm d
  obtain ⟨r', d'', he', hmarks⟩ := allocFrom_marks bm d bm.blocks 0
  have hsame := he.symm.trans he'
  cases hsame
  refine ⟨r, d', he, hpost, ?_⟩
  rintro k rfl
  exact hmarks

/-- A stored word changes no other block. -/
theorem Marks.blocks (h : bm.Marks d d' k) {i : Nat} (hi : i ≠ bm.startBlockId + k / blockBits) : d' i = d i := by
  rw [h]
  exact Function.update_of_ne hi _ _

theorem set_full_iff : bm.set d = Set.Iio bm.maxBits ↔ ∀ k, k < bm.maxBits → bm.bit d k = true := by
  constructor
  · intro h k hk
    have hmem : k ∈ bm.set d := h ▸ hk
    exact hmem.2
  · intro h
    ext k
    exact ⟨And.left, fun hk => ⟨hk, h k hk⟩⟩

theorem set_insert (hk : k < bm.maxBits) (h : ∀ j, bm.bit d' j = (bm.bit d j || decide (j = k))) :
    bm.set d' = insert k (bm.set d) := by
  ext j
  show j < bm.maxBits ∧ bm.bit d' j = true ↔ j = k ∨ j < bm.maxBits ∧ bm.bit d j = true
  rw [h, Bool.or_eq_true, decide_eq_true_eq]
  constructor
  · rintro ⟨hlt, hset | heq⟩
    · exact .inr ⟨hlt, hset⟩
    · exact .inl heq
  · rintro (rfl | ⟨hlt, hset⟩)
    · exact ⟨hk, .inr rfl⟩
    · exact ⟨hlt, .inl hset⟩

theorem set_erase (h : ∀ j, bm.bit d' j = (bm.bit d j && decide (j ≠ k))) : bm.set d' = bm.set d \ {k} := by
  ext j
  show j < bm.maxBits ∧ bm.bit d' j = true ↔ (j < bm.maxBits ∧ bm.bit d j = true) ∧ j ≠ k
  rw [h, Bool.and_eq_true, decide_eq_true_eq, and_assoc]

/-- **A bitmap is a set with lowest-first allocation**, whatever its blocks hold. -/
theorem acts_as_set (bm : Bitmap) (d : Disk) : bm.ActsAsSet d := by
  obtain ⟨r, d', he, hpost, hmarks⟩ := alloc_exec bm d
  refine ⟨⟨r, d', he, ?_⟩, fun d'' hd'' => ?_, fun k d'' hd'' => ?_, fun k hk => ?_, fun k hk => ?_,
    fun blockId w i hblock hw hi => ⟨?_, decomposition_compose blockId hw hi⟩⟩
  · rw [set_full_iff]
    cases r with
    | none => exact ⟨fun _ => hpost.2, fun _ => rfl⟩
    | some k =>
      refine ⟨fun hc => absurd hc (Option.some_ne_none k), fun hall => ?_⟩
      have hclear := hpost.2.1
      rw [hall k hpost.1] at hclear
      cases hclear
  · rw [he] at hd''
    cases hd''
    exact hpost.1
  · rw [he] at hd''
    cases hd''
    obtain ⟨hlt, hclear, hlow, hbits, -⟩ := hpost
    refine ⟨⟨⟨hlt, fun hmem => ?_⟩, fun j hj => ?_⟩, set_insert hlt hbits, ⟨fun j hne => ?_, fun i => (hmarks k rfl).blocks⟩,
      hmarks k rfl⟩
    · exact Bool.false_ne_true (hclear.symm.trans hmem.2)
    · by_contra hlt'
      exact hj.2 ⟨hj.1, hlow j (Nat.lt_of_not_le hlt')⟩
    · rw [hbits, decide_eq_false hne, Bool.or_false]
  · obtain ⟨u, d'', hd'', hbits, hblocks⟩ := dealloc_spec bm d hk.2
    refine ⟨d'', hd'', set_erase hbits, fun j hne => ?_, hblocks⟩
    rw [hbits, decide_eq_true hne, Bool.and_true]
  · constructor
    · intro hnone hmem
      obtain ⟨u, d'', hd'', -⟩ := dealloc_spec bm d hmem.2
      rw [hnone] at hd''
      cases hd''
    · intro hout
      exact dealloc_clear bm d (Bool.eq_false_iff.mpr fun hset => hout ⟨hk, hset⟩)
  · have hle : (blockId + 1) * 4096 ≤ bm.blocks * 4096 := Nat.mul_le_mul_right _ hblock
    rw [maxBits, blockBits_eq]
    omega

/-- Behind `max_bits`, `dealloc` clears a bit of a block that is not the bitmap's. -/
theorem dealloc_beyond : ∃ (bm : Bitmap) (d : Disk) (k : Nat), k ∉ bm.set d ∧ ∃ d', (bm.dealloc k).exec d = some ((), d') := by
  refine ⟨⟨0, 1⟩, fun _ => setU64 (Bytes.zero blockSz) 0 1, 4096, fun hmem => absurd hmem.1 (by decide), ?_⟩
  have hset : Bitmap.bit ⟨0, 1⟩ (fun _ => setU64 (Bytes.zero blockSz) 0 1) 4096 = true := by
    show (u64At (setU64 (Bytes.zero blockSz) 0 1) 0).testBit 0 = true
    rw [u64At_setU64 _ (by decide) (by decide), if_pos rfl]
    rfl
  obtain ⟨u, d', he, -⟩ := dealloc_spec _ _ hset
  exact ⟨d', he⟩

end RCore.EasyFs.Bitmap
