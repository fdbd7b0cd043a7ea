import RCore.Lib.Bits
import RCore.Lib.Prog

/-!
# Blocks and on-disk bitmaps

The types of `easy-fs/src/lib.rs` and `block_dev.rs`, and the bitmap of `bitmap.rs`.

The file system reaches the device only through `get_block_cache(id).lock()` followed by `read` or
`modify`. A file-system routine is therefore a `Prog` whose cells are the blocks of the device, read
through the block cache; `Disk` is that cached view.

A bitmap block is an array of 64 words of 64 bits. `Bitmap.bit` is the set a bitmap stores;
`Bitmap.alloc` takes its lowest clear bit (`alloc_spec`) and `Bitmap.dealloc` clears a bit that is
set (`dealloc_spec`) and panics on one that is not (`dealloc_clear`).
-/

namespace RCore.EasyFs

open RCore Prog

/-- `BLOCK_SZ`. -/
abbrev blockSz : Nat := 512

/-- The content of one block. -/
abbrev Block := Bytes blockSz

/-- The blocks of a device, as the block cache shows them. -/
abbrev Disk := Nat → Block

/-- A file-system routine. -/
abbrev EfsM := Prog Nat Block

/-- `BLOCK_BITS`. -/
def blockBits : Nat := blockSz * 8

theorem blockBits_eq : blockBits = 4096 := rfl

/-- `u64::MAX`. -/
def u64Max : Nat := 2 ^ 64 - 1

/-! ## The model -/

/-- Word `k` of a block seen as `[u64; 64]`. -/
def u64At (b : Block) (k : Nat) : Nat := b.word 8 (8 * k)

/-- Overwrite word `k` of a block seen as `[u64; 64]`. -/
def setU64 (b : Block) (k v : Nat) : Block := b.setWord 8 (8 * k) v

/-- Block, word and bit of a bit number. -/
def decomposition (bit : Nat) : Nat × Nat × Nat :=
  (bit / blockBits, bit % blockBits / 64, bit % blockBits % 64)

/-- A bitmap: its first block and its number of blocks. -/
structure Bitmap where
  startBlockId : Nat
  blocks : Nat
deriving DecidableEq, Repr

namespace Bitmap

/-- The first word of a bitmap block that is not all ones, and its lowest clear bit. -/
def freeBit (b : Block) : Option (Nat × Nat) :=
  ((List.range 64).find? fun k => u64At b k != u64Max).map fun k =>
    (k, trailingOnes 64 (u64At b k))

/-- The closure `alloc` runs on one bitmap block. -/
def allocIn (blockId : Nat) (b : Block) : Option Nat × Block :=
  match freeBit b with
  | some (bits64Pos, innerPos) =>
    (some (blockId * blockBits + bits64Pos * 64 + innerPos),
      setU64 b bits64Pos (u64At b bits64Pos ||| 1 <<< innerPos))
  | none => (none, b)

/-- The search of `alloc` through `n` bitmap blocks from `blockId` on. -/
def allocFrom (bm : Bitmap) : Nat → Nat → EfsM (Option Nat)
  | 0, _ => pure none
  | n + 1, blockId => do
    let pos ← withModify (bm.startBlockId + blockId) fun b => pure (allocIn blockId b)
    match pos with
    | some p => pure (some p)
    | none => allocFrom bm n (blockId + 1)

/-- Set the lowest clear bit and return its number. -/
def alloc (bm : Bitmap) : EfsM (Option Nat) := bm.allocFrom bm.blocks 0

/-- Clear a bit, which must be set. -/
def dealloc (bm : Bitmap) (bit : Nat) : EfsM Unit :=
  let (blockPos, bits64Pos, innerPos) := decomposition bit
  withModify (bm.startBlockId + blockPos) fun b => do
    assert (0 < u64At b bits64Pos &&& 1 <<< innerPos)
    pure ((), setU64 b bits64Pos (u64At b bits64Pos - 1 <<< innerPos))

def maxBits (bm : Bitmap) : Nat := bm.blocks * blockBits

/-! ## The set a bitmap stores -/

/-- Bit `k` of a bitmap block. -/
def blockBit (b : Block) (k : Nat) : Bool := (u64At b (k / 64)).testBit (k % 64)

/-- Bit `k` of a bitmap. -/
def bit (bm : Bitmap) (d : Disk) (k : Nat) : Bool :=
  blockBit (d (bm.startBlockId + k / blockBits)) (k % blockBits)

/-- A block outside the bitmap. -/
def Outside (bm : Bitmap) (i : Nat) : Prop :=
  i < bm.startBlockId ∨ bm.startBlockId + bm.blocks ≤ i

end Bitmap

/-! ## Words of a bitmap block -/

theorem u64At_lt (b : Block) (k : Nat) : u64At b k < 2 ^ 64 :=
  Bytes.word_lt 8 b (8 * k)

theorem u64At_setU64 (b : Block) {j v : Nat} (hj : j < 64) (hv : v < 2 ^ 64) (k : Nat) :
    u64At (setU64 b j v) k = if k = j then v else u64At b k := by
  have hb : 8 * j + 8 ≤ blockSz := by
    show 8 * j + 8 ≤ 512
    omega
  have hmod : v % 256 ^ 8 = v := Nat.mod_eq_of_lt hv
  have hset := Bytes.word_setWord_entry 8 b (k := k) (v := v) hb
  rw [hmod] at hset
  exact hset

@[simp] theorem u64At_zero (k : Nat) : u64At (Bytes.zero blockSz) k = 0 :=
  Bytes.word_zero 8 (8 * k)

namespace Bitmap

@[simp] theorem blockBit_zero (k : Nat) : blockBit (Bytes.zero blockSz) k = false := by
  simp [blockBit]

theorem blockBit_word (b : Block) {w i : Nat} (hi : i < 64) :
    blockBit b (w * 64 + i) = (u64At b w).testBit i := by
  unfold blockBit
  have h1 : (w * 64 + i) / 64 = w := by omega
  have h2 : (w * 64 + i) % 64 = i := by omega
  rw [h1, h2]

theorem or_bit_lt {w i : Nat} (hw : w < 2 ^ 64) (hi : i < 64) : w ||| 1 <<< i < 2 ^ 64 := by
  apply Nat.or_lt_two_pow hw
  rw [Nat.shiftLeft_eq, Nat.one_mul]
  exact Nat.pow_lt_pow_right (by decide) hi

/-- Setting bit `i` of word `w` sets that bit of the block alone. -/
theorem blockBit_setU64_or (b : Block) {w i : Nat} (hw : w < 64) (hi : i < 64) (k : Nat) :
    blockBit (setU64 b w (u64At b w ||| 1 <<< i)) k =
      (blockBit b k || decide (k = w * 64 + i)) := by
  unfold blockBit
  rw [u64At_setU64 b hw (or_bit_lt (u64At_lt b w) hi)]
  by_cases hk : k / 64 = w
  · have hd : decide (k % 64 = i) = decide (k = w * 64 + i) := decide_eq_decide.mpr (by omega)
    rw [if_pos hk, testBit_or_shiftLeft, hk, hd]
  · have hne : k ≠ w * 64 + i := by omega
    simp [if_neg hk, hne]

/-- Subtracting bit `i` from word `w`, where it is set, clears that bit of the block alone. -/
theorem blockBit_setU64_sub (b : Block) {w i : Nat} (hw : w < 64) (hi : i < 64)
    (hset : (u64At b w).testBit i = true) (k : Nat) :
    blockBit (setU64 b w (u64At b w - 1 <<< i)) k =
      (blockBit b k && decide (k ≠ w * 64 + i)) := by
  unfold blockBit
  have hlt : u64At b w - 1 <<< i < 2 ^ 64 := Nat.lt_of_le_of_lt (Nat.sub_le _ _) (u64At_lt b w)
  rw [u64At_setU64 b hw hlt]
  by_cases hk : k / 64 = w
  · have hd : decide (k % 64 ≠ i) = decide (k ≠ w * 64 + i) := decide_eq_decide.mpr (by omega)
    rw [if_pos hk, testBit_sub_shiftLeft hset, hk, hd]
  · have hne : k ≠ w * 64 + i := by omega
    simp [if_neg hk, hne]

/-! ## One block of `alloc` -/

theorem freeBit_some {b : Block} {w i : Nat} (h : freeBit b = some (w, i)) :
    w < 64 ∧ i < 64 ∧ blockBit b (w * 64 + i) = false ∧
      ∀ k, k < w * 64 + i → blockBit b k = true := by
  unfold freeBit at h
  obtain ⟨k, hk, hpair⟩ := Option.map_eq_some_iff.mp h
  obtain ⟨rfl, rfl⟩ := Prod.mk.inj hpair
  obtain ⟨hne, hmem, hbefore⟩ := List.find?_range_eq_some.mp hk
  have hne' : u64At b k ≠ u64Max := by simpa using hne
  obtain ⟨hi, hclear⟩ := trailingOnes_spec 64 (u64At b k) (u64At_lt b k) hne'
  refine ⟨by simpa using hmem, hi, ?_, ?_⟩
  · rw [blockBit_word b hi]
    exact hclear
  · intro j hj
    unfold blockBit
    by_cases hw : j / 64 = k
    · rw [hw]
      exact trailingOnes_below 64 _ _ (by omega)
    · have hfull : u64At b (j / 64) = 2 ^ 64 - 1 := by
        have := hbefore (j / 64) (by omega)
        simpa [u64Max] using this
      rw [hfull, Nat.testBit_two_pow_sub_one]
      exact decide_eq_true (by omega)

theorem freeBit_none {b : Block} (h : freeBit b = none) {k : Nat} (hk : k < blockBits) :
    blockBit b k = true := by
  unfold freeBit at h
  have hall := List.find?_range_eq_none.mp (Option.map_eq_none_iff.mp h)
  rw [blockBits_eq] at hk
  have hfull : u64At b (k / 64) = 2 ^ 64 - 1 := by
    have := hall (k / 64) (by omega)
    simpa [u64Max] using this
  unfold blockBit
  rw [hfull, Nat.testBit_two_pow_sub_one]
  exact decide_eq_true (by omega)

/-! ## Allocation and deallocation -/

/-- What `alloc` does when it answers `r` on `d` and leaves `d'`. -/
def AllocPost (bm : Bitmap) (d : Disk) (r : Option Nat) (d' : Disk) : Prop :=
  match r with
  | none => d' = d ∧ ∀ k, k < bm.maxBits → bm.bit d k = true
  | some k => k < bm.maxBits ∧ bm.bit d k = false ∧ (∀ j, j < k → bm.bit d j = true) ∧
      (∀ j, bm.bit d' j = (bm.bit d j || decide (j = k))) ∧ ∀ i, bm.Outside i → d' i = d i

theorem bit_update (bm : Bitmap) (d : Disk) (j : Nat) (b : Block) (k : Nat) :
    bm.bit (Function.update d (bm.startBlockId + j) b) k =
      if k / blockBits = j then blockBit b (k % blockBits) else bm.bit d k := by
  unfold bit
  by_cases h : k / blockBits = j
  · simp [h]
  · have hne : bm.startBlockId + k / blockBits ≠ bm.startBlockId + j := by omega
    simp [h]

/-- The bits of a bitmap depend on its own blocks alone. -/
theorem bit_congr (bm : Bitmap) {d d' : Disk} (h : ∀ x, ¬ bm.Outside x → d' x = d x) {k : Nat}
    (hk : k < bm.maxBits) : bm.bit d' k = bm.bit d k := by
  have hdiv : k / blockBits < bm.blocks := Nat.div_lt_of_lt_mul (by rwa [Nat.mul_comm])
  have hin : ¬ bm.Outside (bm.startBlockId + k / blockBits) := by
    rw [blockBits_eq] at hdiv ⊢
    unfold Outside
    omega
  unfold bit
  rw [h _ hin]

theorem allocFrom_spec (bm : Bitmap) (d : Disk) (n blockId : Nat)
    (hn : blockId + n = bm.blocks) (hfull : ∀ k, k < blockId * blockBits → bm.bit d k = true) :
    (bm.allocFrom n blockId).wp (AllocPost bm d) d := by
  induction n generalizing blockId with
  | zero =>
    simp only [allocFrom, wp_pure, AllocPost]
    refine ⟨trivial, fun k hk => hfull k ?_⟩
    simpa [maxBits, ← hn] using hk
  | succ n ih =>
    simp only [allocFrom, wp_bind, wp_withModify, wp_pure, allocIn]
    cases hfb : freeBit (d (bm.startBlockId + blockId)) with
    | none =>
      -- the block is full: nothing is stored and the search goes on
      simp only [Function.update_eq_self]
      apply ih (blockId + 1) (by omega)
      intro k hk
      by_cases hlt : k < blockId * blockBits
      · exact hfull k hlt
      · have hdiv : k / blockBits = blockId := by
          apply Nat.div_eq_of_lt_le <;> omega
        unfold bit
        rw [hdiv]
        exact freeBit_none hfb (Nat.mod_lt _ (by decide))
    | some p =>
      obtain ⟨w, i⟩ := p
      obtain ⟨hw, hi, hclear, hbelow⟩ := freeBit_some hfb
      have hbits := blockBits_eq
      have hwi : w * 64 + i < 4096 := by omega
      have hpos : blockId * blockBits + w * 64 + i = blockId * 4096 + (w * 64 + i) := by
        rw [hbits]
        omega
      have hdiv : (blockId * 4096 + (w * 64 + i)) / 4096 = blockId := by omega
      have hmod : (blockId * 4096 + (w * 64 + i)) % 4096 = w * 64 + i := by omega
      simp only [wp_pure, AllocPost, hpos]
      refine ⟨?_, ?_, ?_, ?_, ?_⟩
      · unfold maxBits
        rw [← hn, hbits]
        omega
      · unfold bit
        rw [hbits, hdiv, hmod]
        exact hclear
      · intro j hj
        by_cases hlt : j < blockId * 4096
        · exact hfull j (by rw [hbits]; exact hlt)
        · have hjd : j / 4096 = blockId := by omega
          unfold bit
          rw [hbits, hjd]
          exact hbelow _ (by omega)
      · intro j
        rw [bit_update, hbits]
        by_cases hjd : j / 4096 = blockId
        · rw [if_pos hjd, blockBit_setU64_or _ hw hi]
          unfold bit
          have hd : decide (j % 4096 = w * 64 + i) =
              decide (j = blockId * 4096 + (w * 64 + i)) := decide_eq_decide.mpr (by omega)
          rw [hbits, hjd, hd]
        · have hne : j ≠ blockId * 4096 + (w * 64 + i) := by omega
          simp [if_neg hjd, hne]
      · intro j hj
        apply Function.update_of_ne
        unfold Outside at hj
        omega

/-- `alloc` returns the lowest clear bit and sets it, or finds every bit set and changes
nothing. -/
theorem alloc_spec (bm : Bitmap) (d : Disk) : bm.alloc.wp (AllocPost bm d) d :=
  allocFrom_spec bm d bm.blocks 0 (Nat.zero_add _) (by simp)

/-- `dealloc` of a set bit clears it and changes no other bit and no other block. -/
theorem dealloc_spec (bm : Bitmap) (d : Disk) {k : Nat} (hset : bm.bit d k = true) :
    (bm.dealloc k).wp (fun _ d' => (∀ j, bm.bit d' j = (bm.bit d j && decide (j ≠ k))) ∧
      ∀ i, i ≠ bm.startBlockId + k / blockBits → d' i = d i) d := by
  have hbits := blockBits_eq
  have hw : k % 4096 / 64 < 64 := by omega
  have hi : k % 4096 % 64 < 64 := by omega
  have hset' : (u64At (d (bm.startBlockId + k / 4096)) (k % 4096 / 64)).testBit
      (k % 4096 % 64) = true := hset
  simp only [dealloc, decomposition, hbits, wp_withModify, wp_bind, wp_assert, wp_pure,
    and_shiftLeft_pos_iff]
  refine ⟨hset', ?_, ?_⟩
  · intro j
    rw [bit_update, hbits]
    by_cases hjd : j / 4096 = k / 4096
    · rw [if_pos hjd, blockBit_setU64_sub _ hw hi hset']
      unfold bit
      have hd : decide (j % 4096 ≠ k % 4096 / 64 * 64 + k % 4096 % 64) = decide (j ≠ k) :=
        decide_eq_decide.mpr (by omega)
      rw [hbits, hjd, hd]
    · have hne : j ≠ k := by
        rintro rfl
        exact hjd rfl
      simp [if_neg hjd, hne]
  · intro i hne
    exact Function.update_of_ne hne _ _

/-- `dealloc` of a clear bit panics. -/
theorem dealloc_clear (bm : Bitmap) (d : Disk) {k : Nat} (hclear : bm.bit d k = false) :
    (bm.dealloc k).exec d = none := by
  cases he : (bm.dealloc k).exec d with
  | none => rfl
  | some r =>
    exfalso
    have hwp : (bm.dealloc k).wp (fun _ _ => True) d := ⟨r.1, r.2, he, trivial⟩
    simp only [dealloc, decomposition, wp_withModify, wp_bind, wp_assert,
      and_shiftLeft_pos_iff] at hwp
    have hbit : bm.bit d k = true := hwp.1
    rw [hclear] at hbit
    exact Bool.false_ne_true hbit

end Bitmap

end RCore.EasyFs
