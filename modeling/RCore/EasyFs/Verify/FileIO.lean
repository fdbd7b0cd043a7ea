import RCore.EasyFs.Verify.BlockTree

/-!
# Reading and writing a file

`fileByte d di i` is byte `i` of the file of `di`. `read_at` returns a slice of these bytes
(`readAt_spec`); `write_at` replaces a slice of them, in data blocks of the file only
(`writeAt_spec`).
-/

namespace RCore.EasyFs

open RCore Prog

/-! ## Buffers -/

namespace DiskInode

theorem bufSplice_append (buf s t : List UInt8) {off : Nat} (h : off + s.length ≤ buf.length) :
    bufSplice (bufSplice buf off s) (off + s.length) t = bufSplice buf off (s ++ t) := by
  have hlen : (buf.take off ++ s).length = off + s.length := by
    simp only [List.length_append, List.length_take]
    omega
  unfold bufSplice
  rw [← hlen, List.take_left, hlen, List.length_append]
  have hdrop : (buf.take off ++ s ++ buf.drop (off + s.length)).drop (off + s.length + t.length) =
      buf.drop (off + (s.length + t.length)) := by
    rw [← List.drop_drop, ← hlen, List.drop_left, hlen, List.drop_drop]
    congr 1
    omega
  rw [hdrop]
  simp only [List.append_assoc]

theorem bufSplice_zero (buf s : List UInt8) : bufSplice buf 0 s = s ++ buf.drop s.length := by
  simp [bufSplice]

/-! ## File bytes -/

/-- Byte `i` of the file of `di`. -/
def fileByte (d : Disk) (di : DiskInode) (i : Nat) : UInt8 :=
  (d (ptr d di (dataPos (i / 512))).toNat).byte (i % 512)

theorem ptr_toNat_ne {d : Disk} {di : DiskInode} {n p q : Nat} (hT : (blockList d di n).Nodup)
    (hp : p < totalBlocksFor n) (hq : q < totalBlocksFor n) (hne : p ≠ q) :
    (ptr d di p).toNat ≠ (ptr d di q).toNat := by
  have h := getD_toNat_ne hT (p := p) (q := q) (by rw [blockList_length]; exact hp)
    (by rw [blockList_length]; exact hq) hne
  rwa [blockList_getD d di hp, blockList_getD d di hq] at h

/-- A tree is found through its index blocks: a disk that agrees on them has the same pointers. -/
theorem ptr_of_index {d d' : Disk} {di : DiskInode} {n : Nat}
    (h : ∀ q, q < totalBlocksFor n → IndexPos q → d' (ptr d di q).toNat = d (ptr d di q).toNat)
    {p : Nat} (hp : p < totalBlocksFor n) : ptr d' di p = ptr d di p :=
  ptr_congr (fun _ => rfl) (fun _ => rfl) (fun _ => rfl)
    fun q hq hqi => h q (Nat.lt_trans hq hp) hqi

theorem blockList_of_index {d d' : Disk} {di : DiskInode} {n : Nat}
    (h : ∀ q, q < totalBlocksFor n → IndexPos q → d' (ptr d di q).toNat = d (ptr d di q).toNat) :
    blockList d' di n = blockList d di n := by
  unfold blockList
  apply List.map_congr_left
  intro p hp
  exact ptr_of_index h (List.mem_range.mp hp)

/-- Writing to a data block leaves the tree as it is. -/
theorem ptr_update_data {d : Disk} {di : DiskInode} {n k : Nat} (hT : (blockList d di n).Nodup)
    (hk : k < n) (b : Block) : ∀ q, q < totalBlocksFor n → IndexPos q →
      (Function.update d (ptr d di (dataPos k)).toNat b) (ptr d di q).toNat =
        d (ptr d di q).toNat := by
  intro q hq hqi
  apply Function.update_of_ne
  apply ptr_toNat_ne hT hq (dataPos_lt hk)
  rintro rfl
  exact dataPos_not_index k hqi

/-! ## Reading -/

theorem slice_fileByte (d : Disk) (di : DiskInode) {pos len : Nat} (h : pos % 512 + len ≤ 512) :
    (d (ptr d di (dataPos (pos / 512))).toNat).slice (pos % 512) len =
      (List.range len).map fun k => fileByte d di (pos + k) := by
  unfold Bytes.slice fileByte
  apply List.map_congr_left
  intro k hk
  have hk' : k < len := List.mem_range.mp hk
  have hdiv : (pos + k) / 512 = pos / 512 := by omega
  have hmod : (pos + k) % 512 = pos % 512 + k := by omega
  rw [hdiv, hmod]

theorem readLoop_spec (d : Disk) (di : DiskInode) {last : Nat} (hlast : last ≤ 16540 * 512)
    (n : Nat) : ∀ (pos readSize : Nat) (buf : List UInt8), pos < last →
      last / 512 - pos / 512 + 1 ≤ n → readSize + (last - pos) ≤ buf.length →
      (readLoop di last n pos readSize buf).wp (fun r d' =>
        d' = d ∧ r.1 = readSize + (last - pos) ∧
        r.2 = bufSplice buf readSize
          ((List.range (last - pos)).map fun k => fileByte d di (pos + k))) d := by
  induction n with
  | zero =>
    intro pos readSize buf _ hn _
    omega
  | succ n ih =>
    intro pos readSize buf hpos hn hbuf
    simp only [readLoop, blockSz, wp_bind]
    refine wp_mono (getBlockId_spec d di (by show pos / 512 < 16540; omega)) ?_
    rintro b d' ⟨rfl, rfl⟩
    simp only [wp_withRead, wp_pure]
    rw [slice_fileByte d' di (by omega)]
    by_cases hend : min ((pos / 512 + 1) * 512) last = last
    · rw [if_pos hend, wp_pure, hend]
      exact ⟨rfl, rfl, rfl⟩
    · rw [if_neg hend]
      have hmin : min ((pos / 512 + 1) * 512) last = (pos / 512 + 1) * 512 := by omega
      rw [hmin]
      have hlen : ((List.range ((pos / 512 + 1) * 512 - pos)).map
          fun k => fileByte d' di (pos + k)).length = (pos / 512 + 1) * 512 - pos := by simp
      refine wp_mono (ih ((pos / 512 + 1) * 512) _ _ (by omega) (by omega) ?_) ?_
      · simp only [bufSplice, List.length_append, List.length_take, List.length_drop, hlen]
        omega
      · rintro r e ⟨rfl, hr1, hr2⟩
        refine ⟨rfl, by omega, ?_⟩
        have happ := bufSplice_append buf
          ((List.range ((pos / 512 + 1) * 512 - pos)).map fun k => fileByte e di (pos + k))
          ((List.range (last - (pos / 512 + 1) * 512)).map
            fun k => fileByte e di ((pos / 512 + 1) * 512 + k)) (show readSize + _ ≤ _ by omega)
        rw [hlen] at happ
        rw [hr2, happ]
        congr 1
        rw [show last - pos = ((pos / 512 + 1) * 512 - pos) + (last - (pos / 512 + 1) * 512) by omega,
          List.range_add, List.map_append, List.map_map]
        congr 1
        apply List.map_congr_left
        intro k _
        show _ = fileByte e di (pos + ((pos / 512 + 1) * 512 - pos + k))
        congr 1
        omega

/-- `read_at` returns the bytes of the file between `offset` and the end of the buffer or of the
file, and leaves the rest of the buffer as it was. A slice has less than `2 ^ 63` bytes, so an end
that wraps around belongs to an offset far past every file. -/
theorem readAt_spec (d : Disk) (di : DiskInode) (hsize : di.size.toNat ≤ 16540 * 512)
    {offset : Nat} (hoff : offset < 2 ^ 64) (buf : List UInt8) (hbuf : buf.length < 2 ^ 63) :
    (di.readAt offset buf).wp (fun r d' =>
      d' = d ∧ r.1 = min (offset + buf.length) di.size.toNat - offset ∧
      r.2 = ((List.range (min (offset + buf.length) di.size.toNat - offset)).map fun k =>
          fileByte d di (offset + k)) ++
        buf.drop (min (offset + buf.length) di.size.toNat - offset)) d := by
  unfold readAt
  by_cases hwrap : offset + buf.length < 2 ^ 64
  · rw [Nat.mod_eq_of_lt hwrap]
    simp only
    by_cases hge : offset ≥ min (offset + buf.length) di.size.toNat
    · have hz : min (offset + buf.length) di.size.toNat - offset = 0 := by omega
      simp [hge, hz]
    · rw [if_neg hge]
      refine wp_mono (readLoop_spec d di (by omega) _ offset 0 buf (by omega) (le_refl _)
        (by omega)) ?_
      rintro r d' ⟨rfl, h1, h2⟩
      refine ⟨rfl, by omega, ?_⟩
      rw [h2, bufSplice_zero]
      simp
  · have hlt : (offset + buf.length) % 2 ^ 64 ≤ offset := by
      rw [Nat.mod_eq_sub_mod (by omega), Nat.mod_eq_of_lt (by omega)]
      omega
    have hz : min (offset + buf.length) di.size.toNat - offset = 0 := by omega
    have hge : offset ≥ min ((offset + buf.length) % 2 ^ 64) di.size.toNat := by omega
    simp only [if_pos hge, wp_pure, hz]
    simp

/-! ## Writing -/

/-- What a write of `src` at `start` does to the file of `di` with `n` data blocks. -/
structure Written (d : Disk) (di : DiskInode) (n start : Nat) (src : List UInt8) (d' : Disk) :
    Prop where
  blocks : blockList d' di n = blockList d di n
  bytes : ∀ i, i < n * 512 → fileByte d' di i =
    if start ≤ i ∧ i < start + src.length then src.getD (i - start) 0 else fileByte d di i
  frame : ∀ b, (∀ k, k < n → (ptr d di (dataPos k)).toNat ≠ b) → d' b = d b

theorem ptr_eq_of_blockList {d d' : Disk} {di : DiskInode} {n p : Nat}
    (h : blockList d' di n = blockList d di n) (hp : p < totalBlocksFor n) :
    ptr d' di p = ptr d di p := by
  rw [← blockList_getD d' di hp, h, blockList_getD d di hp]

/-- One data block of a write. -/
theorem Written.one {d : Disk} {di : DiskInode} {n start : Nat} {src : List UInt8}
    (hT : (blockList d di n).Nodup) (hk : start / 512 < n) (hsrc : start % 512 + src.length ≤ 512) :
    Written d di n start src
      (Function.update d (ptr d di (dataPos (start / 512))).toNat
        ((d (ptr d di (dataPos (start / 512))).toNat).splice (start % 512) src)) := by
  have hidx := ptr_update_data hT hk
    ((d (ptr d di (dataPos (start / 512))).toNat).splice (start % 512) src)
  refine ⟨blockList_of_index hidx, ?_, ?_⟩
  · intro i hi
    unfold fileByte
    rw [ptr_of_index hidx (dataPos_lt (by omega))]
    by_cases hb : i / 512 = start / 512
    · rw [hb, Function.update_self, Bytes.byte_splice]
      have hin : i % 512 < blockSz := Nat.mod_lt i (by decide)
      by_cases hr : start ≤ i ∧ i < start + src.length
      · rw [if_pos hr, if_pos (by omega)]
        congr 1
        omega
      · rw [if_neg hr, if_neg (by omega)]
    · have hne : (ptr d di (dataPos (i / 512))).toNat ≠
          (ptr d di (dataPos (start / 512))).toNat :=
        ptr_toNat_ne hT (dataPos_lt (by omega)) (dataPos_lt hk) fun h => hb (dataPos_inj h)
      rw [Function.update_of_ne hne, if_neg (by omega)]
  · intro b hb
    exact Function.update_of_ne (hb _ hk).symm _ _

/-- Two writes, the second starting where the first ends, are one write. -/
theorem Written.append {d e f : Disk} {di : DiskInode} {n start : Nat} {s t : List UInt8}
    (h : Written d di n start s e) (h' : Written e di n (start + s.length) t f) :
    Written d di n start (s ++ t) f := by
  refine ⟨h'.blocks.trans h.blocks, ?_, ?_⟩
  · intro i hi
    rw [h'.bytes i hi, h.bytes i hi, List.length_append]
    by_cases h1 : start + s.length ≤ i
    · rw [List.getD_append_right _ _ _ _ (by omega)]
      by_cases h2 : i < start + s.length + t.length
      · rw [if_pos ⟨h1, h2⟩, if_pos (by omega)]
        congr 1
        omega
      · rw [if_neg (by omega), if_neg (by omega), if_neg (by omega)]
    · rw [if_neg (by omega)]
      by_cases h2 : start ≤ i
      · rw [if_pos (by omega), if_pos (by omega), List.getD_append _ _ _ _ (by omega)]
      · rw [if_neg (by omega), if_neg (by omega)]
  · intro b hb
    rw [h'.frame b, h.frame b hb]
    intro k hk
    rw [ptr_eq_of_blockList h.blocks (dataPos_lt hk)]
    exact hb k hk

theorem writeLoop_spec (di : DiskInode) {last n : Nat} (hn : n ≤ 16540) (hlast : last ≤ n * 512)
    (buf : List UInt8) (fuel : Nat) : ∀ (start writeSize : Nat) (d : Disk),
      (blockList d di n).Nodup → start < last → last / 512 - start / 512 + 1 ≤ fuel →
      writeSize + (last - start) = buf.length →
      (writeLoop di last buf fuel start writeSize).wp (fun r d' =>
        r = buf.length ∧ Written d di n start (buf.drop writeSize) d') d := by
  induction fuel with
  | zero =>
    intro start writeSize d _ _ hf _
    omega
  | succ fuel ih =>
    intro start writeSize d hT hstart hf hbuf
    simp only [writeLoop, blockSz, wp_bind]
    refine wp_mono (getBlockId_spec d di (by show start / 512 < 16540; omega)) ?_
    rintro b d' ⟨rfl, rfl⟩
    simp only [wp_withModify, wp_pure]
    have hlen : ((buf.drop writeSize).take (min ((start / 512 + 1) * 512) last - start)).length =
        min ((start / 512 + 1) * 512) last - start := by
      simp only [List.length_take, List.length_drop]
      omega
    have hone := Written.one hT (by omega : start / 512 < n)
      (show start % 512 + ((buf.drop writeSize).take
        (min ((start / 512 + 1) * 512) last - start)).length ≤ 512 by rw [hlen]; omega)
    by_cases hend : min ((start / 512 + 1) * 512) last = last
    · rw [if_pos hend, wp_pure]
      refine ⟨by omega, ?_⟩
      rw [hend] at hone ⊢
      rw [List.take_of_length_le (by simp only [List.length_drop]; omega)] at hone ⊢
      exact hone
    · rw [if_neg hend]
      have hmin : min ((start / 512 + 1) * 512) last = (start / 512 + 1) * 512 := by omega
      rw [hmin] at hone hlen ⊢
      refine wp_mono (ih ((start / 512 + 1) * 512) _ _ (by rw [hone.blocks]; exact hT) (by omega)
        (by omega) (by omega)) ?_
      rintro r e ⟨hr, hw⟩
      refine ⟨hr, ?_⟩
      have hsum : start + ((start / 512 + 1) * 512 - start) = (start / 512 + 1) * 512 := by omega
      rw [← hsum, ← hlen, hlen] at hw
      have happ := hone.append (by rw [hlen, hsum]; rw [hsum] at hw; exact hw)
      rw [← List.drop_drop, List.take_append_drop] at happ
      exact happ

/-- `write_at` inside the file replaces the bytes from `offset` on by the buffer. -/
theorem writeAt_spec {d : Disk} {di : DiskInode} {n offset : Nat} {buf : List UInt8}
    (hn : n ≤ 16540) (hsize : di.size.toNat ≤ n * 512) (hT : (blockList d di n).Nodup)
    (hend : offset + buf.length ≤ di.size.toNat) (hbuf : buf ≠ []) :
    (di.writeAt offset buf).wp (fun r d' =>
      r = buf.length ∧ Written d di n offset buf d') d := by
  have hpos : 0 < buf.length := List.length_pos_of_ne_nil hbuf
  have hmod : (offset + buf.length) % 2 ^ 64 = offset + buf.length := Nat.mod_eq_of_lt (by omega)
  have hmin : min (offset + buf.length) di.size.toNat = offset + buf.length := by omega
  simp only [writeAt, hmod, hmin, wp_bind, wp_assert]
  refine ⟨by omega, ?_⟩
  have h := writeLoop_spec di hn (by omega : offset + buf.length ≤ n * 512) buf
    ((offset + buf.length) / blockSz - offset / blockSz + 1) offset 0 d hT (by omega) (le_refl _)
    (by omega)
  simpa only [List.drop_zero] using h

end DiskInode

end RCore.EasyFs
