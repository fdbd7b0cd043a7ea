import RCore.EasyFs.Verify.FileIO
import RCore.EasyFs.Verify.Owned

/-!
# Files as byte lists

`FileRep d di c bs` says that the inode `di` on the disk `d` holds the bytes `c` in the blocks `bs`,
with zeros behind the last byte. Growing appends zeros (`FileRep.increaseSize`), writing splices
(`FileRep.writeAt`), and clearing gives the blocks back (`FileRep.clear`).
-/

namespace RCore.EasyFs

open RCore Prog DiskInode

/-- The number of data blocks of a file of `len` bytes. -/
def fileBlocks (len : Nat) : Nat := (len + 511) / 512

/-- The inode `di` holds the bytes `c` in the blocks `bs`. -/
structure FileRep (d : Disk) (di : DiskInode) (c : List UInt8) (bs : List UInt32) : Prop where
  size : di.size.toNat = c.length
  bound : c.length ≤ 16540 * 512
  blocks : blockList d di (fileBlocks c.length) = bs
  bytes : ∀ i, i < fileBlocks c.length * 512 → fileByte d di i = c.getD i 0

/-- `_data_blocks` rounds up, as long as its sum does not wrap. -/
theorem dataBlocksOf_toNat_of_le {size : UInt32} (h : size.toNat ≤ 2 ^ 32 - 512) :
    (dataBlocksOf size).toNat = fileBlocks size.toNat := by
  have h512 : (512 : UInt32).toNat = 512 := rfl
  unfold dataBlocksOf fileBlocks
  rw [UInt32.toNat_div, UInt32.toNat_sub, UInt32.toNat_add, h512, UInt32.toNat_one]
  omega

theorem dataBlocksOf_toNat {size : UInt32} (h : size.toNat ≤ 16540 * 512) :
    (dataBlocksOf size).toNat = fileBlocks size.toNat :=
  dataBlocksOf_toNat_of_le (by omega)

theorem fileBlocks_mono {m n : Nat} (h : m ≤ n) : fileBlocks m ≤ fileBlocks n := by
  unfold fileBlocks
  omega

theorem toNat_totalBlocks_of_le {size : UInt32} (h : size.toNat ≤ 2 ^ 32 - 512) :
    (totalBlocks size).toNat = totalBlocksFor (fileBlocks size.toNat) := by
  unfold totalBlocks
  rw [dataBlocksOf_toNat_of_le h, UInt32.toNat_ofNat']
  apply Nat.mod_eq_of_lt
  rw [totalBlocksFor_eq]
  unfold fileBlocks
  split_ifs <;> omega

theorem toNat_totalBlocks {size : UInt32} (h : size.toNat ≤ 16540 * 512) :
    (totalBlocks size).toNat = totalBlocksFor (fileBlocks size.toNat) :=
  toNat_totalBlocks_of_le (by omega)

namespace FileRep

variable {d d' : Disk} {di di' : DiskInode} {c : List UInt8} {bs : List UInt32}

theorem dataBlocks_eq (h : FileRep d di c bs) : di.dataBlocks.toNat = fileBlocks c.length := by
  rw [← h.size]
  exact dataBlocksOf_toNat (by rw [h.size]; exact h.bound)

theorem length (h : FileRep d di c bs) : bs.length = totalBlocksFor (fileBlocks c.length) := by
  rw [← h.blocks, blockList_length]

theorem mem_blocks (h : FileRep d di c bs) {p : Nat} (hp : p < totalBlocksFor (fileBlocks c.length)) :
    ptr d di p ∈ bs := by
  rw [← h.blocks]
  exact List.mem_map.mpr ⟨p, List.mem_range.mpr hp, rfl⟩

/-- A file depends on its own blocks and on the size and the pointers of its inode. -/
theorem congr (h : FileRep d di c bs) (hd : ∀ b ∈ bs, d' b.toNat = d b.toNat)
    (hsize : di'.size = di.size) (hdir : di'.direct = di.direct)
    (h1 : di'.indirect1 = di.indirect1) (h2 : di'.indirect2 = di.indirect2) :
    FileRep d' di' c bs := by
  have hptr : ∀ p, p < totalBlocksFor (fileBlocks c.length) → ptr d' di' p = ptr d di p := by
    intro p hp
    refine ptr_congr (fun _ => hdir) (fun _ => h1) (fun _ => h2) fun q hq _ => ?_
    exact hd _ (h.mem_blocks (Nat.lt_trans hq hp))
  refine ⟨by rw [hsize]; exact h.size, h.bound, ?_, ?_⟩
  · rw [← h.blocks]
    unfold blockList
    apply List.map_congr_left
    intro p hp
    exact hptr p (List.mem_range.mp hp)
  · intro i hi
    rw [← h.bytes i hi]
    have hp := dataPos_lt (show i / 512 < fileBlocks c.length by omega)
    unfold fileByte
    rw [hptr _ hp, hd _ (h.mem_blocks hp)]

/-- The empty file. -/
theorem empty (hsize : di.size = 0) : FileRep d di [] [] :=
  ⟨by rw [hsize]; rfl, by simp, rfl, fun i hi => absurd hi (Nat.not_lt_zero i)⟩

/-! ## Growing -/

/-- `c` with zeros appended up to `n` bytes. -/
def padTo (c : List UInt8) (n : Nat) : List UInt8 := c ++ List.replicate (n - c.length) 0

@[simp] theorem padTo_length (c : List UInt8) (n : Nat) : (padTo c n).length = max c.length n := by
  simp only [padTo, List.length_append, List.length_replicate]
  omega

theorem padTo_of_le {c : List UInt8} {n : Nat} (h : n ≤ c.length) : padTo c n = c := by
  simp [padTo, Nat.sub_eq_zero_of_le h]

theorem padTo_getD (c : List UInt8) (n i : Nat) : (padTo c n).getD i 0 = c.getD i 0 := by
  unfold padTo
  by_cases h : i < c.length
  · rw [List.getD_append _ _ _ _ h]
  · rw [List.getD_append_right _ _ _ _ (by omega), List.getD_eq_default c 0 (by omega)]
    by_cases h' : i - c.length < n - c.length
    · simp [h']
    · exact List.getD_eq_default _ _ (by simpa using h')

/-- The disk changes only in the data bitmap and in the blocks `bs`. -/
def FrameOf (g : Geometry) (bs : List UInt32) (d d' : Disk) : Prop :=
  ∀ x, g.toEfs.dataBitmap.Outside x → (∀ b ∈ bs, b.toNat ≠ x) → d' x = d x

/-- The number of blocks a file of `c` bytes has to get to grow to `n` bytes. -/
def blocksFor (c n : Nat) : Nat :=
  totalBlocksFor (fileBlocks (max c n)) - totalBlocksFor (fileBlocks c)

/-- The bytes of a grown tree: those of the file, and zeros in the new blocks. -/
theorem grown_byte (h : FileRep d di c bs) {v : List UInt32} {n : Nat}
    (hbl : blockList d' di' n = bs ++ v) (hoff : SameOff (bs ++ v) IndexPos d d')
    (hnd : (bs ++ v).Nodup) (hz : ∀ b ∈ v, d b.toNat = Bytes.zero blockSz) {i : Nat}
    (hi : i / 512 < n) : fileByte d' di' i = c.getD i 0 := by
  have hp := dataPos_lt hi
  have hlen : (bs ++ v).length = totalBlocksFor n := by rw [← hbl, blockList_length]
  have hplen : dataPos (i / 512) < (bs ++ v).length := by rw [hlen]; exact hp
  have hptr : ptr d' di' (dataPos (i / 512)) = (bs ++ v).getD (dataPos (i / 512)) 0 := by
    rw [← hbl, blockList_getD d' di' hp]
  -- a data block is no index block, so growing has not written to it
  have hdata : d' ((bs ++ v).getD (dataPos (i / 512)) 0).toNat =
      d ((bs ++ v).getD (dataPos (i / 512)) 0).toNat := by
    apply hoff
    intro q hq hqi
    refine getD_toNat_ne hnd hq hplen fun heq => ?_
    exact dataPos_not_index _ (heq ▸ hqi)
  unfold fileByte
  rw [hptr, hdata]
  by_cases hk : i / 512 < fileBlocks c.length
  · have hpb : dataPos (i / 512) < bs.length := by rw [h.length]; exact dataPos_lt hk
    rw [List.getD_append _ _ _ _ hpb, ← h.bytes i (by omega)]
    unfold fileByte
    rw [← blockList_getD d di (dataPos_lt hk), h.blocks]
  · have hpb : bs.length ≤ dataPos (i / 512) := by
      rw [h.length]
      exact le_dataPos (by omega)
    have hmem : (bs ++ v).getD (dataPos (i / 512)) 0 ∈ v := by
      rw [List.getD_append_right _ _ _ _ hpb,
        List.getD_eq_getElem _ _ (by rw [List.length_append] at hplen; omega)]
      exact List.getElem_mem _
    rw [hz _ hmem, Bytes.byte_zero, List.getD_eq_default]
    unfold fileBlocks at hk
    omega

variable {g : Geometry} {rest : List UInt32}

/-- The number of blocks that `blocks_num_needed` computes. -/
theorem blocksNumNeeded (h : FileRep d di c bs) {newSize : UInt32} (hmax : newSize.toNat ≤ 2 ^ 32 - 512)
    (hge : c.length ≤ newSize.toNat) : ∃ k : UInt32, (di.blocksNumNeeded newSize).exec d = some (k, d) ∧
      k.toNat = totalBlocksFor (fileBlocks newSize.toNat) - totalBlocksFor (fileBlocks c.length) := by
  have hsize : di.size.toNat ≤ 16540 * 512 := by rw [h.size]; exact h.bound
  have hmono := totalBlocksFor_mono (fileBlocks_mono hge)
  have hneeded : (totalBlocks newSize - totalBlocks di.size).toNat =
      totalBlocksFor (fileBlocks newSize.toNat) - totalBlocksFor (fileBlocks c.length) := by
    rw [UInt32.toNat_sub_of_le _ _ (UInt32.le_iff_toNat_le.mpr (by
      rw [toNat_totalBlocks_of_le hmax, toNat_totalBlocks hsize, h.size]; exact hmono)),
      toNat_totalBlocks_of_le hmax, toNat_totalBlocks hsize, h.size]
  refine ⟨_, wp_eq_iff.mp ?_, hneeded⟩
  simp only [DiskInode.blocksNumNeeded, wp_bind, wp_assert, wp_pure]
  exact ⟨by rw [ge_iff_le, UInt32.le_iff_toNat_le, h.size]; exact hge, trivial, trivial⟩

/-- The blocks that the file needs to grow have been allocated; the file is as it was. -/
theorem allocBlocks (hg : g.Sound) (h : FileRep d di c bs) (ho : Owned g (bs ++ rest) d) {n : Nat}
    (hge : c.length ≤ n) (hspace : (bs ++ rest).length + blocksFor c.length n ≤ g.capacity) :
    (Inode.allocBlocks g.toEfs (totalBlocksFor (fileBlocks n) - totalBlocksFor (fileBlocks c.length))).wp
      (fun v d' => v.length = totalBlocksFor (fileBlocks n) - totalBlocksFor (fileBlocks c.length) ∧
        FileRep d' di c bs ∧ Owned g (bs ++ v ++ rest) d' ∧ (∀ b ∈ v, d' b.toNat = Bytes.zero blockSz) ∧
        ∀ x, g.toEfs.dataBitmap.Outside x → d' x = d x) d := by
  rw [blocksFor, Nat.max_eq_right hge] at hspace
  refine wp_mono (Owned.allocBlocks hg _ (bs ++ rest) d ho hspace) ?_
  rintro v d1 ⟨hlen, ho1, hz, hf1⟩
  have hbsout : ∀ b ∈ bs, g.toEfs.dataBitmap.Outside b.toNat := fun b hb =>
    Geometry.outside_of_dataStart_le hg (ho.inArea b (List.mem_append_left _ hb)).1
  have hperm : (bs ++ rest ++ v).Perm (bs ++ v ++ rest) := by
    rw [List.append_assoc, List.append_assoc]
    exact List.perm_append_comm.append_left bs
  exact ⟨hlen, h.congr (fun b hb => hf1 _ (hbsout b hb)) rfl rfl rfl rfl, ho1.perm hperm, hz, hf1⟩

theorem increaseSize (hg : g.Sound) (h : FileRep d di c bs) (ho : Owned g (bs ++ rest) d)
    {newSize : UInt32} (hmax : newSize.toNat ≤ 16540 * 512)
    (hspace : (bs ++ rest).length + blocksFor c.length newSize.toNat ≤ g.capacity) :
    (Inode.increaseSize g.toEfs newSize di).wp (fun di' d' => ∃ v,
      FileRep d' di' (padTo c newSize.toNat) (bs ++ v) ∧ Owned g (bs ++ v ++ rest) d' ∧
        SameMeta di di' ∧ FrameOf g (bs ++ v) d d') d := by
  unfold Inode.increaseSize
  by_cases hlt : newSize < di.size
  · -- nothing to do
    have hlt' := UInt32.lt_iff_toNat_lt.mp hlt
    rw [h.size] at hlt'
    rw [if_pos hlt, wp_pure]
    refine ⟨[], ?_, ?_, ⟨rfl, rfl, rfl⟩, fun x _ _ => rfl⟩
    · rw [List.append_nil, padTo_of_le (Nat.le_of_lt hlt')]
      exact h
    · rw [List.append_nil]
      exact ho
  · have hge : c.length ≤ newSize.toNat := by
      rw [UInt32.lt_iff_toNat_lt, h.size] at hlt
      omega
    obtain ⟨k, hk, hneeded⟩ := h.blocksNumNeeded (show newSize.toNat ≤ 2 ^ 32 - 512 by omega) hge
    rw [if_neg hlt, wp_bind_of_exec hk, hneeded]
    simp only [wp_bind]
    refine wp_mono (h.allocBlocks hg ho hge hspace) ?_
    rintro v d1 ⟨hlen, h1, ho1', hz, hf1⟩
    have hnd : (blockList d1 di (fileBlocks c.length) ++ v).Nodup := by
      rw [h1.blocks]
      exact (List.nodup_append.mp ho1'.nodup).1
    have hgrow := increaseSize_spec h.dataBlocks_eq (dataBlocksOf_toNat hmax) (fileBlocks_mono hge)
      (by unfold fileBlocks; omega) hlen hnd
    refine wp_mono hgrow ?_
    rintro di' d2 ⟨hbl, hsize', hmeta, hoff⟩
    rw [h1.blocks] at hbl hoff
    have hframe : ∀ x, (∀ b ∈ bs ++ v, b.toNat ≠ x) → d2 x = d1 x := by
      intro x hx
      apply hoff
      intro p hp _
      rw [List.getD_eq_getElem _ _ hp]
      exact hx _ (List.getElem_mem hp)
    have hlen' : (padTo c newSize.toNat).length = newSize.toNat := by
      rw [padTo_length]
      omega
    refine ⟨v, ⟨by rw [hsize', hlen'], by rw [hlen']; exact hmax, by rw [hlen']; exact hbl, ?_⟩, ?_,
      hmeta, ?_⟩
    · intro i hi
      rw [hlen'] at hi
      rw [padTo_getD]
      exact grown_byte h1 hbl hoff (List.nodup_append.mp ho1'.nodup).1 hz (by omega)
    · apply ho1'.congr hg
      intro x _ hx
      exact hframe x fun b hb => hx b (List.mem_append_left _ hb)
    · intro x hx hne
      rw [hframe x hne, hf1 x hx]

/-! ## Reading and writing -/

theorem bufSplice_length {c buf : List UInt8} {off : Nat} (h : off + buf.length ≤ c.length) :
    (bufSplice c off buf).length = c.length := by
  simp only [bufSplice, List.length_append, List.length_take, List.length_drop]
  omega

theorem bufSplice_getD {c buf : List UInt8} {off : Nat} (h : off + buf.length ≤ c.length) (i : Nat) :
    (bufSplice c off buf).getD i 0 =
      if off ≤ i ∧ i < off + buf.length then buf.getD (i - off) 0 else c.getD i 0 := by
  have hlen : (c.take off).length = off := by
    rw [List.length_take]
    omega
  unfold bufSplice
  rw [List.append_assoc]
  by_cases h1 : i < off
  · rw [if_neg (by omega), List.getD_append _ _ _ _ (by omega)]
    simp [List.getD_eq_getElem?_getD, h1]
  · rw [List.getD_append_right _ _ _ _ (by omega), hlen]
    by_cases h2 : i < off + buf.length
    · rw [if_pos (by omega), List.getD_append _ _ _ _ (by omega)]
    · rw [if_neg (by omega), List.getD_append_right _ _ _ _ (by omega)]
      simp only [List.getD_eq_getElem?_getD, List.getElem?_drop]
      rw [show off + buf.length + (i - off - buf.length) = i by omega]

theorem writeAt (h : FileRep d di c bs) (hnd : bs.Nodup) {off : Nat} {buf : List UInt8}
    (hend : off + buf.length ≤ c.length) (hbuf : buf ≠ []) :
    (di.writeAt off buf).wp (fun n d' => n = buf.length ∧ FileRep d' di (bufSplice c off buf) bs ∧
      ∀ x, (∀ b ∈ bs, b.toNat ≠ x) → d' x = d x) d := by
  have hsz := h.size
  have hbound := h.bound
  have hlen := bufSplice_length hend
  have hn : fileBlocks c.length ≤ 16540 := by
    unfold fileBlocks
    omega
  have hfit : di.size.toNat ≤ fileBlocks c.length * 512 := by
    unfold fileBlocks
    omega
  have hw := DiskInode.writeAt_spec hn hfit (by rw [h.blocks]; exact hnd)
    (show off + buf.length ≤ di.size.toNat by omega) hbuf
  refine wp_mono hw ?_
  rintro n d' ⟨rfl, hwr⟩
  refine ⟨rfl, ⟨by rw [hlen]; exact h.size, by omega, ?_, ?_⟩, ?_⟩
  · rw [hlen, hwr.blocks, h.blocks]
  · intro i hi
    rw [hlen] at hi
    rw [hwr.bytes i hi, bufSplice_getD hend, h.bytes i hi]
  · intro x hx
    apply hwr.frame
    intro k hk
    exact hx _ (h.mem_blocks (dataPos_lt hk))

/-- What a write of `buf` at `off` makes of a file with the bytes `c`. -/
def writeContent (c : List UInt8) (off : Nat) (buf : List UInt8) : List UInt8 :=
  bufSplice (padTo c (off + buf.length)) off buf

theorem writeContent_length (c : List UInt8) (off : Nat) (buf : List UInt8) :
    (writeContent c off buf).length = max c.length (off + buf.length) := by
  rw [writeContent, bufSplice_length (by rw [padTo_length]; omega), padTo_length]

theorem writeContent_getD (c : List UInt8) (off : Nat) (buf : List UInt8) (i : Nat) :
    (writeContent c off buf).getD i 0 =
      if off ≤ i ∧ i < off + buf.length then buf.getD (i - off) 0 else c.getD i 0 := by
  rw [writeContent, bufSplice_getD (by rw [padTo_length]; omega), padTo_getD]

theorem writeContent_nil {c : List UInt8} {off : Nat} (h : off ≤ c.length) : writeContent c off [] = c := by
  rw [writeContent, List.length_nil, Nat.add_zero, padTo_of_le h, bufSplice, List.append_nil, List.length_nil, Nat.add_zero,
    List.take_append_drop]

/-- Two writes, the second where the first ended. -/
theorem writeContent_append (c : List UInt8) (off : Nat) (a b : List UInt8) :
    writeContent (writeContent c off a) (off + a.length) b = writeContent c off (a ++ b) := by
  have hlen : (writeContent (writeContent c off a) (off + a.length) b).length = (writeContent c off (a ++ b)).length := by
    simp only [writeContent_length, List.length_append]
    omega
  refine List.ext_getElem hlen fun i hi hi' => ?_
  rw [← List.getD_eq_getElem _ 0 hi, ← List.getD_eq_getElem _ 0 hi', writeContent_getD, writeContent_getD,
    writeContent_getD, List.length_append]
  by_cases hb : off + a.length ≤ i ∧ i < off + a.length + b.length
  · rw [if_pos hb, if_pos (by omega), List.getD_append_right _ _ _ _ (by omega), Nat.sub_add_eq]
  · rw [if_neg hb]
    by_cases ha : off ≤ i ∧ i < off + a.length
    · rw [if_pos ha, if_pos (by omega), List.getD_append _ _ _ _ (by omega)]
    · rw [if_neg ha, if_neg (by omega)]

theorem growWrite (hg : g.Sound) (h : FileRep d di c bs) (ho : Owned g (bs ++ rest) d) {off : Nat}
    {buf : List UInt8} (hbuf : buf ≠ []) (hmax : off + buf.length ≤ 16540 * 512)
    (hspace : (bs ++ rest).length + blocksFor c.length (off + buf.length) ≤ g.capacity) :
    (do
      let di ← Inode.increaseSize g.toEfs (UInt32.ofNat (off + buf.length)) di
      let n ← di.writeAt off buf
      pure (n, di) : EfsM (Nat × DiskInode)).wp (fun r d' => r.1 = buf.length ∧ ∃ v,
        FileRep d' r.2 (writeContent c off buf) (bs ++ v) ∧ Owned g (bs ++ v ++ rest) d' ∧
          SameMeta di r.2 ∧ FrameOf g (bs ++ v) d d') d := by
  have hval : (UInt32.ofNat (off + buf.length)).toNat = off + buf.length := by
    rw [UInt32.toNat_ofNat']
    omega
  simp only [wp_bind, wp_pure]
  refine wp_mono (h.increaseSize hg ho (by rw [hval]; exact hmax) (by rw [hval]; exact hspace)) ?_
  rintro di1 d1 ⟨v, h1, ho1, hmeta, hf1⟩
  rw [hval] at h1
  refine wp_mono (h1.writeAt (List.nodup_append.mp ho1.nodup).1
    (by rw [padTo_length]; omega) hbuf) ?_
  rintro n d2 ⟨rfl, h2, hf2⟩
  refine ⟨rfl, v, h2, ?_, hmeta, ?_⟩
  · apply ho1.congr hg
    intro x _ hx
    exact hf2 x fun b hb => hx b (List.mem_append_left _ hb)
  · intro x hx hne
    rw [hf2 x hne, hf1 x hx hne]

/-- What reading `len` bytes at `off` returns. -/
def readContent (c : List UInt8) (off len : Nat) : List UInt8 := (c.drop off).take len

theorem readContent_length (c : List UInt8) (off len : Nat) : (readContent c off len).length = min len (c.length - off) := by
  rw [readContent, List.length_take, List.length_drop]

/-- Two reads, the second where the first ended. -/
theorem readContent_append (c : List UInt8) (off m n : Nat) :
    readContent c off (m + n) = readContent c off m ++ readContent c (off + (readContent c off m).length) n := by
  rw [readContent_length]
  unfold readContent
  rw [List.take_add, List.drop_drop]
  congr 2
  by_cases h : m ≤ c.length - off
  · rw [Nat.min_eq_left h]
  · rw [List.drop_eq_nil_of_le (by omega), List.drop_eq_nil_of_le (by omega)]

/-- A read takes its bytes off what is left of the file. -/
theorem drop_eq_readContent (c : List UInt8) (off n : Nat) :
    c.drop off = readContent c off n ++ c.drop (off + (readContent c off n).length) := by
  rw [readContent_length, readContent, ← List.drop_drop]
  by_cases h : n ≤ c.length - off
  · rw [Nat.min_eq_left h, List.take_append_drop]
  · have hnil : (c.drop off).drop (min n (c.length - off)) = [] :=
      List.drop_eq_nil_of_le (by rw [List.length_drop]; omega)
    rw [hnil, List.take_of_length_le (by rw [List.length_drop]; omega), List.append_nil]

theorem readAt (h : FileRep d di c bs) {off : Nat} (hoff : off < 2 ^ 64) {buf : List UInt8}
    (hbuf : buf.length < 2 ^ 63) :
    (di.readAt off buf).wp (fun r d' => d' = d ∧ r.1 = (readContent c off buf.length).length ∧
      r.2 = readContent c off buf.length ++ buf.drop (readContent c off buf.length).length) d := by
  have hlen : (readContent c off buf.length).length = min (off + buf.length) c.length - off := by
    simp only [readContent, List.length_take, List.length_drop]
    omega
  have hbytes : ((List.range (min (off + buf.length) c.length - off)).map fun k =>
      fileByte d di (off + k)) = readContent c off buf.length := by
    apply List.ext_getElem
    · rw [hlen, List.length_map, List.length_range]
    · intro k hk hk'
      rw [List.length_map, List.length_range] at hk
      simp only [List.getElem_map, List.getElem_range, readContent, List.getElem_take,
        List.getElem_drop]
      rw [h.bytes _ (by unfold fileBlocks; omega), List.getD_eq_getElem _ _ (by omega)]
  have hr := DiskInode.readAt_spec d di (by rw [h.size]; exact h.bound) hoff buf hbuf
  rw [h.size, hbytes, ← hlen] at hr
  exact hr

/-! ## Clearing -/

theorem clear (hg : g.Sound) (h : FileRep d di c bs) (ho : Owned g (bs ++ rest) d) :
    (do
      let (v, di') ← di.clearSize
      assert (v.length = (totalBlocks di.size).toNat)
      Inode.deallocBlocks g.toEfs v
      pure ((), di') : EfsM (Unit × DiskInode)).wp (fun r d' =>
        FileRep d' r.2 [] [] ∧ Owned g rest d' ∧ SameMeta di r.2 ∧ FrameOf g bs d d') d := by
  have hbound := h.bound
  have hsize : di.size.toNat ≤ 16540 * 512 := by rw [h.size]; exact hbound
  have hclear := clearSize_spec d h.dataBlocks_eq (by unfold fileBlocks; omega)
  simp only [wp_bind]
  refine wp_mono hclear ?_
  rintro ⟨v, di'⟩ d1 ⟨rfl, hv, hsize', hmeta⟩
  simp only at hv hsize' hmeta
  rw [h.blocks] at hv
  subst hv
  simp only [wp_assert, wp_pure]
  refine ⟨by rw [h.length, toNat_totalBlocks hsize, h.size], ?_⟩
  refine wp_mono (ho.deallocBlocks hg v d1) ?_
  rintro _ d2 ⟨ho2, hf2⟩
  exact ⟨FileRep.empty hsize', ho2, hmeta, hf2⟩

end FileRep

end RCore.EasyFs
