import RCore.EasyFs.Verify.Entries

/-!
# The blocks that file I/O uses

`read_at` and `write_at` of a disk inode find their blocks through the tree of the inode. The blocks whose handles they
take are those of the tree, with one exception: the loop of `write_at` looks up the block of its position before it
tests whether anything is left, so a write that starts at the end of a file of whole blocks looks up the data block behind
the last one. `io_stays_in_file` says so for every state that calls can reach, and for the disk inodes that the calls
work on before they store them back.
-/

namespace RCore.EasyFs

open RCore Prog DiskInode

/-! ## Looking up blocks -/

namespace DiskInode

/-- Block `b` is one of the tree of `di` over `n` data blocks. -/
def InTree (d : Disk) (di : DiskInode) (n b : Nat) : Prop := ∃ x ∈ blockList d di n, x.toNat = b

variable {d : Disk} {di : DiskInode} {n : Nat}

theorem inTree_ptr {p : Nat} (hp : p < totalBlocksFor n) : InTree d di n (ptr d di p).toNat :=
  ⟨_, List.mem_map_of_mem (List.mem_range.mpr hp), rfl⟩

/-- The index blocks on the way to a data block of the file are in its tree. -/
theorem getBlockId_touches {k : Nat} (hk : k < n) (hn : n ≤ 16540) : (di.getBlockId k).touches (InTree d di n) d := by
  have htot := totalBlocksFor_eq n
  unfold getBlockId
  by_cases h1 : k < 28
  · rw [dif_pos h1]
    exact touches_pure _
  rw [dif_neg h1]
  by_cases h2 : k < 156
  · rw [if_pos h2]
    have hin : InTree d di n di.indirect1.toNat := by
      rw [← ptr_indirect1 (d := d)]
      exact inTree_ptr (by rw [htot]; split_ifs <;> omega)
    exact touches_withRead.mpr ⟨hin, touches_pure _⟩
  rw [if_neg h2, if_pos (show k < 16540 by omega)]
  rw [if_neg (by omega), if_neg (by omega)] at htot
  have hin : InTree d di n di.indirect2.toNat := by
    rw [← ptr_indirect2 (d := d)]
    exact inTree_ptr (by omega)
  have hsub : InTree d di n (u32At (d di.indirect2.toNat) ((k - 156) / 128)).toNat := by
    rw [← ptr_sub (d := d)]
    exact inTree_ptr (by omega)
  exact touches_withRead_bind.mpr ⟨hin, touches_withRead.mpr ⟨hsub, touches_pure _⟩⟩

theorem readLoop_touches {last : Nat} (hn : n ≤ 16540) (hlast : last ≤ n * 512) (fuel : Nat) :
    ∀ (pos readSize : Nat) (buf : List UInt8), pos < last →
      (readLoop di last fuel pos readSize buf).touches (InTree d di n) d := by
  induction fuel with
  | zero => exact fun _ _ _ _ => touches_abort
  | succ fuel ih =>
    intro pos readSize buf hpos
    have hk : pos / 512 < n := by omega
    refine (getBlockId_touches hk hn).bind (getBlockId_spec d di (show pos / 512 < 16540 by omega)).wlp ?_
    rintro b e ⟨rfl, rfl⟩
    refine touches_withRead_bind.mpr ⟨inTree_ptr (dataPos_lt hk), ?_⟩
    split_ifs with hend
    · exact touches_pure _
    · exact ih _ _ _ (by omega)

/-- `read_at` takes handles of blocks of the file only. -/
theorem readAt_touches (hn : n ≤ 16540) (hsize : di.size.toNat ≤ n * 512) (offset : Nat) (buf : List UInt8) :
    (di.readAt offset buf).touches (InTree d di n) d := by
  unfold readAt
  dsimp only
  split_ifs with hge
  · exact touches_pure _
  · exact readLoop_touches hn (by omega) _ _ _ _ (by omega)

theorem writeLoop_touches {last : Nat} (hn : n ≤ 16540) (hlast : last ≤ n * 512) (buf : List UInt8) (fuel : Nat) :
    ∀ (start writeSize : Nat) (d : Disk), (blockList d di n).Nodup → start / 512 < n →
      (writeLoop di last buf fuel start writeSize).touches (InTree d di n) d := by
  induction fuel with
  | zero => exact fun _ _ _ _ _ => touches_abort
  | succ fuel ih =>
    intro start writeSize d hT hk
    refine (getBlockId_touches hk hn).bind (getBlockId_spec d di (show start / 512 < 16540 by omega)).wlp ?_
    rintro b e ⟨rfl, rfl⟩
    -- the tree stays as it is
    have hfit : start % 512 + ((buf.drop writeSize).take (min ((start / blockSz + 1) * blockSz) last - start)).length ≤
        512 := by
      show start % 512 + ((buf.drop writeSize).take (min ((start / 512 + 1) * 512) last - start)).length ≤ 512
      rw [List.length_take]
      omega
    have htree := (Written.one hT hk hfit).blocks
    refine touches_withModify_bind.mpr ⟨inTree_ptr (dataPos_lt hk), ?_⟩
    split_ifs with hend
    · exact touches_pure _
    · have hlt : min ((start / 512 + 1) * 512) last ≠ last := hend
      refine (ih _ _ _ (by rw [htree]; exact hT) (show min ((start / 512 + 1) * 512) last / 512 < n by omega)).mono ?_
      intro x hx
      rwa [InTree, htree] at hx

/-- The size is a number of whole blocks, and not the largest one. -/
def EndsOnBlock (di : DiskInode) : Prop := di.size.toNat % blockSz = 0 ∧ di.size.toNat < indirect2Bound * blockSz

instance (di : DiskInode) : Decidable di.EndsOnBlock := inferInstanceAs (Decidable (_ ∧ _))

/-- `write_at` takes handles of blocks of the file only, unless it starts at the end of a file of whole blocks. -/
theorem writeAt_touches (hn : n ≤ 16540) (hsize : di.size.toNat ≤ n * 512) (hT : (blockList d di n).Nodup)
    {offset : Nat} (hoff : offset = di.size.toNat → ¬di.EndsOnBlock) (buf : List UInt8) :
    (di.writeAt offset buf).touches (InTree d di n) d := by
  unfold writeAt
  refine (touches_assert _).bind (Q := fun _ e => offset ≤ di.size.toNat ∧ e = d) ?_ ?_
  · intro _ e he
    obtain ⟨hle, rfl⟩ := ((wp_assert ..).mp (wp_eq_iff.mpr he)).imp_right fun h => h.2.symm
    exact ⟨by omega, rfl⟩
  · rintro _ e ⟨hle, rfl⟩
    by_cases hk : offset / 512 < n
    · exact writeLoop_touches hn (by omega) buf _ _ _ _ hT hk
    · have hmax : ¬offset / blockSz < indirect2Bound := fun hlt => by
        have hlt' : offset / 512 < 16540 := hlt
        exact hoff (by omega) ⟨show di.size.toNat % 512 = 0 by omega, show di.size.toNat < 16540 * 512 by omega⟩
      rw [writeLoop, getBlockId_abort di hmax]
      exact touches_abort

/-- A write at the end of a file of whole blocks takes the block that the first free place of the tree names. -/
theorem writeAt_end_touched (hends : di.EndsOnBlock) {buf : List UInt8} (hbuf : buf.length < 2 ^ 63) :
    (ptr d di (dataPos (di.size.toNat / blockSz))).toNat ∈ (di.writeAt di.size.toNat buf).touched d := by
  have hmax : di.size.toNat < 16540 * 512 := hends.2
  have hk : di.size.toNat / blockSz < indirect2Bound := show di.size.toNat / 512 < 16540 by omega
  generalize hoff : di.size.toNat = offset at hk hmax ⊢
  have hlast : min ((offset + buf.length) % 2 ^ 64) di.size.toNat = offset := by
    rw [Nat.mod_eq_of_lt (by omega)]
    omega
  obtain ⟨b, e, hexec, rfl, rfl⟩ := getBlockId_spec d di hk
  have hassert : (assert (offset ≤ offset) : EfsM Unit).exec e = some ((), e) := by
    rw [assert, if_pos (Nat.le_refl _)]
    rfl
  rw [writeAt, hlast, touched_bind, hassert, Nat.sub_self, Nat.zero_add]
  refine List.mem_append_right _ ?_
  rw [Option.elim_some, writeLoop, touched_bind, hexec, Option.elim_some, touched_bind]
  exact List.mem_append_right _ (List.mem_append_left _ List.mem_cons_self)

end DiskInode

/-! ## The files of a state -/

/-- Block `b` is a data block of `di` with an index below `data_blocks()`, or one of its index blocks. -/
def Own (d : Disk) (di : DiskInode) (b : Nat) : Prop := ∃ x ∈ inodeBlocks d di, x.toNat = b

/-- The file of `di` is grown to `newSize`; then `write_at` stays in it. -/
def GrownOwn (fs : EasyFileSystem) (newSize : UInt32) (offset : Nat) (buf : List UInt8) (d : Disk) (di : DiskInode) :
    Prop :=
  (Inode.increaseSize fs newSize di).wp (fun di' d' => (di'.writeAt offset buf).touches (Own d' di') d') d

/-- The directory of `di` gets one more record, in blocks of its own. -/
def AppendOwn (fs : EasyFileSystem) (d : Disk) (di : DiskInode) : Prop :=
  ∀ dirent : DirEntry, GrownOwn fs (UInt32.ofNat ((di.size.toNat / direntSz + 1) * direntSz))
    (di.size.toNat / direntSz * direntSz) dirent.asBytes d di

namespace FileRep

variable {g : Geometry} {d : Disk} {di : DiskInode} {c : List UInt8} {bs rest : List UInt32}

theorem own_iff (h : FileRep d di c bs) {b : Nat} : Own d di b ↔ InTree d di (fileBlocks c.length) b := by
  rw [← h.dataBlocks_eq]
  constructor
  · rintro ⟨x, hx, rfl⟩
    exact ⟨x, (inodeBlocks_perm d di).mem_iff.mp hx, rfl⟩
  · rintro ⟨x, hx, rfl⟩
    exact ⟨x, (inodeBlocks_perm d di).mem_iff.mpr hx, rfl⟩

theorem fileBlocks_le (h : FileRep d di c bs) : fileBlocks c.length ≤ 16540 ∧ di.size.toNat ≤ fileBlocks c.length * 512 := by
  have hbound := h.bound
  rw [h.size]
  unfold fileBlocks
  omega

theorem readAt_own (h : FileRep d di c bs) (offset : Nat) (buf : List UInt8) :
    (di.readAt offset buf).touches (Own d di) d :=
  (readAt_touches h.fileBlocks_le.1 h.fileBlocks_le.2 offset buf).mono fun _ => h.own_iff.mpr

theorem writeAt_own (h : FileRep d di c bs) (hnd : bs.Nodup) {offset : Nat}
    (hoff : offset = di.size.toNat → ¬di.EndsOnBlock) (buf : List UInt8) :
    (di.writeAt offset buf).touches (Own d di) d :=
  (writeAt_touches h.fileBlocks_le.1 h.fileBlocks_le.2 (by rw [h.blocks]; exact hnd) hoff buf).mono fun _ => h.own_iff.mpr

theorem grown_own (hg : g.Sound) (h : FileRep d di c bs) (ho : Owned g (bs ++ rest) d) {newSize : UInt32}
    (hmax : newSize.toNat ≤ 16540 * 512) (hspace : (bs ++ rest).length + blocksFor c.length newSize.toNat ≤ g.capacity)
    {offset : Nat} (hoff : offset < newSize.toNat) (buf : List UInt8) :
    GrownOwn g.toEfs newSize offset buf d di := by
  refine wp_mono (h.increaseSize hg ho hmax hspace) ?_
  rintro di' d' ⟨v, h', ho', -⟩
  refine h'.writeAt_own (List.nodup_append.mp ho'.nodup).1 (fun heq => ?_) buf
  rw [h'.size, padTo_length] at heq
  omega

end FileRep

section Records

variable {d : Disk} {di : DiskInode} {es : List DirEntry} {bs : List UInt32}
  (h : FileRep d di (es.flatMap DirEntry.asBytes) bs) (hnd : bs.Nodup)
include h hnd

/-- The loop of `unlinkat` stays in the directory, unless its records fill whole blocks. -/
theorem unlinkLoop_own (hends : ¬di.EndsOnBlock) (path : String) (n : Nat) :
    ∀ (i : Nat) (buf : List UInt8), i + n = es.length → buf.length = 32 →
      (Inode.unlinkLoop path di es.length n i buf).touches (Own d di) d := by
  have hsize := records_size h
  induction n with
  | zero => exact fun _ _ _ _ => touches_pure _
  | succ n ih =>
    intro i buf hin hbuf
    have hread := readDirent_exec h (show i < es.length by omega) hbuf
    refine touches_bind.mpr ⟨?_, fun b e he => ?_⟩
    · refine touches_bind.mpr ⟨h.readAt_own _ _, fun r e he => ?_⟩
      exact touches_bind.mpr ⟨touches_assert _, fun _ _ _ => touches_pure _⟩
    rw [hread] at he
    cases he
    refine touches_bind.mpr ⟨touches_unwrap _, fun name e he => ?_⟩
    rw [exec_unwrap] at he
    obtain ⟨_, _, heq⟩ := Option.map_eq_some_iff.mp he
    cases heq
    split_ifs with hname
    · exact touches_bind.mpr ⟨h.writeAt_own hnd (fun _ => hends) _, fun _ _ _ => touches_pure _⟩
    · exact ih (i + 1) _ (by omega) (DirEntry.asBytes_length _)

end Records

/-- File I/O on the disk `d` takes handles of blocks of the file only, but for the writes at the end of a file of whole
blocks. -/
structure StaysInFile (g : Geometry) (fs : EasyFileSystem) (d : Disk) : Prop where
  /-- `read_at` of an allocated inode. -/
  reads : ∀ i ∈ g.allocated d, ∀ offset buf, ((g.slot d i).readAt offset buf).touches (Own d (g.slot d i)) d
  /-- `write_at` of an allocated inode. -/
  writes : ∀ i ∈ g.allocated d, ∀ offset buf, (offset = (g.slot d i).size.toNat → ¬(g.slot d i).EndsOnBlock) →
    ((g.slot d i).writeAt offset buf).touches (Own d (g.slot d i)) d
  /-- The exception: the write uses the entry of a place that the tree does not have. -/
  ends : ∀ i ∈ g.allocated d, (g.slot d i).EndsOnBlock → ∀ buf : List UInt8, buf.length < 2 ^ 63 →
    ∃ p, totalBlocksFor (g.slot d i).dataBlocks.toNat ≤ p ∧
      (ptr d (g.slot d i) p).toNat ∈ ((g.slot d i).writeAt (g.slot d i).size.toNat buf).touched d
  /-- `Inode::write_at`, after it has grown the file. -/
  written : ∀ ino offset buf, Admissible g d (.writeAt ino offset buf) →
    GrownOwn fs (UInt32.ofNat (offset + buf.length)) offset buf d (g.slot d ino.toNat)
  /-- `create`, after it has made the new inode. -/
  created : ∀ name, Admissible g d (.create name) → (do
    let newInodeId ← fs.allocInode
    (fs.inode newInodeId).modifyDiskInode fun _ => pure ((), DiskInode.initialized newInodeId .file)
    pure newInodeId : EfsM UInt32).wp (fun _ d' => AppendOwn fs d' (g.slot d' 0)) d
  /-- `linkat`, after it has counted the link. -/
  linked : ∀ oldpath newpath, Admissible g d (.linkat oldpath newpath) → ∀ ino : UInt32,
    0 < ino.toNat ∧ ino.toNat < g.inodes d →
      ((fs.inode ino).modifyDiskInode fun di => pure ((), di.incNlink)).wp (fun _ d' => AppendOwn fs d' (g.slot d' 0)) d
  /-- The loop of `unlinkat`, with its write. -/
  unlinked : ¬(g.slot d 0).EndsOnBlock → ∀ path,
    (Inode.unlinkLoop path (g.slot d 0) ((g.slot d 0).size.toNat / direntSz) ((g.slot d 0).size.toNat / direntSz) 0
      DirEntry.newZeros.asBytes).touches (Own d (g.slot d 0)) d

namespace Inv

variable {g : Geometry} {root : Node} {files : List Node} {es : List DirEntry} {d : Disk}

/-- The record that `create` or `linkat` appends. -/
theorem append_own (hg : g.Sound) (h : Inv g (root :: files) d) (hd : IsDir es root)
    (hmax : 32 * es.length + 32 ≤ 16540 * 512)
    (hspace : g.used d + FileRep.blocksFor (32 * es.length) (32 * es.length + 32) ≤ g.capacity) :
    AppendOwn g.toEfs d (g.slot d 0) := by
  intro dirent
  have hpos : 0 < (root :: files).length := Nat.succ_pos _
  obtain ⟨-, hfile⟩ := root_rep h hd
  have hcount : (g.slot d 0).size.toNat / direntSz = es.length := by
    rw [records_size hfile]
    exact Nat.mul_div_cancel_left _ (by decide)
  have hlen := length_flatMap_packed DirEntry.asBytes_length es
  have hval : (UInt32.ofNat ((es.length + 1) * 32)).toNat = 32 * es.length + 32 := by
    rw [UInt32.toNat_ofNat']
    omega
  rw [hcount]
  have hused : g.used d = (root.blocks ++ others (root :: files) 0).length := h.used_eq hpos
  exact hfile.grown_own hg (h.split hpos) (by rw [hval]; exact hmax) (by rw [hval, hlen, ← hused]; exact hspace)
    (by rw [hval]; show es.length * 32 < _; omega) _

end Inv

namespace State

variable {g : Geometry} {es : List DirEntry} {root : Node} {files : List Node} {d : Disk}

theorem staysInFile (hl : g.Laid) (h : State g es root files d) : StaysInFile g g.toEfs d where
  reads i hi offset buf := by
    exact (h.inv.rep i ((h.mem_allocated hl).mp hi)).file.readAt_own offset buf
  writes i hi offset buf hoff := by
    have hi' := (h.mem_allocated hl).mp hi
    exact (h.inv.rep i hi').file.writeAt_own (List.nodup_append.mp (h.inv.split hi').nodup).1 hoff buf
  ends i hi hends buf hbuf := by
    have hfile := (h.inv.rep i ((h.mem_allocated hl).mp hi)).file
    refine ⟨_, ?_, writeAt_end_touched hends hbuf⟩
    rw [hfile.dataBlocks_eq]
    apply le_dataPos
    show fileBlocks _ ≤ (g.slot d i).size.toNat / 512
    have hwhole : (g.slot d i).size.toNat % 512 = 0 := hends.1
    rw [hfile.size] at hwhole ⊢
    unfold fileBlocks
    omega
  written ino offset buf hadm := by
    obtain ⟨hino, hbuf, hmax, hroom⟩ := hadm
    obtain ⟨j, hj, rfl, hval⟩ := h.exists_file hl hino
    have hi : j + 1 < (root :: files).length := Nat.succ_lt_succ hj
    have hmax' : offset + buf.length ≤ 16540 * 512 := hmax
    have hnew : (UInt32.ofNat (offset + buf.length)).toNat = offset + buf.length := by
      rw [UInt32.toNat_ofNat']
      omega
    have hpos := List.length_pos_of_ne_nil hbuf
    rw [Geometry.RoomFor, hval, h.sizeOf_file hj, h.inv.used_eq hi] at hroom
    rw [hval]
    exact (h.inv.rep (j + 1) hi).file.grown_own hl.sound (h.inv.split hi) (by rw [hnew]; exact hmax')
      (by rw [hnew]; exact hroom) (by rw [hnew]; omega) buf
  created name hadm := by
    obtain ⟨hid, hroom⟩ := hadm
    obtain ⟨hmax, hspace⟩ := h.roomForRecord hroom
    rw [h.inodes_eq hl] at hid
    have hfiles := h.files_le
    refine wp_mono (h.inv.allocInode hl hid (by omega)) ?_
    rintro _ d' ⟨-, h'⟩
    have hused : g.used d' = g.used d := by
      rw [h'.owned.used, h.inv.owned.used]
      simp
    exact h'.append_own hl.sound h.dir.toIsDir hmax (by rw [hused]; exact hspace)
  linked oldpath newpath hroom ino hino := by
    obtain ⟨hmax, hspace⟩ := h.roomForRecord hroom
    obtain ⟨j, hj, rfl, -⟩ := h.exists_file hl hino
    refine wp_mono (h.inv.setNlink hl hj (· + 1)) ?_
    intro _ d' h'
    exact h'.append_own hl.sound h.dir.toIsDir hmax (by rw [h.inv.used_setNlink (· + 1) h']; exact hspace)
  unlinked hends path := by
    have hfile := (Inv.root_rep h.inv h.dir.toIsDir).2
    rw [h.count_eq]
    exact unlinkLoop_own hfile (List.nodup_append.mp (h.inv.split (Nat.succ_pos _)).nodup).1 hends path _ _ _ (by omega)
      (DirEntry.asBytes_length _)

end State

/-- **File I/O stays in the file.** In every state that calls of `create`, `linkat`, `unlinkat`, `find`, `ls`, `write_at`,
`read_at` and `clear` can reach from a fresh file system, `read_at` and `write_at` of a disk inode take handles of data
blocks and index blocks of the file only, also in the middle of a call; the exception is a write that starts at the end of
a file of whole blocks, and so the one of `unlinkat` when the records of the directory fill whole blocks. -/
theorem io_stays_in_file (total ib : UInt32) (dev : Disk) (fs : EasyFileSystem) (d : Disk)
    (h : (Geometry.compute total ib).NoUnderflow) (harea : 0 < (Geometry.compute total ib).inodeAreaBlocks.toNat)
    (he : (EasyFileSystem.create total ib).exec dev = some (fs, d)) {names : List String} {d' : Disk}
    (hrun : Binds (Geometry.compute total ib) fs d names d') : StaysInFile (Geometry.compute total ib) fs d' := by
  obtain ⟨rfl, hst⟩ := State.init h harea he
  have hl := Geometry.compute_laid h
  obtain ⟨b, root, files, -, hst'⟩ := hrun.state hl hst
  exact hst'.staysInFile hl

/-- After `create("a")` in the packer's image. -/
theorem io_stays_in_file_packer : ∃ d d',
    (EasyFileSystem.create 32768 1).exec (fun _ => Bytes.zero blockSz) = some ((Geometry.compute 32768 1).toEfs, d) ∧
    Binds (Geometry.compute 32768 1) (Geometry.compute 32768 1).toEfs d ["a"] d' ∧
    StaysInFile (Geometry.compute 32768 1) (Geometry.compute 32768 1).toEfs d' := by
  obtain ⟨d, d', r, he, hadm, hc, _⟩ := packer_create (show (nameBytes "a").length ≤ 28 by decide)
  have hrun := Binds.start.create hadm hc
  exact ⟨d, d', he, hrun, io_stays_in_file 32768 1 _ _ d (by decide) (by decide) he hrun⟩

/-- In the packer's fresh image, an empty write to the root directory takes the handle of block 0, the super block. -/
theorem empty_write_takes_block_zero : ∃ d,
    (EasyFileSystem.create 32768 1).exec (fun _ => Bytes.zero blockSz) = some ((Geometry.compute 32768 1).toEfs, d) ∧
    0 ∈ (Geometry.compute 32768 1).allocated d ∧ (((Geometry.compute 32768 1).slot d 0).size.toNat = 0) ∧
    0 ∈ (((Geometry.compute 32768 1).slot d 0).writeAt 0 []).touched d ∧
    ¬(((Geometry.compute 32768 1).slot d 0).writeAt 0 []).touches (Own d ((Geometry.compute 32768 1).slot d 0)) d := by
  have hu : (Geometry.compute 32768 1).NoUnderflow := by decide
  have hl := Geometry.compute_laid hu
  obtain ⟨fs, d, he, -, hc⟩ := create_spec (fun _ => Bytes.zero blockSz) hu (by decide)
  obtain ⟨rfl, hst⟩ := State.init hu (by decide) he
  have hslot : (Geometry.compute 32768 1).slot d 0 = DiskInode.initialized 0 .directory := by
    unfold Geometry.slot
    rw [Nat.zero_div, Nat.add_zero, hc.root]
    exact decode_encode_same _ _ (by omega)
  have hfile := (hst.inv.rep 0 (Nat.succ_pos _)).file
  have hends : ((Geometry.compute 32768 1).slot d 0).EndsOnBlock := by
    rw [hslot]
    decide
  have hsize : ((Geometry.compute 32768 1).slot d 0).size.toNat = 0 := by
    rw [hslot]
    rfl
  have hzero : 0 ∈ (((Geometry.compute 32768 1).slot d 0).writeAt 0 []).touched d := by
    have htouched := writeAt_end_touched (d := d) hends (show ([] : List UInt8).length < 2 ^ 63 by decide)
    rw [hsize] at htouched
    have hptr : ptr d ((Geometry.compute 32768 1).slot d 0) (dataPos (0 / blockSz)) = 0 := by
      rw [hslot]
      rfl
    rwa [hptr] at htouched
  refine ⟨d, he, (hst.mem_allocated hl).mpr (Nat.succ_pos _), hsize, hzero, fun htouches => ?_⟩
  obtain ⟨x, hx, -⟩ := hfile.own_iff.mp (htouches 0 hzero)
  exact absurd hx List.not_mem_nil

end RCore.EasyFs
