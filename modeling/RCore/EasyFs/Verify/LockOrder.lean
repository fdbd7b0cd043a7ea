import RCore.EasyFs.Verify.Locks

/-!
# The order of the locks in the calls

A call locks the block of a disk inode and calls back into the bitmaps, the index blocks and the data blocks while it holds
it. `calls_lock_in_order` says that in every state that calls can reach, no call locks a block that it holds, none flushes
the cache while it holds a lock, and at most two handles are alive when another block is requested.

The sizes of files are `u32`, and the sum in `_data_blocks` wraps for a size above `2 ^ 32 - 512`: a file can get such a size
without any block. Its pointers are zero, the super block is taken for an index block, and what a write finds there can be
the block of the disk inode (`wrapped_write_locks_twice`). So the writes have to end at `2 ^ 32 - 512` or before; writes
past the largest file panic, but in order.
-/

namespace RCore.EasyFs

open RCore Prog DiskInode

/-! ## Growing past the largest file -/

namespace DiskInode

variable {d : Disk} {di : DiskInode} {bs : List UInt32} {current total : Nat}

theorem fillIndirect2_panics (k : Nat) : ∀ (j : Nat) (indirect2 : Block) (bs : List UInt32) (d : Disk), j ≤ 16384 →
    16384 < j + k → (fillIndirect2 k (j / 128) (j % 128) indirect2 bs).exec d = none := by
  induction k with
  | zero =>
    intro j _ _ _ h1 h2
    omega
  | succ k ih =>
    intro j indirect2 bs d h1 h2
    rw [fillIndirect2, exec_bind]
    by_cases ha : j / 128 < 128
    · have hassert : (assert (j / 128 < inodeIndirect1Count) : EfsM Unit).exec d = some ((), d) :=
        wp_eq_iff.mp ((wp_assert ..).mpr ⟨ha, rfl, rfl⟩)
      rw [hassert, Option.bind_some]
      extract_lets rest
      have hrest : ∀ r d', (rest r).exec d' = none := by
        rintro ⟨indirect2, bs⟩ d'
        refine exec_bind_none fun bs d' _ => ?_
        split_ifs with hb
        · have hb' : j % 128 + 1 = 128 := hb
          have hrec := ih (j + 1) indirect2 bs d' (by omega) (by omega)
          rwa [show (j + 1) / 128 = j / 128 + 1 by omega, show (j + 1) % 128 = 0 by omega] at hrec
        · have hb' : ¬j % 128 + 1 = 128 := hb
          have hrec := ih (j + 1) indirect2 bs d' (by omega) (by omega)
          rwa [show (j + 1) / 128 = j / 128 by omega, show (j + 1) % 128 = j % 128 + 1 by omega] at hrec
      clear_value rest
      split_ifs
      · exact exec_bind_none fun r d' _ => hrest _ d'
      · exact hrest _ d
    · have hassert : (assert (j / 128 < inodeIndirect1Count) : EfsM Unit) = abort := if_neg ha
      rw [hassert]
      rfl

theorem growIndirect2_panics (hcur : current ≤ 16512) (htot : 16512 < total) :
    (growIndirect2 di current total bs).exec d = none := by
  unfold growIndirect2
  extract_lets current' total' rest
  have hfill : 16384 < current' + (total' - current') := show 16384 < current - 128 + (total - 128 - (current - 128)) by omega
  have hle : current' ≤ 16384 := show current - 128 ≤ 16384 by omega
  clear_value current' total'
  have hrest : ∀ r d', (rest r).exec d' = none := by
    rintro ⟨di, bs⟩ d'
    exact exec_bind_of_none (exec_withModify_none (fillIndirect2_panics _ current' _ _ _ hle hfill)) _
  clear_value rest
  split_ifs
  · exact exec_bind_none fun r d' _ => hrest _ d'
  · exact hrest _ d

theorem growIndirect1_panics (hcur : current ≤ 16540) (htot : 16540 < total) :
    (growIndirect1 di current total bs).exec d = none := by
  unfold growIndirect1
  extract_lets current' total' next' rest
  have hmany : total' > inodeIndirect1Count := show total - 28 > 128 by omega
  have hnext : next' ≤ 16512 := show max (current - 28) (min (total - 28) 128) ≤ 16512 by omega
  have htotal : 16512 < total' := show 16512 < total - 28 by omega
  clear_value next' total'
  have hrest : ∀ r d', (rest r).exec d' = none := by
    rintro ⟨di, bs⟩ d'
    refine exec_bind_none fun bs' d'' _ => ?_
    rw [if_pos hmany]
    exact growIndirect2_panics hnext htotal
  clear_value rest
  split_ifs
  · exact exec_bind_none fun r d' _ => hrest _ d'
  · exact hrest _ d

/-- The double indirect block has no entry for more. -/
theorem increaseSize_panics {newSize : UInt32} {v : List UInt32} (hcur : di.dataBlocks.toNat ≤ 16540)
    (htot : 16540 < (dataBlocksOf newSize).toNat) : (di.increaseSize newSize v).exec d = none := by
  refine exec_bind_none fun ⟨di1, bs1⟩ d' _ => ?_
  have htot' : 16540 < ({ di with size := newSize } : DiskInode).dataBlocks.toNat := htot
  dsimp only
  rw [if_pos (show ({ di with size := newSize } : DiskInode).dataBlocks.toNat > 28 by omega)]
  exact growIndirect1_panics (show max di.dataBlocks.toNat (min _ 28) ≤ 16540 by omega) htot'

end DiskInode

/-! ## Inside the block of a disk inode -/

namespace FileRep

variable {g : Geometry} {d : Disk} {di : DiskInode} {c : List UInt8} {bs rest : List UInt32} {n : Nat} {held : List Nat}

section Held

variable (hg : g.Sound) (h : FileRep d di c bs) (ho : Owned g (bs ++ rest) d)
  (hheld : ∀ x ∈ held, x < g.toEfs.dataBitmap.startBlockId)
include hg h ho hheld

omit hg h ho in
theorem not_held {x : Nat} (hx : g.toEfs.dataBitmap.startBlockId ≤ x) : x ∉ held := fun hmem => by
  have hlt := hheld x hmem
  omega

omit h in
theorem block_not_held {b : UInt32} (hb : b ∈ bs ++ rest) : b.toNat ∉ held :=
  not_held hheld ((Inv.dataBitmap_le_dataStart hg).trans (ho.inArea b hb).1)

theorem own_not_held {x : Nat} (hx : Own d di x) : x ∉ held := by
  obtain ⟨b, hb, rfl⟩ := h.own_iff.mp hx
  rw [h.blocks] at hb
  exact block_not_held hg ho hheld (List.mem_append_left _ hb)

theorem writeAt_orderly (hn : held.length ≤ n) {offset : Nat} (hoff : offset ≠ di.size.toNat) (buf : List UInt8) :
    (di.writeAt offset buf).orderly n d held :=
  (writeAt_nests (n := 0) di offset buf).orderly_flat (Nat.le_refl 1) hn
    ((h.writeAt_own (List.nodup_append.mp ho.nodup).1 (fun heq => absurd heq hoff) buf).mono fun _ =>
      h.own_not_held hg ho hheld)

variable (hn : held.length + 1 ≤ n) {newSize : UInt32} (hsize : newSize.toNat ≤ 2 ^ 32 - 512)
  (hspace : (bs ++ rest).length + blocksFor c.length newSize.toNat ≤ g.capacity)
include hn hsize hspace

/-- `Inode::increase_size`, also past the largest file. -/
theorem increaseSize_orderly : (Inode.increaseSize g.toEfs newSize di).orderly n d held := by
  unfold Inode.increaseSize
  by_cases hlt : newSize < di.size
  · rw [if_pos hlt]
    exact orderly_pure di
  · have hge : c.length ≤ newSize.toNat := by
      rw [UInt32.lt_iff_toNat_lt, h.size] at hlt
      omega
    obtain ⟨k, hk, hneeded⟩ := h.blocksNumNeeded hsize hge
    rw [if_neg hlt]
    refine orderly_bind ((blocksNumNeeded_nests (w := true) (n := 0) di newSize).orderly_zero rfl) fun k' d' he => ?_
    rw [hk] at he
    cases he
    have halloc : (Inode.allocBlocks g.toEfs k.toNat).orderly n d held :=
      (Inode.allocBlocks_nests g.toEfs (n := 0) k.toNat).orderly_flat (Nat.le_refl 1) (by omega)
        ((g.toEfs.allocBlocks_touches d k.toNat).mono fun _ => not_held hheld)
    rw [hneeded] at halloc ⊢
    refine halloc.bind (h.allocBlocks hg ho hge hspace).wlp ?_
    rintro v d1 ⟨hlen, h1, ho1, -⟩
    refine DiskInode.increaseSize_orderly h1.dataBlocks_eq (dataBlocksOf_toNat_of_le hsize) (fileBlocks_mono hge) hlen ?_
      ?_ hn
    · rw [h1.blocks]
      exact (List.nodup_append.mp ho1.nodup).1
    · rw [h1.blocks]
      exact fun b hb => block_not_held hg ho1 hheld (List.mem_append_left _ hb)

omit hheld hn in
/-- Past the largest file it panics. -/
theorem increaseSize_past (hpast : 16540 * 512 < newSize.toNat) : (Inode.increaseSize g.toEfs newSize di).exec d = none := by
  have hbound := h.bound
  have hlt : ¬newSize < di.size := by
    rw [UInt32.lt_iff_toNat_lt, h.size]
    omega
  obtain ⟨k, hk, hneeded⟩ := h.blocksNumNeeded hsize (by omega)
  obtain ⟨v, d1, hv, -, h1, -⟩ := h.allocBlocks hg ho (by omega) hspace
  rw [Inode.increaseSize, if_neg hlt, exec_bind, hk, Option.bind_some, hneeded, exec_bind, hv, Option.bind_some]
  refine increaseSize_panics ?_ ?_
  · rw [h1.dataBlocks_eq]
    unfold fileBlocks
    omega
  · rw [dataBlocksOf_toNat_of_le hsize]
    unfold fileBlocks
    omega

/-- A write into the grown file, inside it. -/
theorem grown_orderly {α : Type} {f : DiskInode → EfsM α}
    (hf : ∀ {di' : DiskInode} {d' : Disk} {v : List UInt32}, FileRep d' di' (padTo c newSize.toNat) (bs ++ v) →
      Owned g (bs ++ v ++ rest) d' → (f di').orderly n d' held) :
    (Inode.increaseSize g.toEfs newSize di >>= f).orderly n d held := by
  refine orderly_bind (h.increaseSize_orderly hg ho hheld hn hsize hspace) fun di' d' he => ?_
  by_cases hmax : newSize.toNat ≤ 16540 * 512
  · obtain ⟨v, h', ho', -⟩ := (h.increaseSize hg ho hmax hspace).wlp di' d' he
    exact hf h' ho'
  · rw [h.increaseSize_past hg ho hsize hspace (by omega)] at he
    cases he

theorem growWrite_orderly {offset : Nat} (hoff : offset < newSize.toNat) (buf : List UInt8) :
    (do
      let di ← Inode.increaseSize g.toEfs newSize di
      let n ← di.writeAt offset buf
      pure (n, di) : EfsM (Nat × DiskInode)).orderly n d held := by
  refine h.grown_orderly hg ho hheld hn hsize hspace fun {di' d' v} h' ho' => ?_
  refine orderly_bind (h'.writeAt_orderly hg ho' hheld (by omega) ?_ buf) fun _ _ _ => orderly_pure _
  rw [h'.size, padTo_length]
  omega

/-- The record that `create` and `linkat` append. -/
theorem appendDirent_orderly (hval : newSize = UInt32.ofNat ((di.size.toNat / direntSz + 1) * direntSz))
    (hoff : di.size.toNat / direntSz * direntSz < newSize.toNat) {dirent : EfsM DirEntry} (hdirent : Nests false 0 dirent) :
    (Inode.appendDirent g.toEfs dirent di).orderly n d held := by
  subst hval
  refine h.grown_orderly hg ho hheld hn hsize hspace fun {di' d' v} h' ho' => ?_
  refine orderly_bind (hdirent.orderly_zero rfl) fun e d1 he => ?_
  obtain rfl := hdirent.exec_same (by decide) he
  refine orderly_bind (h'.writeAt_orderly hg ho' hheld (by omega) ?_ _) fun _ _ _ => orderly_pure _
  rw [h'.size, padTo_length]
  omega

omit hn hsize hspace in
/-- `clear`, with the blocks that it gives back. -/
theorem clear_orderly (hn : held.length + 1 ≤ n) :
    (do
      let (v, di') ← di.clearSize
      assert (v.length = (totalBlocks di.size).toNat)
      Inode.deallocBlocks g.toEfs v
      pure ((), di') : EfsM (Unit × DiskInode)).orderly n d held := by
  have hbound := h.bound
  have hT : blockList d di (fileBlocks c.length) = bs := h.blocks
  refine (clearSize_orderly h.dataBlocks_eq ?_ ?_ hn).bind
    (clearSize_spec d h.dataBlocks_eq (by unfold fileBlocks; omega)).wlp ?_
  · rw [hT]
    exact (List.nodup_append.mp ho.nodup).1
  · rw [hT]
    exact fun b hb => block_not_held hg ho hheld (List.mem_append_left _ hb)
  rintro ⟨v, di'⟩ d1 ⟨rfl, hv, -⟩
  refine orderly_bind (orderly_assert _) fun _ d2 _ => ?_
  have hmem : ∀ b ∈ v, g.toEfs.dataBitmap.startBlockId ≤ b.toNat := fun b hb => by
    have hin := ho.inArea b (List.mem_append_left _ (hT ▸ hv ▸ hb))
    exact (Inv.dataBitmap_le_dataStart hg).trans hin.1
  refine orderly_bind ((Inode.deallocBlocks_nests g.toEfs (n := 0) v).orderly_flat (Nat.le_refl 1) (by omega)
    ((g.toEfs.deallocBlocks_touches d2 hmem).mono fun _ => not_held hheld)) fun _ _ _ => orderly_pure _

end Held

/-! ## Looking up names -/

theorem readDirent_own (h : FileRep d di c bs) (i : Nat) (buf : List UInt8) :
    (Inode.readDirent di i buf).touches (Own d di) d :=
  touches_bind.mpr ⟨h.readAt_own _ _, fun _ _ _ =>
    touches_bind.mpr ⟨touches_assert _, fun _ _ _ => touches_pure _⟩⟩

theorem findLoop_own (h : FileRep d di c bs) (name : String) (k : Nat) :
    ∀ (i : Nat) (buf : List UInt8), (Inode.findLoop name di k i buf).touches (Own d di) d := by
  induction k with
  | zero => exact fun _ _ => touches_pure _
  | succ k ih =>
    intro i buf
    refine touches_bind.mpr ⟨h.readDirent_own i buf, fun buf' e he => ?_⟩
    obtain rfl := (Inode.readDirent_nests (n := 0) di i buf).exec_same (by decide) he
    refine touches_bind.mpr ⟨touches_unwrap _, fun _ e' he' => ?_⟩
    obtain rfl := (Nests.unwrap (n := 0) _).exec_same (by decide) he'
    split_ifs
    · exact touches_pure _
    · exact ih _ _

theorem findInodeId_own (h : FileRep d di c bs) (name : String) : (Inode.findInodeId name di).touches (Own d di) d := by
  refine touches_bind.mpr ⟨touches_assert _, fun _ e he => ?_⟩
  obtain rfl := (Nests.assert (n := 0)).exec_same (by decide) he
  exact h.findLoop_own name _ _ _

theorem lsLoop_own (h : FileRep d di c bs) (k : Nat) : ∀ i : Nat, (Inode.lsLoop di k i).touches (Own d di) d := by
  induction k with
  | zero => exact fun _ => touches_pure _
  | succ k ih =>
    intro i
    refine touches_bind.mpr ⟨h.readDirent_own i _, fun buf' e he => ?_⟩
    obtain rfl := (Inode.readDirent_nests (n := 0) di i _).exec_same (by decide) he
    refine touches_bind.mpr ⟨touches_unwrap _, fun _ e' he' => ?_⟩
    obtain rfl := (Nests.unwrap (n := 0) _).exec_same (by decide) he'
    exact touches_bind.mpr ⟨ih _, fun _ _ _ => touches_pure _⟩

end FileRep

/-! ## The calls -/

namespace Geometry

variable {g : Geometry} {i n : Nat} {d : Disk} {α : Type}

theorem orderly_readDiskInode (hg : g.Sound) (hi : i < 3 * g.inodeAreaBlocks.toNat) (h32 : i < 2 ^ 32)
    {f : DiskInode → EfsM α} (hf : (f (g.slot d i)).orderly n d [1 + g.inodeBitmapBlocks.toNat + i / 3]) :
    ((g.toEfs.inode (UInt32.ofNat i)).readDiskInode f).orderly n d [] := by
  rw [inode_eq hg hi h32]
  refine orderly_withRead List.not_mem_nil (Nat.zero_le n) (orderly_bind (orderly_assert _) fun _ e he => ?_)
  obtain rfl := (Nests.assert (n := 0)).exec_same (by decide) he
  exact hf

theorem orderly_modifyDiskInode (hg : g.Sound) (hi : i < 3 * g.inodeAreaBlocks.toNat) (h32 : i < 2 ^ 32)
    {f : DiskInode → EfsM (α × DiskInode)}
    (hf : (f (g.slot d i)).orderly n d [1 + g.inodeBitmapBlocks.toNat + i / 3]) :
    ((g.toEfs.inode (UInt32.ofNat i)).modifyDiskInode f).orderly n d [] := by
  rw [inode_eq hg hi h32]
  refine orderly_withModify List.not_mem_nil (Nat.zero_le n) (orderly_bind (orderly_assert _) fun _ e he => ?_)
  obtain rfl := (Nests.assert (n := 0)).exec_same (by decide) he
  exact orderly_bind hf fun _ _ _ => orderly_pure _

/-- The locks of the work on the disk inode. -/
theorem locks_of_modifyDiskInode (hg : g.Sound) (hi : i < 3 * g.inodeAreaBlocks.toNat) (h32 : i < 2 ^ 32)
    {f : DiskInode → EfsM (α × DiskInode)} {Q : α → Disk → List Nat → Prop}
    (h : ((g.toEfs.inode (UInt32.ofNat i)).modifyDiskInode f).locks n Q d []) :
    (f (g.slot d i)).locks n (fun _ _ _ => True) d [1 + g.inodeBitmapBlocks.toNat + i / 3] := by
  have hoff : i % 3 * 136 + diskInodeSize ≤ blockSz := by
    show i % 3 * 136 + 136 ≤ 512
    omega
  rw [inode_eq hg hi h32, Inode.modifyDiskInode, locks_withModify, locks_bind, locks_assert] at h
  exact ((locks_bind ..).mp (h.2.2 hoff)).mono fun _ _ _ _ _ => trivial

theorem exec_modifyDiskInode_none (hg : g.Sound) (hi : i < 3 * g.inodeAreaBlocks.toNat) (h32 : i < 2 ^ 32)
    {f : DiskInode → EfsM (α × DiskInode)} (hf : (f (g.slot d i)).exec d = none) :
    ((g.toEfs.inode (UInt32.ofNat i)).modifyDiskInode f).exec d = none := by
  cases he : ((g.toEfs.inode (UInt32.ofNat i)).modifyDiskInode f).exec d with
  | none => rfl
  | some r =>
    obtain ⟨_, _, hsome, -⟩ := (wp_modifyDiskInode hg hi h32 f _ d).mp (wp_eq_iff.mpr he)
    rw [hf] at hsome
    cases hsome

end Geometry

namespace Inv

variable {g : Geometry} {nodes : List Node} {d : Disk} {n : Nat}

/-- A routine that takes one handle at a time, while none is held. -/
theorem flat_orderly {w : Bool} {α : Type} {p : EfsM α} (hp : Nests w 1 p) : p.orderly n d [] :=
  hp.orderly_flat (Nat.le_refl 1) (Nat.zero_le n) fun _ _ => List.not_mem_nil

section Slots

variable (hg : g.Sound) (h : Inv g nodes d) {i : Nat} (hi : i < nodes.length)
include hg h hi

theorem slot_held : ∀ x ∈ [1 + g.inodeBitmapBlocks.toNat + i / 3], x < g.toEfs.dataBitmap.startBlockId := by
  intro x hx
  rw [List.mem_singleton.mp hx]
  exact h.slot_lt hg hi

/-- Looking into a file. -/
theorem read_orderly {w : Bool} {α : Type} {f : DiskInode → EfsM α} (hf : Nests w 1 (f (g.slot d i)))
    (hown : (f (g.slot d i)).touches (Own d (g.slot d i)) d) (hn : 1 ≤ n) :
    ((g.toEfs.inode (UInt32.ofNat i)).readDiskInode f).orderly n d [] := by
  have harea := h.inArea
  have hsmall := h.small
  refine Geometry.orderly_readDiskInode hg (by omega) (by omega) ?_
  exact hf.orderly_flat (Nat.le_refl 1) hn (hown.mono fun _ =>
    (h.rep i hi).file.own_not_held hg (h.split hi) (h.slot_held hg hi))

theorem writeAt_orderly {offset : Nat} {buf : List UInt8} (hbuf : buf ≠ []) (hsize : offset + buf.length ≤ 2 ^ 32 - 512)
    (hspace : g.used d + FileRep.blocksFor nodes[i].content.length (offset + buf.length) ≤ g.capacity) :
    ((g.toEfs.inode (UInt32.ofNat i)).writeAt g.toEfs offset buf).orderly 2 d [] := by
  have harea := h.inArea
  have hsmall := h.small
  have hpos := List.length_pos_iff.mpr hbuf
  have hval : (UInt32.ofNat (offset + buf.length)).toNat = offset + buf.length := by
    rw [UInt32.toNat_ofNat']
    omega
  refine orderly_bind (Geometry.orderly_modifyDiskInode hg (by omega) (by omega) ?_) fun _ _ _ =>
    orderly_bind (orderly_sync (orderly_pure ())) fun _ _ _ => orderly_pure _
  exact (h.rep i hi).file.growWrite_orderly hg (h.split hi) (h.slot_held hg hi) (Nat.le_refl 2) (by rw [hval]; exact hsize)
    (by rw [hval, ← h.used_eq hi]; exact hspace) (by omega) buf

/-- A write past the largest file panics. -/
theorem writeAt_past {offset : Nat} {buf : List UInt8} (hpast : 16540 * 512 < offset + buf.length)
    (hsize : offset + buf.length ≤ 2 ^ 32 - 512)
    (hspace : g.used d + FileRep.blocksFor nodes[i].content.length (offset + buf.length) ≤ g.capacity) :
    ((g.toEfs.inode (UInt32.ofNat i)).writeAt g.toEfs offset buf).exec d = none := by
  have harea := h.inArea
  have hsmall := h.small
  have hval : (UInt32.ofNat (offset + buf.length)).toNat = offset + buf.length := by
    rw [UInt32.toNat_ofNat']
    omega
  refine exec_bind_of_none (Geometry.exec_modifyDiskInode_none hg (by omega) (by omega) (exec_bind_of_none ?_ _)) _
  exact (h.rep i hi).file.increaseSize_past hg (h.split hi) (by rw [hval]; exact hsize)
    (by rw [hval, ← h.used_eq hi]; exact hspace) (by rw [hval]; exact hpast)

theorem clear_orderly : ((g.toEfs.inode (UInt32.ofNat i)).clear g.toEfs).orderly 2 d [] := by
  have harea := h.inArea
  have hsmall := h.small
  refine orderly_bind (Geometry.orderly_modifyDiskInode hg (by omega) (by omega) ?_) fun _ _ _ =>
    orderly_sync (orderly_pure ())
  exact (h.rep i hi).file.clear_orderly hg (h.split hi) (h.slot_held hg hi) (Nat.le_refl 2)

end Slots

section Root

variable {root : Node} {files : List Node} {es : List DirEntry} (hg : g.Sound) (h : Inv g (root :: files) d)
include hg h

theorem lookup_orderly (name : String) :
    (g.toEfs.rootInode.readDiskInode fun rootInode => do
      assert (rootInode.isDir = true)
      Inode.findInodeId name rootInode).orderly 2 d [] := by
  have hfile := (h.rep 0 (Nat.succ_pos _)).file
  refine h.read_orderly hg (i := 0) (Nat.succ_pos _) (w := true)
    (.bind .assert fun _ => Inode.findInodeId_nests _ _) (touches_bind.mpr ⟨touches_assert _, fun _ e he => ?_⟩) (by decide)
  obtain rfl := (Nests.assert (n := 0)).exec_same (by decide) he
  exact hfile.findInodeId_own name

theorem find_orderly (name : String) : (g.toEfs.rootInode.find g.toEfs name).orderly 2 d [] :=
  h.read_orderly hg (i := 0) (Nat.succ_pos _) (w := true) (.bind (Inode.findInodeId_nests _ _) fun _ => .ret _)
    (touches_bind.mpr ⟨(h.rep 0 (Nat.succ_pos _)).file.findInodeId_own name, fun _ _ _ => touches_pure _⟩) (by decide)

theorem ls_orderly : g.toEfs.rootInode.ls.orderly 2 d [] :=
  h.read_orderly hg (i := 0) (Nat.succ_pos _) (w := true) (Inode.lsLoop_nests _ _ _)
    ((h.rep 0 (Nat.succ_pos _)).file.lsLoop_own _ _) (by decide)

variable (hd : IsDir es root)
  (hspace : g.used d + FileRep.blocksFor (32 * es.length) (32 * es.length + 32) ≤ g.capacity)
include hd hspace

omit hg in
/-- The size with one more record. -/
theorem grown_records : ∃ newSize : UInt32, newSize = UInt32.ofNat (((g.slot d 0).size.toNat / direntSz + 1) * direntSz) ∧
    newSize.toNat = 32 * es.length + 32 ∧ (g.slot d 0).size.toNat / direntSz * direntSz < newSize.toNat ∧
    newSize.toNat ≤ 2 ^ 32 - 512 ∧ (root.blocks ++ others (root :: files) 0).length +
      FileRep.blocksFor (es.flatMap DirEntry.asBytes).length newSize.toNat ≤ g.capacity := by
  obtain ⟨-, hfile⟩ := root_rep h hd
  have hbound := hfile.bound
  have hlen := length_flatMap_packed DirEntry.asBytes_length es
  have hcount : (g.slot d 0).size.toNat / direntSz = es.length := by
    rw [records_size hfile]
    exact Nat.mul_div_cancel_left _ (by decide)
  have hval : (UInt32.ofNat ((es.length + 1) * 32)).toNat = 32 * es.length + 32 := by
    rw [UInt32.toNat_ofNat']
    omega
  have hused : g.used d = (root.blocks ++ others (root :: files) 0).length := h.used_eq (i := 0) (Nat.succ_pos _)
  refine ⟨_, rfl, ?_⟩
  rw [hcount]
  show (UInt32.ofNat ((es.length + 1) * 32)).toNat = _ ∧ es.length * 32 < (UInt32.ofNat ((es.length + 1) * 32)).toNat ∧
    (UInt32.ofNat ((es.length + 1) * 32)).toNat ≤ _ ∧ _ + FileRep.blocksFor _ (UInt32.ofNat ((es.length + 1) * 32)).toNat ≤ _
  rw [hval, hlen, ← hused]
  exact ⟨rfl, by omega, by omega, hspace⟩

theorem append_orderly {dirent : EfsM DirEntry} (hdirent : Nests false 0 dirent) :
    (g.toEfs.rootInode.modifyDiskInode fun rootInode => do
      let rootInode ← Inode.appendDirent g.toEfs dirent rootInode
      pure ((), rootInode)).orderly 2 d [] := by
  have harea := h.inArea
  rw [List.length_cons] at harea
  have hpos : 0 < (root :: files).length := Nat.succ_pos _
  obtain ⟨newSize, hnew, -, hoff, hsize, hroom⟩ := grown_records h hd hspace
  obtain ⟨-, hfile⟩ := root_rep h hd
  have happend := hfile.appendDirent_orderly hg (h.split hpos) (h.slot_held hg hpos) (Nat.le_refl 2) hsize hroom hnew hoff
    hdirent
  exact Geometry.orderly_modifyDiskInode hg (i := 0) (by omega) (by omega) (orderly_bind happend fun _ _ _ => orderly_pure _)

/-- There is no record past the largest file. -/
theorem append_past (hpast : 16540 * 512 < 32 * es.length + 32) (dirent : EfsM DirEntry) :
    (g.toEfs.rootInode.modifyDiskInode fun rootInode => do
      let rootInode ← Inode.appendDirent g.toEfs dirent rootInode
      pure ((), rootInode)).exec d = none := by
  have harea := h.inArea
  rw [List.length_cons] at harea
  have hpos : 0 < (root :: files).length := Nat.succ_pos _
  obtain ⟨newSize, hnew, hval, -, hsize, hroom⟩ := grown_records h hd hspace
  obtain ⟨-, hfile⟩ := root_rep h hd
  refine Geometry.exec_modifyDiskInode_none hg (i := 0) (by omega) (by omega) (exec_bind_of_none (exec_bind_of_none ?_ _) _)
  show (Inode.increaseSize g.toEfs (UInt32.ofNat (((g.slot d 0).size.toNat / direntSz + 1) * direntSz)) _).exec d = none
  rw [← hnew]
  exact hfile.increaseSize_past hg (h.split hpos) hsize hroom (by rw [hval]; exact hpast)

end Root

section Create

variable {root : Node} {files : List Node} {es : List DirEntry} (hl : g.Laid) (h : Inv g (root :: files) d)
  (hd : Dir es root files)
  (hspace : g.used d + FileRep.blocksFor (32 * es.length) (32 * es.length + 32) ≤ g.capacity)
include hl h hd hspace

/-- After `create` has made the new inode. -/
theorem create_mid (hid : files.length + 1 < 3 * g.inodeAreaBlocks.toNat) {id : UInt32} {d1 d2 : Disk}
    (he1 : g.toEfs.allocInode.exec d = some (id, d1))
    (he2 : ((g.toEfs.inode id).modifyDiskInode fun _ => pure ((), DiskInode.initialized id .file)).exec d1 = some ((), d2)) :
    id = UInt32.ofNat (files.length + 1) ∧ Inv g (root :: (files ++ [⟨[], 1, .file, []⟩])) d2 ∧
      g.used d2 + FileRep.blocksFor (32 * es.length) (32 * es.length + 32) ≤ g.capacity := by
  have hcount := hd.count
  have hbound := (root_rep h hd.toIsDir).2.bound
  rw [length_flatMap_packed DirEntry.asBytes_length] at hbound
  have hal := h.allocInode hl hid (by omega)
  simp only [wp_bind, wp_pure] at hal
  obtain ⟨hnum, h2⟩ := (hal.wlp id d1 he1).wlp () d2 he2
  have hused : g.used d2 = g.used d := by
    rw [h2.owned.used, h.owned.used]
    simp
  exact ⟨hnum, h2, by rw [hused]; exact hspace⟩

theorem create_orderly (hid : files.length + 1 < 3 * g.inodeAreaBlocks.toNat) (name : String) :
    (g.toEfs.rootInode.create g.toEfs name).orderly 2 d [] := by
  refine orderly_bind (h.lookup_orderly hl.sound name) fun found e he => ?_
  obtain rfl := (g.toEfs.rootInode.lookup_nests (n := 0) name).exec_same (by decide) he
  split_ifs
  · exact orderly_pure _
  refine orderly_bind (flat_orderly g.toEfs.allocInode_nests) fun id d1 he1 => ?_
  refine orderly_bind (flat_orderly (Inode.modifyDiskInode_nests _ fun _ => .ret _)) fun _ d2 he2 => ?_
  obtain ⟨-, h2, hspace2⟩ := h.create_mid hl hd hspace hid he1 he2
  refine orderly_bind (h2.append_orderly hl.sound hd.toIsDir hspace2 (DirEntry.new_nests name id)) fun _ _ _ => ?_
  exact orderly_bind (orderly_sync (orderly_pure ())) fun _ _ _ => orderly_pure _

/-- A directory that is full takes no new name. -/
theorem create_past (hid : files.length + 1 < 3 * g.inodeAreaBlocks.toNat) (hpast : 16540 * 512 < 32 * es.length + 32)
    {name : String} {r : Option Inode} {d' : Disk}
    (he : (g.toEfs.rootInode.create g.toEfs name).exec d = some (r, d')) : d' = d := by
  rcases h.create_found hl hd.toIsDir he with ⟨-, hsame, -⟩ | hs
  · exact hsame
  have hnone : (g.toEfs.rootInode.create g.toEfs name).exec d = none := by
    refine exec_bind_none fun found e hfound => ?_
    rw [lookup_exec h hd.toIsDir hl.sound name, hs] at hfound
    cases hfound
    refine exec_bind_none fun id d1 he1 => exec_bind_none fun _ d2 he2 => exec_bind_of_none ?_ _
    obtain ⟨-, h2, hspace2⟩ := h.create_mid hl hd hspace hid he1 he2
    exact h2.append_past hl.sound hd.toIsDir hspace2 hpast _
  rw [hnone] at he
  cases he

omit hd in
/-- After `linkat` has counted the link. -/
theorem linkat_mid {j : Nat} (hj : j < files.length) {d1 : Disk}
    (he : ((g.toEfs.inode (UInt32.ofNat (j + 1))).modifyDiskInode fun di => pure ((), di.incNlink)).exec d = some ((), d1)) :
    Inv g (root :: files.modify j fun n => { n with nlink := n.nlink + 1 }) d1 ∧
      g.used d1 + FileRep.blocksFor (32 * es.length) (32 * es.length + 32) ≤ g.capacity := by
  have h1 := (h.setNlink hl hj (· + 1)).wlp () d1 he
  exact ⟨h1, by rw [h.used_setNlink (· + 1) h1]; exact hspace⟩

theorem linkat_orderly (oldpath newpath : String) :
    (g.toEfs.rootInode.linkat g.toEfs oldpath newpath).orderly 2 d [] := by
  have hg := hl.sound
  refine orderly_bind (h.lookup_orderly hg newpath) fun found e he => ?_
  obtain rfl := (g.toEfs.rootInode.lookup_nests (n := 0) newpath).exec_same (by decide) he
  split_ifs
  · exact orderly_pure _
  refine orderly_bind (h.lookup_orderly hg oldpath) fun old e he => ?_
  rw [lookup_exec h hd.toIsDir hg oldpath] at he
  obtain ⟨_, hold, heq⟩ := Option.map_eq_some_iff.mp he
  cases heq
  cases old with
  | none => exact orderly_pure _
  | some oldInodeId =>
    obtain ⟨j, hj, rfl⟩ := target hd hold
    -- both times `find` gives the file that the record names
    have hfind := find_exec h hd.toIsDir hg oldpath
    rw [hold] at hfind
    refine orderly_bind (h.find_orderly hg oldpath) fun t e he => ?_
    rw [hfind] at he
    cases he
    refine orderly_bind (orderly_unwrap _) fun t e he => ?_
    cases he
    refine orderly_bind (flat_orderly (Inode.readDiskInode_nests (w := true) _ fun _ => .assert)) fun _ e he => ?_
    obtain rfl := (Inode.readDiskInode_nests (n := 0) _ fun _ => .assert).exec_same (by decide) he
    refine orderly_bind (h.find_orderly hg oldpath) fun t e he => ?_
    rw [hfind] at he
    cases he
    refine orderly_bind (orderly_unwrap _) fun t e he => ?_
    cases he
    refine orderly_bind (flat_orderly (Inode.modifyDiskInode_nests _ fun _ => .ret _)) fun _ d1 he1 => ?_
    obtain ⟨h1, hspace1⟩ := h.linkat_mid hl hspace hj he1
    have hnew : Nests false 0 (DirEntry.new newpath (UInt32.ofNat (j + 1))) := DirEntry.new_nests _ _
    refine orderly_bind (hnew.orderly_zero rfl) fun dirent d2 he2 => ?_
    obtain rfl := hnew.exec_same (by decide) he2
    refine orderly_bind (h1.append_orderly hg hd.toIsDir hspace1 (.ret dirent)) fun _ _ _ => orderly_pure _

theorem linkat_past (hpast : 16540 * 512 < 32 * es.length + 32) {oldpath newpath : String} {r : Int} {d' : Disk}
    (he : (g.toEfs.rootInode.linkat g.toEfs oldpath newpath).exec d = some (r, d')) : d' = d := by
  rcases h.linkat_found hl hd he with ⟨-, hsame, -⟩ | ⟨j, hj, hs, hso⟩
  · exact hsame
  have hnone : (g.toEfs.rootInode.linkat g.toEfs oldpath newpath).exec d = none := by
    rw [h.linkat_exec hl hd hs hso hj]
    refine exec_bind_none fun _ d1 he1 => exec_bind_none fun dirent d2 he2 => exec_bind_of_none ?_ _
    obtain ⟨h1, hspace1⟩ := h.linkat_mid hl hspace hj he1
    obtain rfl := (DirEntry.new_nests (n := 0) newpath _).exec_same (by decide) he2
    exact h1.append_past hl.sound hd.toIsDir hspace1 hpast _
  rw [hnone] at he
  cases he

end Create

end Inv

/-! ## Runs -/

/-- What a client respects that does not know how large a file can get: it writes and clears files it has created, a write
is not empty, the inode number that `create` takes is inside the inode area, and the data area has the blocks. -/
def Permitted (g : Geometry) (d : Disk) : Call → Prop
  | .create _ => g.inodes d < 3 * g.inodeAreaBlocks.toNat ∧ g.RoomFor d 0 (g.sizeOf d 0 + 32)
  | .linkat _ _ => g.RoomFor d 0 (g.sizeOf d 0 + 32)
  | .find _ => True
  | .ls => True
  | .writeAt ino offset buf => (0 < ino.toNat ∧ ino.toNat < g.inodes d) ∧ buf ≠ [] ∧
      g.RoomFor d ino.toNat (offset + buf.length)
  | .readAt ino _ _ => ino.toNat < g.inodes d
  | .clear ino => 0 < ino.toNat ∧ ino.toNat < g.inodes d

/-- The sizes of the call are `u32`, rounded up to whole blocks too. -/
def Call.SizeFits : Call → Prop
  | .writeAt _ offset buf => offset + buf.length ≤ 2 ^ 32 - 512
  | _ => True

/-- A permitted call whose sizes fit returns. -/
def PermittedStep (g : Geometry) (fs : EasyFileSystem) (d d' : Disk) : Prop :=
  ∃ call a, Permitted g d call ∧ call.SizeFits ∧ (call.run fs).exec d = some (a, d')

namespace State

variable {g : Geometry} {es : List DirEntry} {root : Node} {files : List Node} {d : Disk}

theorem roomFor_root (h : State g es root files d) (hroom : g.RoomFor d 0 (g.sizeOf d 0 + 32)) :
    g.used d + FileRep.blocksFor (32 * es.length) (32 * es.length + 32) ≤ g.capacity := by
  rwa [Geometry.RoomFor, h.sizeOf_root] at hroom

/-- A call that returns keeps the state. -/
theorem permittedStep (hl : g.Laid) (h : State g es root files d) {d' : Disk} (hstep : PermittedStep g g.toEfs d d') :
    ∃ es' root' files', State g es' root' files' d' := by
  obtain ⟨call, a, hp, hfit, he⟩ := hstep
  have hadm : Admissible g d call → ∃ es' root' files', State g es' root' files' d' := by
    intro hadm
    obtain ⟨es', root', files', -, h'⟩ := (h.step hl hadm).2 a d' he
    exact ⟨es', root', files', h'⟩
  cases call with
  | create name =>
    obtain ⟨hid, hroom⟩ := hp
    by_cases hpast : 16540 * 512 < 32 * es.length + 32
    · rw [h.inodes_eq hl] at hid
      rw [Call.run, exec_bind_pure] at he
      obtain ⟨⟨r, e⟩, hexec, heq⟩ := Option.map_eq_some_iff.mp he
      cases heq
      obtain rfl := h.inv.create_past hl h.dir (h.roomFor_root hroom) hid hpast hexec
      exact ⟨es, root, files, h⟩
    · exact hadm ⟨hid, by rw [h.sizeOf_root]; exact Nat.not_lt.mp hpast, hroom⟩
  | linkat oldpath newpath =>
    by_cases hpast : 16540 * 512 < 32 * es.length + 32
    · rw [Call.run, exec_bind_pure] at he
      obtain ⟨⟨r, e⟩, hexec, heq⟩ := Option.map_eq_some_iff.mp he
      cases heq
      obtain rfl := h.inv.linkat_past hl h.dir (h.roomFor_root hp) hpast hexec
      exact ⟨es, root, files, h⟩
    · exact hadm ⟨by rw [h.sizeOf_root]; exact Nat.not_lt.mp hpast, hp⟩
  | find name => exact hadm trivial
  | ls => exact hadm trivial
  | writeAt ino offset buf =>
    obtain ⟨hino, hbuf, hroom⟩ := hp
    by_cases hpast : 16540 * 512 < offset + buf.length
    · obtain ⟨j, hj, rfl, hval⟩ := h.exists_file hl hino
      rw [Geometry.RoomFor, hval, h.sizeOf_file hj] at hroom
      have hnone := h.inv.writeAt_past hl.sound (Nat.succ_lt_succ hj) hpast hfit hroom
      rw [Call.run, exec_bind_of_none hnone] at he
      cases he
    · exact hadm ⟨hino, hbuf, Nat.not_lt.mp hpast, hroom⟩
  | readAt ino offset buf =>
    rw [Call.run, exec_bind] at he
    obtain ⟨⟨r, e⟩, hread, hret⟩ := Option.bind_eq_some_iff.mp he
    cases hret
    obtain rfl := (Inode.readAt_nests (n := 0) _ offset buf).exec_same (by decide) hread
    exact ⟨es, root, files, h⟩
  | clear ino => exact hadm hp

theorem permittedSteps (hl : g.Laid) (h : State g es root files d) {d' : Disk}
    (hsteps : Relation.ReflTransGen (PermittedStep g g.toEfs) d d') : ∃ es' root' files', State g es' root' files' d' := by
  induction hsteps with
  | refl => exact ⟨es, root, files, h⟩
  | tail _ hstep ih =>
    obtain ⟨es', root', files', h'⟩ := ih
    exact h'.permittedStep hl hstep

/-- The locks of one call. -/
theorem call_orderly (hl : g.Laid) (h : State g es root files d) {call : Call} (hp : Permitted g d call)
    (hfit : call.SizeFits) : (call.run g.toEfs).orderly 2 d [] := by
  cases call with
  | create name =>
    obtain ⟨hid, hroom⟩ := hp
    rw [h.inodes_eq hl] at hid
    exact orderly_bind (h.inv.create_orderly hl h.dir (h.roomFor_root hroom) hid name) fun _ _ _ => orderly_pure _
  | linkat oldpath newpath =>
    exact orderly_bind (h.inv.linkat_orderly hl h.dir (h.roomFor_root hp) oldpath newpath) fun _ _ _ => orderly_pure _
  | find name => exact orderly_bind (h.inv.find_orderly hl.sound name) fun _ _ _ => orderly_pure _
  | ls => exact orderly_bind (h.inv.ls_orderly hl.sound) fun _ _ _ => orderly_pure _
  | writeAt ino offset buf =>
    obtain ⟨hino, hbuf, hroom⟩ := hp
    obtain ⟨j, hj, rfl, hval⟩ := h.exists_file hl hino
    rw [Geometry.RoomFor, hval, h.sizeOf_file hj] at hroom
    exact orderly_bind (h.inv.writeAt_orderly hl.sound (Nat.succ_lt_succ hj) hbuf hfit hroom) fun _ _ _ => orderly_pure _
  | readAt ino offset buf =>
    rw [Permitted, h.inodes_eq hl] at hp
    have hi : ino.toNat < (root :: files).length := hp
    have hread : ((g.toEfs.inode (UInt32.ofNat ino.toNat)).readAt offset buf).orderly 2 d [] :=
      h.inv.read_orderly hl.sound hi (DiskInode.readAt_nests (w := true) _ _ _)
        ((h.inv.rep _ hi).file.readAt_own offset buf) (by decide)
    rw [UInt32.ofNat_toNat] at hread
    exact orderly_bind hread fun _ _ _ => orderly_pure _
  | clear ino =>
    obtain ⟨j, hj, rfl, -⟩ := h.exists_file hl hp
    exact orderly_bind (h.inv.clear_orderly hl.sound (Nat.succ_lt_succ hj)) fun _ _ _ => orderly_pure _

end State

/-- **Calls lock in order.** Take a file system that `create` makes, with the root inode in the inode area, and any state
that permitted calls lead to, their sizes within `u32`. A permitted call from there takes no lock that it holds, flushes the
cache only when it holds none, and has at most two handles when it asks for another block. So it does on the block cache
what it does on the plain blocks: no lock is waited for in vain, and the cache does not run out. -/
theorem calls_lock_in_order (total ib : UInt32) (dev : Disk) (fs : EasyFileSystem) (d : Disk)
    (h : (Geometry.compute total ib).NoUnderflow) (harea : 0 < (Geometry.compute total ib).inodeAreaBlocks.toNat)
    (he : (EasyFileSystem.create total ib).exec dev = some (fs, d)) (d' : Disk)
    (hsteps : Relation.ReflTransGen (PermittedStep (Geometry.compute total ib) fs) d d') (call : Call)
    (hp : Permitted (Geometry.compute total ib) d' call) (hfit : call.SizeFits) :
    (call.run fs).orderly 2 d' [] ∧
      ∀ s, AtRest d' s → RunsAlike (call.run fs) d' s fun d'' s' => AtRest d'' s' := by
  obtain ⟨rfl, hst⟩ := State.init h harea he
  have hl := Geometry.compute_laid h
  obtain ⟨es, root, files, hst'⟩ := hst.permittedSteps hl hsteps
  have hord := hst'.call_orderly hl hp hfit
  exact ⟨hord, fun s hs => orderly_runsAlike (by decide) hord hs⟩

/-- `create` of the first file in the packer's image, on a cache that holds nothing yet. -/
theorem calls_lock_in_order_packer : ∃ fs d,
    (EasyFileSystem.create 32768 1).exec (fun _ => Bytes.zero blockSz) = some (fs, d) ∧
      ((Call.create "a").run fs).orderly 2 d [] ∧
      RunsAlike ((Call.create "a").run fs) d (CacheState.empty fun _ => d) fun d' s' => AtRest d' s' := by
  have hu : (Geometry.compute 32768 1).NoUnderflow := by decide
  obtain ⟨fs, d, he, -⟩ := create_spec (fun _ => Bytes.zero blockSz) hu (by decide)
  obtain ⟨rfl, hst⟩ := State.init hu (by decide) he
  have hadm := packer_admissible hst "a"
  obtain ⟨hord, hruns⟩ := calls_lock_in_order 32768 1 _ _ d hu (by decide) he d .refl (.create "a") ⟨hadm.1, hadm.2.2⟩ trivial
  exact ⟨_, d, he, hord, hruns _ (AtRest.empty d)⟩

/-! ## Sizes that wrap -/

/-- The file gets its size, and no block. -/
theorem increaseSize_wrapped (fs : EasyFileSystem) {di : DiskInode} (hempty : di.size = 0) {newSize : UInt32}
    (hsize : 2 ^ 32 - 512 < newSize.toNat) :
    Inode.increaseSize fs newSize di = pure { di with size := newSize } := by
  have hwrap : dataBlocksOf newSize = 0 := by
    have hlt := newSize.toNat_lt
    have h512 : (512 : UInt32).toNat = 512 := rfl
    apply UInt32.toNat_inj.mp
    unfold dataBlocksOf
    rw [UInt32.toNat_div, UInt32.toNat_sub, UInt32.toNat_add, h512, UInt32.toNat_one, UInt32.toNat_zero]
    omega
  have htotal : totalBlocks newSize = 0 := by
    rw [totalBlocks, hwrap]
    rfl
  have hge : newSize ≥ di.size := by
    rw [hempty]
    exact UInt32.zero_le
  have hassert : (assert (newSize ≥ di.size) : EfsM Unit) = pure () := if_pos hge
  have hold : totalBlocks di.size = 0 := by
    rw [hempty]
    rfl
  rw [Inode.increaseSize, if_neg (UInt32.not_lt.mpr hge), DiskInode.blocksNumNeeded, hassert, htotal, hold]
  have hcur : di.dataBlocks = 0 := by
    rw [dataBlocks, hempty]
    rfl
  have hnew : ({ di with size := newSize } : DiskInode).dataBlocks = 0 := hwrap
  show di.increaseSize newSize [] = _
  simp only [DiskInode.increaseSize, hcur, hnew]
  rfl

/-- The first entry of a block that took the bytes of a number. -/
theorem u32At_splice_leEncode (blk : Block) (b : Nat) (rest : List UInt8) :
    u32At (blk.splice 0 ((leEncode 4 b ++ rest).take 512)) 0 = UInt32.ofNat b := by
  have hsplit : (leEncode 4 b ++ rest).take 512 = leEncode 4 b ++ rest.take 508 := by
    rw [List.take_append, leEncode_length, List.take_of_length_le (by rw [leEncode_length]; decide)]
  have hslice : (blk.splice 0 (leEncode 4 b ++ rest.take 508)).slice 0 4 = (blk.setWord 4 0 b).slice 0 4 := by
    refine Bytes.slice_congr fun k hk => ?_
    have hlen := leEncode_length 4 b
    have hblk : k < blockSz := show k < 512 by omega
    rw [Bytes.setWord, Bytes.byte_splice, Bytes.byte_splice, if_pos, if_pos, List.getD_append _ _ _ _ (by omega)]
    · omega
    · rw [List.length_append]
      omega
  have hword : Bytes.word 4 (blk.splice 0 (leEncode 4 b ++ rest.take 508)) 0 = b % 256 ^ 4 := by
    rw [Bytes.word, hslice]
    exact Bytes.word_setWord_same 4 blk (by decide)
  rw [hsplit, u32At, hword]
  apply UInt32.toNat_inj.mp
  rw [UInt32.toNat_ofNat', UInt32.toNat_ofNat']
  omega

/-- The loop of `write_at` from the last direct block on, with pointers that are zero. Block 0 takes the first bytes of the
buffer; it is then the index block as well, and names the block that is held. -/
theorem writeLoop_relocks {di : DiskInode} {d : Disk} {b : Nat} (h27 : di.direct[27] = 0) (hindirect : di.indirect1 = 0)
    (hb : b < 2 ^ 32) {last : Nat} (hlast : 14336 < last) (rest : List UInt8) (fuel n : Nat)
    (Q : Nat → Disk → List Nat → Prop) :
    ¬(writeLoop di last (leEncode 4 b ++ rest) (fuel + 2) 13824 0).locks n Q d [b] := by
  intro hlocks
  have hget : di.getBlockId (13824 / blockSz) = pure 0 := by
    rw [getBlockId, dif_pos (by decide)]
    exact congrArg pure h27
  have hget' : di.getBlockId (14336 / blockSz) = withRead 0 fun indirect => pure (u32At indirect 0) := by
    rw [getBlockId, dif_neg (by decide), if_pos (by decide), hindirect]
    rfl
  have hend : min ((13824 / blockSz + 1) * blockSz) last = 14336 := by
    show min 14336 last = 14336
    omega
  rw [writeLoop, hget, hend] at hlocks
  dsimp only at hlocks
  rw [if_neg (Nat.ne_of_lt hlast), locks_bind, locks_pure, locks_bind, locks_withModify, locks_pure] at hlocks
  obtain ⟨-, -, -, -, hlocks⟩ := hlocks
  rw [writeLoop, hget', locks_bind, locks_withRead, locks_pure] at hlocks
  obtain ⟨-, -, -, hlocks⟩ := hlocks
  dsimp only at hlocks
  rw [locks_bind, locks_withModify] at hlocks
  have hentry : u32At (Function.update d (UInt32.toNat 0)
      ((d (UInt32.toNat 0)).splice (13824 % blockSz) ((leEncode 4 b ++ rest).take 512)) 0) 0 = UInt32.ofNat b := by
    rw [show UInt32.toNat 0 = 0 from rfl, Function.update_self]
    exact u32At_splice_leEncode _ b rest
  have hnot := hlocks.1
  rw [List.drop_zero, hentry, UInt32.toNat_ofNat', Nat.mod_eq_of_lt hb, List.erase_cons_head, List.erase_cons_head] at hnot
  exact hnot List.mem_cons_self

/-- A write to an empty file that gets a size without a block. -/
theorem wrapped_write_relocks {g : Geometry} (hg : g.Sound) {i : Nat} (hi : i < 3 * g.inodeAreaBlocks.toNat)
    (h32 : i < 2 ^ 32) {d : Disk} {id : UInt32} (hslot : g.slot d i = DiskInode.initialized id .file)
    (hblock : 1 + g.inodeBitmapBlocks.toNat + i / 3 < 2 ^ 32) {rest : List UInt8}
    (hlo : 2 ^ 32 - 512 < 13828 + rest.length) (hhi : 13828 + rest.length < 2 ^ 32) (n : Nat) :
    ¬((g.toEfs.inode (UInt32.ofNat i)).writeAt g.toEfs 13824
      (leEncode 4 (1 + g.inodeBitmapBlocks.toNat + i / 3) ++ rest)).orderly n d [] := by
  generalize hb : 1 + g.inodeBitmapBlocks.toNat + i / 3 = b at hblock ⊢
  intro hord
  have hval : (UInt32.ofNat (13824 + (leEncode 4 b ++ rest).length)).toNat = 13828 + rest.length := by
    rw [UInt32.toNat_ofNat', List.length_append, leEncode_length]
    omega
  have hlast : min ((13824 + (leEncode 4 b ++ rest).length) % 2 ^ 64)
      (UInt32.ofNat (13824 + (leEncode 4 b ++ rest).length)).toNat = 13828 + rest.length := by
    rw [hval, List.length_append, leEncode_length]
    omega
  rw [orderly_iff, Inode.writeAt, locks_bind] at hord
  replace hord := Geometry.locks_of_modifyDiskInode hg hi h32 hord
  rw [hslot, locks_bind, hb, increaseSize_wrapped _ rfl (by rw [hval]; exact hlo), locks_pure, locks_bind,
    DiskInode.writeAt, locks_bind, locks_assert] at hord
  dsimp only at hord
  rw [hlast] at hord
  obtain ⟨fuel, hfuel⟩ : ∃ fuel, (13828 + rest.length) / blockSz - 13824 / blockSz + 1 = fuel + 2 := by
    refine ⟨(13828 + rest.length) / 512 - 28, ?_⟩
    show (13828 + rest.length) / 512 - 27 + 1 = _
    omega
  rw [hfuel] at hord
  exact writeLoop_relocks rfl rfl hblock (by omega) rest fuel n _ (hord (by omega))

/-! ### The disk inode of a new file -/

namespace Inv

variable {g : Geometry} {root : Node} {files : List Node} {es : List DirEntry} {d : Disk} (hl : g.Laid)
  (h : Inv g (root :: files) d)
  (hspace : g.used d + FileRep.blocksFor (32 * es.length) (32 * es.length + 32) ≤ g.capacity)
include hl h hspace

/-- A record of the root directory leaves the other disk inodes as they are. -/
theorem append_slot (hd : IsDir es root) (e : DirEntry) (hmax : 32 * es.length + 32 ≤ 16540 * 512) {j : Nat} (hj : 0 < j)
    (hin : j < (root :: files).length) :
    (g.toEfs.rootInode.modifyDiskInode fun rootInode => do
      let rootInode ← Inode.appendDirent g.toEfs (pure e) rootInode
      pure ((), rootInode)).wp (fun _ d' => g.slot d' j = g.slot d j) d := by
  have harea := h.inArea
  have hpos : 0 < (root :: files).length := Nat.succ_pos _
  have hused : g.used d = (root.blocks ++ others (root :: files) 0).length := h.used_eq hpos
  obtain ⟨-, hfile⟩ := root_rep h hd
  refine (Geometry.wp_modifyDiskInode hl.sound (i := 0) (by omega) (by omega) _ _ d).mpr ?_
  simp only [wp_bind, wp_pure]
  refine wp_mono (hfile.appendDirent hl.sound (h.split hpos) e hmax (by rw [← hused]; exact hspace)) ?_
  rintro di' d1 ⟨v, -, ho, -, hframe⟩
  have hlow : ∀ x, x < g.toEfs.dataBitmap.startBlockId → d1 x = d x := fun x hx =>
    frame_low (dataBitmap_le_dataStart hl.sound) (fun b hb => (mods_apart ho b hb).1) hframe hx
  rw [Geometry.slot_update (i := 0) di' (hlow _ (h.slot_lt hl.sound hpos)) j, if_neg (by omega), Geometry.slot, Geometry.slot,
    hlow _ (h.slot_lt hl.sound hin)]

/-- The disk inode of a new file has no pointers. -/
theorem create_slot (hd : Dir es root files) (hid : files.length + 1 < 3 * g.inodeAreaBlocks.toNat)
    (hmax : 32 * es.length + 32 ≤ 16540 * 512) {name : String} (hscan : scan name es = some none)
    (hfit : (nameBytes name).length ≤ 28) : (g.toEfs.rootInode.create g.toEfs name).wp (fun _ d' =>
      g.slot d' (files.length + 1) = DiskInode.initialized (UInt32.ofNat (files.length + 1)) .file) d := by
  have hlook := lookup_exec h hd.toIsDir hl.sound name
  rw [hscan] at hlook
  obtain ⟨r, d', he, -⟩ := h.create_new hl hd hscan hfit hid hmax hspace
  refine ⟨r, d', he, ?_⟩
  have hwp := wp_eq_iff.mpr he
  rw [Inode.create, wp_bind_of_exec hlook, Option.isSome_none, if_neg Bool.false_ne_true, wp_bind] at hwp
  obtain ⟨id, d1, he1, hwp⟩ := hwp
  rw [wp_bind] at hwp
  obtain ⟨_, d2, he2, hwp⟩ := hwp
  rw [wp_bind, DirEntry.new_of_le hfit] at hwp
  obtain ⟨_, d3, he3, hwp⟩ := hwp
  simp only [wp_bind, wp_sync, wp_pure] at hwp
  obtain ⟨-, rfl⟩ := hwp
  obtain ⟨rfl, h2, hspace2⟩ := h.create_mid hl hd hspace hid he1 he2
  -- the record is appended after the new inode is in its slot
  have hkeep := (h2.append_slot hl hspace2 hd.toIsDir _ hmax (Nat.succ_pos files.length) (by simp)).wlp _ _ he3
  have hcount := h2.small
  rw [List.length_cons, List.length_append, List.length_singleton] at hcount
  have hmade := (Geometry.wp_modifyDiskInode hl.sound hid (by omega) _ _ d1).mp (wp_eq_iff.mpr he2)
  obtain ⟨-, rfl⟩ := (wp_pure ..).mp hmade
  exact hkeep.trans ((Geometry.slot_update _ rfl _).trans (if_pos rfl))

end Inv

/-- A write that locks a block twice: a new file of an image of eight gigabytes, and a buffer of nearly four. No block is
allocated for it. -/
theorem wrapped_write_locks_twice : ∃ d d' : Disk,
    (EasyFileSystem.create 16777216 1).exec (fun _ => Bytes.zero blockSz) =
        some ((Geometry.compute 16777216 1).toEfs, d) ∧
      Relation.ReflTransGen (PermittedStep (Geometry.compute 16777216 1) (Geometry.compute 16777216 1).toEfs) d d' ∧
      Permitted (Geometry.compute 16777216 1) d' (.writeAt 1 13824 (leEncode 4 2 ++ List.replicate (2 ^ 32 - 13928) 0)) ∧
      ∀ n, ¬((Call.writeAt 1 13824 (leEncode 4 2 ++ List.replicate (2 ^ 32 - 13928) 0)).run
        (Geometry.compute 16777216 1).toEfs).orderly n d' [] := by
  have hlen : (List.replicate (2 ^ 32 - 13928) (0 : UInt8)).length = 2 ^ 32 - 13928 := List.length_replicate
  generalize List.replicate (2 ^ 32 - 13928) (0 : UInt8) = rest at hlen ⊢
  have hu : (Geometry.compute 16777216 1).NoUnderflow := by decide
  have hl := Geometry.compute_laid hu
  obtain ⟨fs, d, he, -⟩ := create_spec (fun _ => Bytes.zero blockSz) hu (by decide)
  obtain ⟨rfl, hst⟩ := State.init hu (by decide) he
  have hp : Permitted (Geometry.compute 16777216 1) d (.create "a") := by
    refine ⟨?_, ?_⟩
    · rw [hst.inodes_eq hl]
      decide
    · rw [Geometry.RoomFor, hst.sizeOf_root, hst.inv.owned.used]
      decide
  have hid := hp.1
  rw [hst.inodes_eq hl] at hid
  have hspace := hst.roomFor_root hp.2
  have hscan : scan "a" [] = some none := rfl
  obtain ⟨r, d', hc, hslot⟩ := hst.inv.create_slot hl hspace hst.dir hid (by decide) hscan (by decide)
  have hstep : PermittedStep (Geometry.compute 16777216 1) (Geometry.compute 16777216 1).toEfs d d' := by
    refine ⟨.create "a", .inode r, hp, trivial, ?_⟩
    rw [Call.run, exec_bind_pure, hc]
    rfl
  have hadm : Admissible (Geometry.compute 16777216 1) d (.create "a") := by
    refine ⟨hp.1, ?_, hp.2⟩
    rw [hst.sizeOf_root]
    decide
  rcases hst.create hl hadm hc with ⟨-, -, id, hnone⟩ | ⟨-, -, bs, hst'⟩
  · cases hnone
  have hbs : bs.length = 1 := hst'.root_blocks
  refine ⟨d, d', he, .single hstep, ⟨⟨by decide, ?_⟩, ?_, ?_⟩, fun n hord => ?_⟩
  · rw [hst'.inodes_eq hl]
    decide
  · exact List.append_ne_nil_of_left_ne_nil (by decide) rest
  · have hsize : (Geometry.compute 16777216 1).sizeOf d' 1 = 0 := hst'.sizeOf_file (j := 0) (by decide)
    have hused : (Geometry.compute 16777216 1).used d' = 1 := by
      rw [hst'.inv.owned.used]
      show (bs ++ []).length = 1
      rw [List.append_nil, hbs]
    have hend : 13824 + (leEncode 4 2 ++ rest).length = 2 ^ 32 - 100 := by
      rw [List.length_append, leEncode_length]
      omega
    show Geometry.used _ d' + FileRep.blocksFor (Geometry.sizeOf _ d' 1) _ ≤ _
    rw [hused, hsize, hend]
    decide
  · exact wrapped_write_relocks hl.sound (i := 1) (by decide) (by decide) hslot (by decide) (by omega) (by omega) n
      (orderly_bind_pure.mp hord)

end RCore.EasyFs
