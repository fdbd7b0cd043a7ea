import RCore.EasyFs.Verify.FileRep

/-!
# The state of a file system

`Node` is the abstract inode: its bytes, link count and type, and the blocks that hold the bytes.
`Inv g nodes d` says that the disk `d` stores the inodes `nodes`, numbered from 0: the inode bitmap
marks their numbers, each slot holds its disk inode, and the blocks in use are the blocks of the
inodes, each in one inode only.

A call works on one inode at a time: it takes the disk inode out of its slot, works on the blocks of
the file, and stores the disk inode back. `Inv.store` is the second half of this for an inode that
exists, `Inv.push` for a new one.
-/

namespace RCore.EasyFs

open RCore Prog DiskInode

/-- An inode: its bytes, its link count, its type and its blocks. -/
structure Node where
  content : List UInt8
  nlink : UInt32
  type : DiskInodeType
  blocks : List UInt32

namespace Geometry

/-- A geometry as `create` computes it: the regions add up, and the inode bitmap covers the slots of
the inode area. -/
structure Laid (g : Geometry) : Prop where
  sound : g.Sound
  covered : 3 * g.inodeAreaBlocks.toNat ≤ g.toEfs.inodeBitmap.maxBits

theorem compute_laid {total ib : UInt32} (h : (compute total ib).NoUnderflow) :
    (compute total ib).Laid := by
  refine ⟨compute_sound h, ?_⟩
  have harea := compute_inodeAreaBlocks total ib
  have hle := Nat.mod_le (1088 * ib.toNat) (2 ^ 32)
  have hmax : (compute total ib).toEfs.inodeBitmap.maxBits = ib.toNat * 4096 := rfl
  omega

/-- The disk inode in slot `i`. -/
def slot (g : Geometry) (d : Disk) (i : Nat) : DiskInode :=
  DiskInode.decode (d (1 + g.inodeBitmapBlocks.toNat + i / 3)) (i % 3 * 136)

variable {g : Geometry}

theorem inode_eq (hg : g.Sound) {i : Nat} (hi : i < 3 * g.inodeAreaBlocks.toNat) (h32 : i < 2 ^ 32) :
    g.toEfs.inode (UInt32.ofNat i) = ⟨1 + g.inodeBitmapBlocks.toNat + i / 3, i % 3 * 136⟩ := by
  have hval : (UInt32.ofNat i).toNat = i := by
    rw [UInt32.toNat_ofNat']
    exact Nat.mod_eq_of_lt h32
  unfold EasyFileSystem.inode
  rw [getDiskInodePos_fst hg (by rw [hval]; omega), getDiskInodePos_snd, hval]

/-- Running on a disk inode, read-only. -/
theorem wp_readDiskInode (hg : g.Sound) {i : Nat} (hi : i < 3 * g.inodeAreaBlocks.toNat)
    (h32 : i < 2 ^ 32) {α : Type} (f : DiskInode → EfsM α) (Q : α → Disk → Prop) (d : Disk) :
    ((g.toEfs.inode (UInt32.ofNat i)).readDiskInode f).wp Q d ↔ (f (g.slot d i)).wp Q d := by
  have hoff : i % 3 * 136 + diskInodeSize ≤ blockSz := by
    show i % 3 * 136 + 136 ≤ 512
    omega
  rw [inode_eq hg hi h32]
  simp only [Inode.readDiskInode, wp_withRead, wp_bind, wp_assert, hoff, true_and]
  rfl

/-- Running on a disk inode that is stored back. -/
theorem wp_modifyDiskInode (hg : g.Sound) {i : Nat} (hi : i < 3 * g.inodeAreaBlocks.toNat)
    (h32 : i < 2 ^ 32) {α : Type} (f : DiskInode → EfsM (α × DiskInode)) (Q : α → Disk → Prop)
    (d : Disk) :
    ((g.toEfs.inode (UInt32.ofNat i)).modifyDiskInode f).wp Q d ↔
      (f (g.slot d i)).wp (fun r d' => Q r.1
        (Function.update d' (1 + g.inodeBitmapBlocks.toNat + i / 3)
          (r.2.encode (d (1 + g.inodeBitmapBlocks.toNat + i / 3)) (i % 3 * 136)))) d := by
  have hoff : i % 3 * 136 + diskInodeSize ≤ blockSz := by
    show i % 3 * 136 + 136 ≤ 512
    omega
  rw [inode_eq hg hi h32]
  simp only [Inode.modifyDiskInode, wp_withModify, wp_bind, wp_assert, wp_pure, hoff, true_and]
  rfl

/-- Storing a disk inode in slot `i` changes that slot alone. -/
theorem slot_update {d d1 : Disk} {i : Nat} (di : DiskInode)
    (hsame : d1 (1 + g.inodeBitmapBlocks.toNat + i / 3) = d (1 + g.inodeBitmapBlocks.toNat + i / 3))
    (j : Nat) :
    g.slot (Function.update d1 (1 + g.inodeBitmapBlocks.toNat + i / 3)
      (di.encode (d (1 + g.inodeBitmapBlocks.toNat + i / 3)) (i % 3 * 136))) j =
      if j = i then di else g.slot d1 j := by
  unfold slot
  by_cases hji : j = i
  · rw [if_pos hji, hji, Function.update_self, decode_encode_same _ _ (by omega)]
  · rw [if_neg hji]
    by_cases hblk : j / 3 = i / 3
    · rw [hblk, Function.update_self, decode_encode_disjoint _ _ (by omega), hsame]
    · rw [Function.update_of_ne (by omega)]

end Geometry

/-- The disk inode `di` is that of inode `i`, with the state `n`. -/
structure NodeRep (d : Disk) (di : DiskInode) (i : Nat) (n : Node) : Prop where
  id : di.inodeId = UInt32.ofNat i
  nlink : di.nlink = n.nlink
  type : di.type = n.type
  file : FileRep d di n.content n.blocks

/-- The disk `d` stores the inodes `nodes`. -/
structure Inv (g : Geometry) (nodes : List Node) (d : Disk) : Prop where
  inArea : nodes.length ≤ 3 * g.inodeAreaBlocks.toNat
  small : nodes.length < 2 ^ 32
  bits : ∀ k, k < g.toEfs.inodeBitmap.maxBits →
    (g.toEfs.inodeBitmap.bit d k = true ↔ k < nodes.length)
  rep : ∀ i (hi : i < nodes.length), NodeRep d (g.slot d i) i nodes[i]
  owned : Owned g (nodes.flatMap Node.blocks) d

namespace NodeRep

variable {d d' : Disk} {di di' : DiskInode} {i : Nat} {n : Node}

theorem congr (h : NodeRep d di i n) (hd : ∀ b ∈ n.blocks, d' b.toNat = d b.toNat) :
    NodeRep d' di i n :=
  ⟨h.id, h.nlink, h.type, h.file.congr hd rfl rfl rfl rfl⟩

/-- The same inode with other bytes in other blocks. -/
theorem withFile (h : NodeRep d di i n) (hmeta : SameMeta di di') {c : List UInt8}
    {bs : List UInt32} (hf : FileRep d' di' c bs) :
    NodeRep d' di' i { n with content := c, blocks := bs } :=
  ⟨hmeta.1.trans h.id, hmeta.2.1.trans h.nlink, hmeta.2.2.trans h.type, hf⟩

end NodeRep

namespace Inv

variable {g : Geometry} {nodes : List Node} {d : Disk}

/-- The blocks of the inodes other than `i`. -/
def others (nodes : List Node) (i : Nat) : List UInt32 := (nodes.eraseIdx i).flatMap Node.blocks

theorem flatMap_perm {i : Nat} (hi : i < nodes.length) :
    (nodes.flatMap Node.blocks).Perm (nodes[i].blocks ++ others nodes i) :=
  (List.getElem_cons_eraseIdx_perm hi).symm.flatMap_right Node.blocks

theorem flatMap_set_perm {i : Nat} (hi : i < nodes.length) (n : Node) :
    ((nodes.set i n).flatMap Node.blocks).Perm (n.blocks ++ others nodes i) :=
  (List.set_perm_cons_eraseIdx hi n).flatMap_right Node.blocks

theorem mem_others {i j : Nat} (hj : j < nodes.length) (hne : j ≠ i) {b : UInt32}
    (hb : b ∈ nodes[j].blocks) : b ∈ others nodes i :=
  List.mem_flatMap.mpr ⟨nodes[j], List.mem_eraseIdx_iff_getElem.mpr ⟨j, hj, hne, rfl⟩, hb⟩

/-- Inode `i` and the rest, apart. -/
theorem split (h : Inv g nodes d) {i : Nat} (hi : i < nodes.length) :
    Owned g (nodes[i].blocks ++ others nodes i) d :=
  h.owned.perm (flatMap_perm hi)

section Regions

variable (hg : g.Sound)
include hg

/-- A slot is in the inode area. -/
theorem slot_lt (h : Inv g nodes d) {i : Nat} (hi : i < nodes.length) :
    1 + g.inodeBitmapBlocks.toNat + i / 3 < g.toEfs.dataBitmap.startBlockId := by
  have harea := h.inArea
  rw [Geometry.toEfs_dataBitmapStart hg]
  omega

theorem dataBitmap_le_dataStart : g.toEfs.dataBitmap.startBlockId ≤ g.dataStart := by
  rw [Geometry.dataStart_eq hg]
  omega

omit hg in
/-- Work on data blocks leaves the blocks below the data bitmap as they are. -/
theorem frame_low (hdata : g.toEfs.dataBitmap.startBlockId ≤ g.dataStart) {d1 : Disk} {mods : List UInt32}
    (hmods : ∀ b ∈ mods, g.dataStart ≤ b.toNat) (hframe : FileRep.FrameOf g mods d d1) {x : Nat}
    (hx : x < g.toEfs.dataBitmap.startBlockId) : d1 x = d x := by
  apply hframe x (.inl hx)
  intro b hb heq
  have hlo := hmods b hb
  omega

/-- **Storing an inode.** Work on inode `i` that changes only its own blocks (old or new), and the
data bitmap to match, followed by the store of its disk inode. -/
theorem store (h : Inv g nodes d) {i : Nat} (hi : i < nodes.length) {n : Node} {di : DiskInode}
    {d1 : Disk} {mods : List UInt32} (hrep : NodeRep d1 di i n)
    (ho : Owned g (n.blocks ++ others nodes i) d1)
    (hmods : ∀ b ∈ mods, g.dataStart ≤ b.toNat ∧ b ∉ others nodes i)
    (hframe : FileRep.FrameOf g mods d d1) :
    Inv g (nodes.set i n) (Function.update d1 (1 + g.inodeBitmapBlocks.toNat + i / 3)
      (di.encode (d (1 + g.inodeBitmapBlocks.toNat + i / 3)) (i % 3 * 136))) := by
  have hdata := dataBitmap_le_dataStart hg
  have hslot := h.slot_lt hg hi
  -- below the data bitmap nothing has changed yet
  have hlow : ∀ x, x < g.toEfs.dataBitmap.startBlockId → d1 x = d x := fun x hx =>
    frame_low hdata (fun b hb => (hmods b hb).1) hframe hx
  -- and the store is below the data bitmap
  have hhigh : ∀ x, g.toEfs.dataBitmap.startBlockId ≤ x → Function.update d1
      (1 + g.inodeBitmapBlocks.toNat + i / 3)
      (di.encode (d (1 + g.inodeBitmapBlocks.toNat + i / 3)) (i % 3 * 136)) x = d1 x := by
    intro x hx
    exact Function.update_of_ne (by omega) _ _
  refine ⟨by rw [List.length_set]; exact h.inArea, by rw [List.length_set]; exact h.small, ?_, ?_, ?_⟩
  · intro k hk
    rw [List.length_set, ← h.bits k hk, Bitmap.bit_congr _ _ hk]
    intro x hx
    have hx' : 1 ≤ x ∧ x < 1 + g.inodeBitmapBlocks.toNat := by
      have hx'' : ¬ (x < 1 ∨ 1 + g.inodeBitmapBlocks.toNat ≤ x) := hx
      omega
    rw [Function.update_of_ne (by omega), hlow x (by omega)]
  · intro j hj
    rw [List.length_set] at hj
    have hblocks : ∀ b : UInt32, g.dataStart ≤ b.toNat → Function.update d1
        (1 + g.inodeBitmapBlocks.toNat + i / 3)
        (di.encode (d (1 + g.inodeBitmapBlocks.toNat + i / 3)) (i % 3 * 136)) b.toNat =
          d1 b.toNat := fun b hb => hhigh _ (by omega)
    rw [Geometry.slot_update di (hlow _ hslot) j]
    by_cases hji : j = i
    · subst hji
      rw [if_pos rfl, List.getElem_set_self]
      exact hrep.congr fun b hb => hblocks b (ho.inArea b (List.mem_append_left _ hb)).1
    · rw [if_neg hji, List.getElem_set_ne (Ne.symm hji)]
      have hslotj : g.slot d1 j = g.slot d j := by
        unfold Geometry.slot
        rw [hlow _ (h.slot_lt hg hj)]
      rw [hslotj]
      refine (h.rep j hj).congr fun b hb => ?_
      have hmem := mem_others hj hji hb
      have hlo := (ho.inArea b (List.mem_append_right _ hmem)).1
      rw [hblocks b hlo]
      apply hframe _ (Geometry.outside_of_dataStart_le hg hlo)
      intro c hc heq
      exact (hmods c hc).2 (UInt32.toNat_inj.mp heq ▸ hmem)
  · refine (ho.congr hg fun x hx _ => hhigh x hx).perm ?_
    exact (flatMap_set_perm hi n).symm

/-- The disk with the bit of the next inode number set. -/
theorem push (h : Inv g nodes d) {d1 : Disk} (hn : nodes.length < 3 * g.inodeAreaBlocks.toNat)
    (hsmall : nodes.length + 1 < 2 ^ 32)
    (hbits : ∀ j, g.toEfs.inodeBitmap.bit d1 j =
      (g.toEfs.inodeBitmap.bit d j || decide (j = nodes.length)))
    (hout : ∀ x, g.toEfs.inodeBitmap.Outside x → d1 x = d x) (type : DiskInodeType) :
    Inv g (nodes ++ [⟨[], 1, type, []⟩])
      (Function.update d1 (1 + g.inodeBitmapBlocks.toNat + nodes.length / 3)
        ((DiskInode.initialized (UInt32.ofNat nodes.length) type).encode
          (d1 (1 + g.inodeBitmapBlocks.toNat + nodes.length / 3)) (nodes.length % 3 * 136))) := by
  have hdata := dataBitmap_le_dataStart hg
  have hstart := Geometry.toEfs_dataBitmapStart hg
  have hlen : (nodes ++ [(⟨[], 1, type, []⟩ : Node)]).length = nodes.length + 1 := by simp
  have hafter : ∀ x, 1 + g.inodeBitmapBlocks.toNat ≤ x → d1 x = d x := fun x hx => hout x (.inr hx)
  have hhigh : ∀ x, g.toEfs.dataBitmap.startBlockId ≤ x → Function.update d1
      (1 + g.inodeBitmapBlocks.toNat + nodes.length / 3)
      ((DiskInode.initialized (UInt32.ofNat nodes.length) type).encode
        (d1 (1 + g.inodeBitmapBlocks.toNat + nodes.length / 3)) (nodes.length % 3 * 136)) x =
          d x := by
    intro x hx
    rw [Function.update_of_ne (by omega), hafter x (by omega)]
  refine ⟨by rw [hlen]; exact hn, by rw [hlen]; exact hsmall, ?_, ?_, ?_⟩
  · intro k hk
    rw [hlen, Bitmap.bit_congr _ (d := d1) _ hk, hbits, Bool.or_eq_true, h.bits k hk,
      decide_eq_true_iff]
    · omega
    · intro x hx
      have hx' : ¬ (x < 1 ∨ 1 + g.inodeBitmapBlocks.toNat ≤ x) := hx
      exact Function.update_of_ne (by omega) _ _
  · intro j hj
    rw [hlen] at hj
    rw [Geometry.slot_update _ rfl j]
    by_cases hjn : j = nodes.length
    · subst hjn
      rw [if_pos rfl, List.getElem_concat_length rfl]
      exact ⟨rfl, rfl, rfl, FileRep.empty rfl⟩
    · have hj' : j < nodes.length := by omega
      have hslot : g.slot d1 j = g.slot d j := by
        unfold Geometry.slot
        rw [hafter _ (by omega)]
      rw [if_neg hjn, List.getElem_append_left hj', hslot]
      refine (h.rep j hj').congr fun b hb => hhigh _ ?_
      have hlo := (h.owned.inArea b (List.mem_flatMap.mpr ⟨_, List.getElem_mem hj', hb⟩)).1
      omega
  · have ho := h.owned.congr hg fun x hx _ => hhigh x hx
    simpa using ho

end Regions

/-- The state of a fresh file system: the empty root directory. -/
theorem init {total ib : UInt32} {dev d : Disk} (hg : (Geometry.compute total ib).Sound)
    (harea : 0 < (Geometry.compute total ib).inodeAreaBlocks.toNat)
    (hc : CreatePost (Geometry.compute total ib) dev d) :
    Inv (Geometry.compute total ib) [⟨[], 1, .directory, []⟩] d := by
  generalize Geometry.compute total ib = g at *
  have hdata := dataBitmap_le_dataStart hg
  have hstart := Geometry.toEfs_dataBitmapStart hg
  have hdst := Geometry.dataStart_eq hg
  have hzero : ∀ x, g.toEfs.dataBitmap.startBlockId ≤ x →
      x < g.dataStart + g.dataAreaBlocks.toNat → d x = Bytes.zero blockSz := by
    intro x hx hlt
    rw [hc.rest x (by omega)]
    apply if_pos
    unfold Geometry.Sound at hg
    omega
  refine ⟨by simp only [List.length_singleton]; omega, by simp, ?_, ?_, ?_⟩
  · intro k hk
    rw [hc.bits k hk, List.length_singleton]
    omega
  · intro i hi
    have hi0 : i = 0 := by
      rw [List.length_singleton] at hi
      omega
    subst hi0
    have hslot : g.slot d 0 = DiskInode.initialized 0 .directory := by
      unfold Geometry.slot
      rw [Nat.zero_div, Nat.add_zero, hc.root]
      exact decode_encode_same _ _ (by omega)
    rw [hslot]
    exact ⟨rfl, rfl, rfl, FileRep.empty rfl⟩
  · refine ⟨List.nodup_nil, fun b hb => absurd hb List.not_mem_nil, ?_, ?_⟩
    · intro k hk
      have hbit : g.toEfs.dataBitmap.bit d k = false := by
        have hdiv : k / 4096 < g.dataBitmapBlocks.toNat := by
          rw [maxBits_dataBitmap] at hk
          omega
        unfold Bitmap.bit
        rw [blockBits_eq, hzero _ (by omega) (by omega), Bitmap.blockBit_zero]
      simp [hbit]
    · intro x h1 h2 _
      exact hzero x (by omega) h2

end Inv

end RCore.EasyFs
