import RCore.EasyFs.Verify.Invariant

/-!
# Calls on the inodes

What `write_at`, `read_at`, `clear`, `find`, `ls`, `create` and `linkat` do to the inodes of a file
system in the state `Inv g nodes d`. The root directory is a file of 32-byte records:
`Dir es root files` says that its bytes are those of the entries `es` and that these refer to files.
-/

namespace RCore.EasyFs

open RCore Prog DiskInode

/-! ## Space -/

/-- The number of blocks that the data bitmap marks. -/
def Geometry.used (g : Geometry) (d : Disk) : Nat :=
  ((List.range g.toEfs.dataBitmap.maxBits).filter fun k => g.toEfs.dataBitmap.bit d k).length

theorem Owned.used {g : Geometry} {owned : List UInt32} {d : Disk} (h : Owned g owned d) :
    g.used d = owned.length := by
  have hperm : (((List.range g.toEfs.dataBitmap.maxBits).filter fun k =>
      g.toEfs.dataBitmap.bit d k).map (g.dataStart + ·)).Perm (owned.map UInt32.toNat) := by
    refine (List.perm_ext_iff_of_nodup ?_ ?_).mpr ?_
    · exact (List.nodup_range.filter _).map fun _ _ h => Nat.add_left_cancel h
    · exact h.nodup.map fun _ _ h => UInt32.toNat_inj.mp h
    · intro x
      simp only [List.mem_map, List.mem_filter, List.mem_range]
      constructor
      · rintro ⟨k, ⟨hk, hbit⟩, rfl⟩
        exact (h.bits k hk).mp hbit
      · rintro ⟨b, hb, rfl⟩
        obtain ⟨hlo, hhi⟩ := h.inArea b hb
        have hcap : g.capacity ≤ g.toEfs.dataBitmap.maxBits := Nat.min_le_right _ _
        refine ⟨b.toNat - g.dataStart, ⟨by omega, ?_⟩, by omega⟩
        exact (h.bits _ (by omega)).mpr ⟨b, hb, by omega⟩
  have hlen := hperm.length_eq
  simpa [Geometry.used] using hlen

namespace Inv

section Calls

variable {g : Geometry} {nodes : List Node} {d : Disk}

theorem used_eq (h : Inv g nodes d) {i : Nat} (hi : i < nodes.length) :
    g.used d = (nodes[i].blocks ++ others nodes i).length :=
  (h.split hi).used

/-- The blocks of inode `i`, before or after a call on it, are not those of another inode. -/
theorem mods_apart {bs others : List UInt32} (ho : Owned g (bs ++ others) d) :
    ∀ b ∈ bs, g.dataStart ≤ b.toNat ∧ b ∉ others := by
  intro b hb
  refine ⟨(ho.inArea b (List.mem_append_left _ hb)).1, fun hmem => ?_⟩
  exact (List.nodup_append.mp ho.nodup).2.2 b hb b hmem rfl

variable (hg : g.Sound)
include hg

/-! ## Files -/

/-- `write_at` splices the buffer into the bytes of one inode. -/
theorem writeAt (h : Inv g nodes d) {i : Nat} (hi : i < nodes.length) {off : Nat}
    {buf : List UInt8} (hbuf : buf ≠ []) (hmax : off + buf.length ≤ 16540 * 512)
    (hspace : g.used d + FileRep.blocksFor nodes[i].content.length (off + buf.length) ≤ g.capacity) :
    ((g.toEfs.inode (UInt32.ofNat i)).writeAt g.toEfs off buf).wp (fun r d' => r = buf.length ∧
      ∃ bs, Inv g (nodes.set i { nodes[i] with
        content := FileRep.writeContent nodes[i].content off buf, blocks := bs }) d') d := by
  have hrep := h.rep i hi
  simp only [Inode.writeAt, wp_bind, wp_sync, wp_pure]
  rw [Geometry.wp_modifyDiskInode hg (by have := h.inArea; omega) (by have := h.small; omega)]
  have hw := hrep.file.growWrite hg (h.split hi) hbuf hmax (by rw [← h.used_eq hi]; exact hspace)
  simp only [wp_bind, wp_pure] at hw ⊢
  refine wp_mono hw ?_
  rintro di1 d1 hw1
  refine wp_mono hw1 ?_
  rintro n d2 ⟨rfl, v, hf, ho, hmeta, hframe⟩
  exact ⟨rfl, _, h.store hg hi (hrep.withFile hmeta hf) ho (mods_apart ho) hframe⟩

/-- `read_at` returns a slice of the bytes. -/
theorem readAt (h : Inv g nodes d) {i : Nat} (hi : i < nodes.length) {off : Nat}
    (hoff : off < 2 ^ 64) {buf : List UInt8} (hbuf : buf.length < 2 ^ 63) :
    ((g.toEfs.inode (UInt32.ofNat i)).readAt off buf).wp (fun r d' => d' = d ∧
      r.1 = (FileRep.readContent nodes[i].content off buf.length).length ∧
      r.2 = FileRep.readContent nodes[i].content off buf.length ++
        buf.drop (FileRep.readContent nodes[i].content off buf.length).length) d := by
  unfold Inode.readAt
  rw [Geometry.wp_readDiskInode hg (by have := h.inArea; omega) (by have := h.small; omega)]
  exact (h.rep i hi).file.readAt hoff hbuf

/-- `clear` empties one inode. It does not panic: the blocks it deallocates are allocated, and as
many as `total_blocks` says. -/
theorem clear (h : Inv g nodes d) {i : Nat} (hi : i < nodes.length) :
    ((g.toEfs.inode (UInt32.ofNat i)).clear g.toEfs).wp (fun _ d' =>
      Inv g (nodes.set i { nodes[i] with content := [], blocks := [] }) d') d := by
  have hrep := h.rep i hi
  simp only [Inode.clear, wp_bind, wp_sync, wp_pure]
  rw [Geometry.wp_modifyDiskInode hg (by have := h.inArea; omega) (by have := h.small; omega)]
  have hc := hrep.file.clear hg (h.split hi)
  refine wp_mono hc ?_
  rintro r d1 ⟨hf, ho, hmeta, hframe⟩
  refine h.store hg hi (hrep.withFile hmeta hf) ?_ (mods_apart (h.split hi)) hframe
  rwa [List.nil_append]

end Calls

end Inv

/-! ## The root directory -/

/-- The root directory holds the records `es`. -/
structure IsDir (es : List DirEntry) (root : Node) : Prop where
  type : root.type = .directory
  content : root.content = es.flatMap DirEntry.asBytes

/-- The root directory holds the records `es`, and these refer to files. -/
structure Dir (es : List DirEntry) (root : Node) (files : List Node) : Prop
    extends IsDir es root where
  targets : ∀ e ∈ es, 0 < e.inodeNumber.toNat ∧ e.inodeNumber.toNat ≤ files.length
  areFiles : ∀ n ∈ files, n.type = .file
  count : files.length ≤ es.length

/-- The scan of `find_inode_id` over the records: `none` where a record has no proper name. -/
def scan (name : String) : List DirEntry → Option (Option UInt32)
  | [] => some none
  | e :: es => e.getName.bind fun n => if n = name then some (some e.inodeNumber) else scan name es

theorem scan_mem {name : String} {es : List DirEntry} {id : UInt32}
    (h : scan name es = some (some id)) : ∃ e ∈ es, e.inodeNumber = id ∧ e.getName = some name := by
  induction es with
  | nil => cases h
  | cons e es ih =>
    obtain ⟨n, hn, hif⟩ := Option.bind_eq_some_iff.mp h
    by_cases heq : n = name
    · rw [if_pos heq] at hif
      cases hif
      exact ⟨e, List.mem_cons_self, rfl, by rw [hn, heq]⟩
    · rw [if_neg heq] at hif
      obtain ⟨e', he', hid⟩ := ih hif
      exact ⟨e', List.mem_cons_of_mem _ he', hid⟩

/-- The names of the records, as `ls` decodes them. -/
def names : List DirEntry → Option (List String)
  | [] => some []
  | e :: es => e.getName.bind fun n => (names es).map (n :: ·)

/-- Reading 32 bytes inside a file. -/
theorem FileRep.readDirent_exec {d : Disk} {di : DiskInode} {c : List UInt8} {bs : List UInt32} (h : FileRep d di c bs)
    {i : Nat} (hi : 32 * i + 32 ≤ c.length) {buf : List UInt8} (hbuf : buf.length = 32) :
    (Inode.readDirent di i buf).exec d = some (readContent c (32 * i) 32, d) := by
  have hbound := h.bound
  have hlen : (readContent c (32 * i) 32).length = 32 := by
    rw [readContent, List.length_take, List.length_drop]
    omega
  have hr := h.readAt (show 32 * i < 2 ^ 64 by omega) (show buf.length < 2 ^ 63 by omega)
  rw [← wp_eq_iff]
  simp only [Inode.readDirent, wp_bind]
  refine wp_mono hr ?_
  rintro ⟨n, b⟩ d' ⟨rfl, h1, h2⟩
  simp only [hbuf, hlen] at h1 h2
  simp only [wp_assert, wp_pure]
  rw [List.drop_eq_nil_of_le (by omega), List.append_nil] at h2
  exact ⟨h1, h2, trivial⟩

section Records

variable {d : Disk} {di : DiskInode} {es : List DirEntry} {bs : List UInt32}
  (h : FileRep d di (es.flatMap DirEntry.asBytes) bs)
include h

theorem records_size : di.size.toNat = 32 * es.length := by
  rw [h.size, length_flatMap_packed DirEntry.asBytes_length]

theorem readDirent_exec {i : Nat} (hi : i < es.length) {buf : List UInt8} (hbuf : buf.length = 32) :
    (Inode.readDirent di i buf).exec d = some (es[i].asBytes, d) := by
  have hrec : FileRep.readContent (es.flatMap DirEntry.asBytes) (32 * i) 32 = es[i].asBytes := by
    have ht := take_drop_flatMap_packed DirEntry.asBytes_length es [] hi
    rw [List.append_nil] at ht
    rw [FileRep.readContent, ht]
  rw [h.readDirent_exec (by rw [length_flatMap_packed DirEntry.asBytes_length]; omega) hbuf, hrec]

theorem findLoop_exec (name : String) (n : Nat) : ∀ (i : Nat) (buf : List UInt8),
    i + n = es.length → buf.length = 32 →
      (Inode.findLoop name di n i buf).exec d = (scan name (es.drop i)).map fun r => (r, d) := by
  induction n with
  | zero =>
    intro i buf hin _
    rw [List.drop_eq_nil_of_le (by omega)]
    rfl
  | succ n ih =>
    intro i buf hin hbuf
    have hi : i < es.length := by omega
    rw [List.drop_eq_getElem_cons hi]
    simp only [Inode.findLoop, scan, exec_bind, readDirent_exec h hi hbuf, Option.bind_some,
      DirEntry.ofBytes_asBytes, exec_unwrap]
    cases hn : es[i].getName with
    | none => rfl
    | some nm =>
      simp only [Option.map_some, Option.bind_some]
      by_cases heq : nm = name
      · rw [if_pos heq, if_pos heq]
        rfl
      · rw [if_neg heq, if_neg heq]
        exact ih (i + 1) _ (by omega) (DirEntry.asBytes_length _)

/-- `find_inode_id` scans the records. -/
theorem findInodeId_exec (hdir : di.type = .directory) (name : String) :
    (Inode.findInodeId name di).exec d = (scan name es).map fun r => (r, d) := by
  have hcount : di.size.toNat / 32 = es.length := by
    rw [records_size h]
    omega
  have hisDir : di.isDir = true := by
    unfold isDir
    rw [hdir]
    rfl
  have hloop := findLoop_exec h name es.length 0 DirEntry.newZeros.asBytes (by omega)
    (DirEntry.asBytes_length _)
  rw [List.drop_zero] at hloop
  simp only [Inode.findInodeId, exec_bind, hcount, hloop, assert, if_pos hisDir, exec,
    Option.bind_some]

theorem lsLoop_exec (n : Nat) : ∀ (i : Nat), i + n = es.length →
    (Inode.lsLoop di n i).exec d = (names (es.drop i)).map fun r => (r, d) := by
  induction n with
  | zero =>
    intro i hin
    rw [List.drop_eq_nil_of_le (by omega)]
    rfl
  | succ n ih =>
    intro i hin
    have hi : i < es.length := by omega
    rw [List.drop_eq_getElem_cons hi]
    simp only [Inode.lsLoop, names, exec_bind, readDirent_exec h hi (DirEntry.asBytes_length _),
      Option.bind_some, DirEntry.ofBytes_asBytes, exec_unwrap]
    cases hn : es[i].getName with
    | none => rfl
    | some nm =>
      simp only [Option.map_some, Option.bind_some, ih (i + 1) (by omega)]
      cases names (es.drop (i + 1)) <;> rfl

end Records

theorem DirEntry.new_of_le {name : String} (h : (nameBytes name).length ≤ 28) (id : UInt32) :
    DirEntry.new name id = pure (DirEntry.made name id) := by
  have h' : (nameBytes name).length ≤ nameLengthLimit + 1 := h
  unfold DirEntry.new assert
  rw [if_pos h']
  rfl

theorem DirEntry.new_of_gt {name : String} (h : 28 < (nameBytes name).length) (id : UInt32) :
    DirEntry.new name id = abort := by
  have h' : ¬ (nameBytes name).length ≤ nameLengthLimit + 1 := Nat.not_le.mpr h
  unfold DirEntry.new assert
  rw [if_neg h']
  rfl

namespace FileRep

variable {d : Disk} {di : DiskInode} {es : List DirEntry} {bs rest : List UInt32} {g : Geometry}

theorem writeContent_end (c buf : List UInt8) : writeContent c c.length buf = c ++ buf := by
  unfold writeContent padTo bufSplice
  rw [List.take_left, List.drop_eq_nil_of_le, List.append_nil]
  simp only [List.length_append, List.length_replicate]
  omega

/-- Appending a record to a directory. -/
theorem appendDirent (hg : g.Sound) (h : FileRep d di (es.flatMap DirEntry.asBytes) bs)
    (ho : Owned g (bs ++ rest) d) (e : DirEntry) (hmax : 32 * es.length + 32 ≤ 16540 * 512)
    (hspace : (bs ++ rest).length + blocksFor (32 * es.length) (32 * es.length + 32) ≤ g.capacity) :
    (Inode.appendDirent g.toEfs (pure e) di).wp (fun di' d' => ∃ v,
      FileRep d' di' ((es ++ [e]).flatMap DirEntry.asBytes) (bs ++ v) ∧
        Owned g (bs ++ v ++ rest) d' ∧ SameMeta di di' ∧ FrameOf g (bs ++ v) d d') d := by
  have hlen := length_flatMap_packed DirEntry.asBytes_length es
  have hcount : di.size.toNat / 32 = es.length := by
    rw [records_size h]
    omega
  have hval : (UInt32.ofNat ((es.length + 1) * 32)).toNat = 32 * es.length + 32 := by
    rw [UInt32.toNat_ofNat']
    omega
  simp only [Inode.appendDirent, hcount, wp_bind, wp_pure]
  refine wp_mono (h.increaseSize hg ho (by rw [hval]; exact hmax)
    (by rw [hval, hlen]; exact hspace)) ?_
  rintro di1 d1 ⟨v, h1, ho1, hmeta, hf1⟩
  rw [hval] at h1
  have hw := h1.writeAt (List.nodup_append.mp ho1.nodup).1
    (show es.length * 32 + e.asBytes.length ≤ (padTo _ (32 * es.length + 32)).length by
      rw [padTo_length, DirEntry.asBytes_length]; omega)
    (List.ne_nil_of_length_pos (by rw [DirEntry.asBytes_length]; omega))
  refine wp_mono hw ?_
  rintro n d2 ⟨_, h2, hf2⟩
  have happ : bufSplice (padTo (es.flatMap DirEntry.asBytes) (32 * es.length + 32))
      (es.length * 32) e.asBytes = (es ++ [e]).flatMap DirEntry.asBytes := by
    have hend := writeContent_end (es.flatMap DirEntry.asBytes) e.asBytes
    rw [writeContent, hlen, DirEntry.asBytes_length, Nat.mul_comm 32] at hend
    rw [Nat.mul_comm 32, hend, List.flatMap_append]
    simp
  rw [happ] at h2
  refine ⟨v, h2, ?_, hmeta, ?_⟩
  · apply ho1.congr hg
    intro x _ hx
    exact hf2 x fun b hb => hx b (List.mem_append_left _ hb)
  · intro x hx hne
    rw [hf2 x hne, hf1 x hx hne]

end FileRep

namespace Inv

variable {g : Geometry} {root : Node} {files : List Node} {es : List DirEntry} {d : Disk}

/-- The root directory with the record `e` appended, its bytes in the blocks `bs`. -/
def appended (root : Node) (es : List DirEntry) (e : DirEntry) (bs : List UInt32) : Node :=
  { root with content := (es ++ [e]).flatMap DirEntry.asBytes, blocks := bs }

section Root

/-- Reading from the disk inode of an allocated inode. -/
theorem exec_readInode {nodes : List Node} (h : Inv g nodes d) (hg : g.Sound) {i : Nat}
    (hi : i < nodes.length) {α : Type} (f : DiskInode → EfsM α) :
    ((g.toEfs.inode (UInt32.ofNat i)).readDiskInode f).exec d = (f (g.slot d i)).exec d := by
  have harea := h.inArea
  have hsmall := h.small
  apply exec_eq_of_wp
  intro Q
  exact Geometry.wp_readDiskInode hg (by omega) (by omega) f Q d

theorem exec_readRoot (h : Inv g (root :: files) d) (hg : g.Sound) {α : Type}
    (f : DiskInode → EfsM α) :
    (g.toEfs.rootInode.readDiskInode f).exec d = (f (g.slot d 0)).exec d :=
  h.exec_readInode hg (Nat.succ_pos _) f

variable (h : Inv g (root :: files) d) (hd : IsDir es root)
include h hd

theorem root_rep : NodeRep d (g.slot d 0) 0 root ∧
    FileRep d (g.slot d 0) (es.flatMap DirEntry.asBytes) root.blocks := by
  have hrep : NodeRep d (g.slot d 0) 0 root := h.rep 0 (Nat.succ_pos _)
  exact ⟨hrep, hd.content ▸ hrep.file⟩

variable (hg : g.Sound)
include hg

/-- Looking up a name from `create`, `linkat` and `unlinkat`. -/
theorem lookup_exec (name : String) :
    (g.toEfs.rootInode.readDiskInode fun rootInode => do
      assert (rootInode.isDir = true)
      Inode.findInodeId name rootInode).exec d = (scan name es).map fun r => (r, d) := by
  obtain ⟨hrep, hfile⟩ := root_rep h hd
  have htype : (g.slot d 0).type = .directory := hrep.type.trans hd.type
  have hisDir : (g.slot d 0).isDir = true := by
    unfold isDir
    rw [htype]
    rfl
  rw [exec_readRoot h hg]
  simp only [exec_bind, assert, if_pos hisDir, exec, Option.bind_some]
  exact findInodeId_exec hfile htype name

theorem find_exec (name : String) :
    (g.toEfs.rootInode.find g.toEfs name).exec d =
      (scan name es).map fun r => (r.map g.toEfs.inode, d) := by
  obtain ⟨hrep, hfile⟩ := root_rep h hd
  unfold Inode.find
  rw [exec_readRoot h hg, exec_bind, findInodeId_exec hfile (hrep.type.trans hd.type)]
  cases scan name es <;> rfl

theorem ls_exec : g.toEfs.rootInode.ls.exec d = (names es).map fun r => (r, d) := by
  obtain ⟨_, hfile⟩ := root_rep h hd
  have hcount : (g.slot d 0).size.toNat / 32 = es.length := by
    rw [records_size hfile]
    omega
  unfold Inode.ls
  rw [exec_readRoot h hg]
  simp only [hcount]
  exact lsLoop_exec hfile es.length 0 (by omega)

/-- Appending a record to the root directory. -/
theorem append (e : DirEntry) (hmax : 32 * es.length + 32 ≤ 16540 * 512)
    (hspace : g.used d + FileRep.blocksFor (32 * es.length) (32 * es.length + 32) ≤ g.capacity) :
    (g.toEfs.rootInode.modifyDiskInode fun rootInode => do
      let rootInode ← Inode.appendDirent g.toEfs (pure e) rootInode
      pure ((), rootInode)).wp (fun _ d' => ∃ bs, Inv g (appended root es e bs :: files) d') d := by
  have harea := h.inArea
  have hpos : 0 < (root :: files).length := Nat.succ_pos _
  have hused : g.used d = (root.blocks ++ others (root :: files) 0).length := h.used_eq hpos
  obtain ⟨hrep, hfile⟩ := root_rep h hd
  refine (Geometry.wp_modifyDiskInode hg (i := 0) (by omega) (by omega) _ _ d).mpr ?_
  simp only [wp_bind, wp_pure]
  refine wp_mono (hfile.appendDirent hg (h.split hpos) e hmax (by rw [← hused]; exact hspace)) ?_
  rintro di' d1 ⟨v, hf, ho, hmeta, hframe⟩
  exact ⟨_, h.store hg hpos (hrep.withFile hmeta hf) ho (mods_apart ho) hframe⟩

end Root

theorem modify_eq_set {α : Type} {l : List α} {j : Nat} (hj : j < l.length) (f : α → α) :
    l.modify j f = l.set j (f l[j]) := by
  apply List.ext_getElem
  · simp
  · intro k _ _
    rw [List.getElem_modify, List.getElem_set]
    split_ifs with hjk
    · subst hjk
      rfl
    · rfl

/-- Changing a field of one element leaves the other fields of the list as they are. -/
theorem map_modify_of_eq {α β : Type} (l : List α) (j : Nat) {f : α → α} {p : α → β}
    (hp : ∀ a, p (f a) = p a) : (l.modify j f).map p = l.map p := by
  apply List.ext_getElem
  · simp
  · intro k _ _
    rw [List.getElem_map, List.getElem_map, List.getElem_modify]
    split_ifs
    · exact hp _
    · rfl

/-- A link count takes no blocks. -/
theorem used_setNlink (h : Inv g (root :: files) d) {d1 : Disk} {j : Nat} (f : UInt32 → UInt32)
    (h1 : Inv g (root :: files.modify j fun n => { n with nlink := f n.nlink }) d1) : g.used d1 = g.used d := by
  have hblocks := map_modify_of_eq files j (p := Node.blocks) (f := fun n => { n with nlink := f n.nlink }) fun _ => rfl
  rw [h1.owned.used, h.owned.used, List.flatMap_cons, List.flatMap_cons, List.flatMap_def, hblocks,
    ← List.flatMap_def]

/-- A record of the root directory refers to a file. -/
theorem target {es : List DirEntry} (hd : Dir es root files) {name : String} {id : UInt32}
    (hscan : scan name es = some (some id)) : ∃ j, j < files.length ∧ id = UInt32.ofNat (j + 1) := by
  obtain ⟨e, he, rfl, _⟩ := scan_mem hscan
  obtain ⟨hpos, hle⟩ := hd.targets e he
  refine ⟨e.inodeNumber.toNat - 1, by omega, ?_⟩
  rw [Nat.sub_add_cancel hpos, UInt32.ofNat_toNat]

/-! ## `create` and `linkat` -/

/-- Appending a record for a name that does not fit panics. -/
theorem append_abort {ino : Inode} {fs : EasyFileSystem} {Q : Unit → Disk → Prop} :
    ¬ (ino.modifyDiskInode fun di => do
      let di ← Inode.appendDirent fs abort di
      pure ((), di)).wp Q d := by
  intro hwp
  simp only [Inode.modifyDiskInode, Inode.appendDirent, wp_withModify, wp_bind, wp_assert,
    wp_abort] at hwp
  obtain ⟨_, _, _, _, hf⟩ := hwp
  exact hf

section Create

variable (hl : g.Laid) (h : Inv g (root :: files) d)
include hl h

/-- The next inode number: `alloc_inode`, and the new disk inode in its slot. -/
theorem allocInode (hid : files.length + 1 < 3 * g.inodeAreaBlocks.toNat)
    (hsmall : files.length + 2 < 2 ^ 32) :
    (do
      let newInodeId ← g.toEfs.allocInode
      (g.toEfs.inode newInodeId).modifyDiskInode fun _ =>
        pure ((), DiskInode.initialized newInodeId .file)
      pure newInodeId : EfsM UInt32).wp (fun id d' => id = UInt32.ofNat (files.length + 1) ∧
        Inv g (root :: (files ++ [⟨[], 1, .file, []⟩])) d') d := by
  have hcov := hl.covered
  have hbits := h.bits
  rw [List.length_cons] at hbits
  simp only [EasyFileSystem.allocInode, wp_bind]
  refine wp_mono (Bitmap.alloc_spec g.toEfs.inodeBitmap d) ?_
  intro r d1 hr
  cases r with
  | none =>
    have hset := (hbits (files.length + 1) (by omega)).mp (hr.2 _ (by omega))
    omega
  | some k =>
    obtain ⟨hk, hclear, hlow, hbits1, hout⟩ := hr
    have hk1 : k = files.length + 1 := by
      rcases Nat.lt_trichotomy k (files.length + 1) with hlt | heq | hgt
      · have hset := (hbits k hk).mpr hlt
        rw [hclear] at hset
        cases hset
      · exact heq
      · have hlt := (hbits _ (by omega)).mp (hlow _ hgt)
        omega
    subst hk1
    simp only [wp_unwrap_some, wp_pure]
    rw [Geometry.wp_modifyDiskInode hl.sound hid (by omega), wp_pure]
    exact ⟨trivial, h.push hl.sound hid (by rw [List.length_cons]; omega) hbits1 hout .file⟩

theorem create_new (hd : Dir es root files) {name : String} (hscan : scan name es = some none)
    (hfit : (nameBytes name).length ≤ 28) (hid : files.length + 1 < 3 * g.inodeAreaBlocks.toNat)
    (hmax : 32 * es.length + 32 ≤ 16540 * 512)
    (hspace : g.used d + FileRep.blocksFor (32 * es.length) (32 * es.length + 32) ≤ g.capacity) :
    (g.toEfs.rootInode.create g.toEfs name).wp (fun r d' =>
      r = some (g.toEfs.inode (UInt32.ofNat (files.length + 1))) ∧ ∃ bs,
        Inv g (appended root es (DirEntry.made name (UInt32.ofNat (files.length + 1))) bs ::
          (files ++ [⟨[], 1, .file, []⟩])) d') d := by
  have hcount := hd.count
  have hlook := lookup_exec h hd.toIsDir hl.sound name
  rw [hscan] at hlook
  unfold Inode.create
  rw [wp_bind_of_exec hlook]
  simp only [Option.isSome_none, Bool.false_eq_true, if_false]
  have hal := h.allocInode hl hid (by omega)
  simp only [wp_bind, wp_pure] at hal ⊢
  refine wp_mono hal ?_
  intro id d1 hid1
  refine wp_mono hid1 ?_
  rintro _ d2 ⟨rfl, h2⟩
  have hused : g.used d2 = g.used d := by
    rw [h2.owned.used, h.owned.used]
    simp
  rw [DirEntry.new_of_le hfit]
  refine wp_mono (h2.append hd.toIsDir hl.sound _ hmax (by rw [hused]; exact hspace)) ?_
  rintro _ d3 ⟨bs, h3⟩
  simp only [wp_sync, wp_pure]
  exact ⟨trivial, bs, h3⟩

/-- Replacing the link count of inode `j + 1`. -/
theorem setNlink {j : Nat} (hj : j < files.length) (f : UInt32 → UInt32) :
    ((g.toEfs.inode (UInt32.ofNat (j + 1))).modifyDiskInode fun di =>
      pure ((), { di with nlink := f di.nlink })).wp (fun _ d' =>
        Inv g (root :: files.modify j fun n => { n with nlink := f n.nlink }) d') d := by
  have hi : j + 1 < (root :: files).length := Nat.succ_lt_succ hj
  have harea := h.inArea
  have hsmall := h.small
  have hrep : NodeRep d (g.slot d (j + 1)) (j + 1) files[j] := h.rep (j + 1) hi
  rw [Geometry.wp_modifyDiskInode hl.sound (by omega) (by omega), wp_pure]
  have hnew : NodeRep d { g.slot d (j + 1) with nlink := f (g.slot d (j + 1)).nlink } (j + 1)
      { files[j] with nlink := f files[j].nlink } :=
    ⟨hrep.id, congrArg f hrep.nlink, hrep.type,
      hrep.file.congr (fun _ _ => rfl) rfl rfl rfl rfl⟩
  have hst := h.store hl.sound hi hnew (h.split hi)
    (fun b (hb : b ∈ []) => absurd hb List.not_mem_nil) fun x _ _ => rfl
  rw [List.set_cons_succ] at hst
  rw [modify_eq_set hj]
  exact hst

/-- The lookups of `linkat` find the file; what is left is to count the link and to append the record. -/
theorem linkat_exec (hd : Dir es root files) {oldpath newpath : String} {j : Nat}
    (hnew : scan newpath es = some none)
    (hold : scan oldpath es = some (some (UInt32.ofNat (j + 1)))) (hj : j < files.length) :
    (g.toEfs.rootInode.linkat g.toEfs oldpath newpath).exec d = (do
      (g.toEfs.inode (UInt32.ofNat (j + 1))).modifyDiskInode fun di => pure ((), di.incNlink)
      let dirent ← DirEntry.new newpath (UInt32.ofNat (j + 1))
      g.toEfs.rootInode.modifyDiskInode fun rootInode => do
        let rootInode ← Inode.appendDirent g.toEfs (pure dirent) rootInode
        pure ((), rootInode)
      pure 0 : EfsM Int).exec d := by
  have hlook := lookup_exec h hd.toIsDir hl.sound newpath
  have hlook' := lookup_exec h hd.toIsDir hl.sound oldpath
  have hfind := find_exec h hd.toIsDir hl.sound oldpath
  rw [hnew] at hlook
  rw [hold] at hlook' hfind
  have harea := h.inArea
  have hsmall := h.small
  rw [List.length_cons] at harea hsmall
  have hisFile : (g.slot d (j + 1)).isFile = true := by
    have hrep : NodeRep d (g.slot d (j + 1)) (j + 1) files[j] := h.rep (j + 1) (Nat.succ_lt_succ hj)
    unfold isFile
    rw [hrep.type, hd.areFiles _ (List.getElem_mem hj)]
    rfl
  apply exec_eq_of_wp
  intro Q
  unfold Inode.linkat
  rw [wp_bind_of_exec hlook]
  simp only [Option.isSome_none, Bool.false_eq_true, if_false]
  rw [wp_bind_of_exec hlook']
  simp only
  rw [wp_bind_of_exec hfind]
  simp only [Option.map_some, wp_bind, wp_unwrap_some]
  rw [Geometry.wp_readDiskInode hl.sound (by omega) (by omega), wp_assert, and_iff_right hisFile]
  rw [← wp_bind, wp_bind_of_exec hfind]
  simp only [Option.map_some, wp_unwrap_some]

theorem linkat_new (hd : Dir es root files) {oldpath newpath : String} {j : Nat}
    (hnew : scan newpath es = some none)
    (hold : scan oldpath es = some (some (UInt32.ofNat (j + 1)))) (hj : j < files.length)
    (hfit : (nameBytes newpath).length ≤ 28) (hmax : 32 * es.length + 32 ≤ 16540 * 512)
    (hspace : g.used d + FileRep.blocksFor (32 * es.length) (32 * es.length + 32) ≤ g.capacity) :
    (g.toEfs.rootInode.linkat g.toEfs oldpath newpath).wp (fun r d' => r = 0 ∧ ∃ bs,
      Inv g (appended root es (DirEntry.made newpath (UInt32.ofNat (j + 1))) bs ::
        files.modify j fun n => { n with nlink := n.nlink + 1 }) d') d := by
  rw [wp_congr (h.linkat_exec hl hd hnew hold hj), wp_bind]
  refine wp_mono (h.setNlink hl hj (· + 1)) ?_
  rintro _ d1 h1
  rw [DirEntry.new_of_le hfit]
  simp only [wp_bind, wp_pure]
  refine wp_mono (h1.append hd.toIsDir hl.sound _ hmax (by rw [h.used_setNlink (· + 1) h1]; exact hspace)) ?_
  rintro _ d3 ⟨bs, h3⟩
  exact ⟨trivial, bs, h3⟩

/-- `create` of a name that exists changes nothing. -/
theorem create_old (hd : IsDir es root) {name : String} {id : UInt32}
    (hscan : scan name es = some (some id)) :
    (g.toEfs.rootInode.create g.toEfs name).exec d = some (none, d) := by
  have hlook := lookup_exec h hd hl.sound name
  rw [hscan] at hlook
  rw [Inode.create, exec_bind, hlook]
  rfl

/-- `linkat` changes nothing when the new name exists or the old one does not. -/
theorem linkat_old (hd : IsDir es root) {oldpath newpath : String}
    (hscan : (∃ id, scan newpath es = some (some id)) ∨
      scan newpath es = some none ∧ scan oldpath es = some none) :
    (g.toEfs.rootInode.linkat g.toEfs oldpath newpath).exec d = some (-1, d) := by
  have hlook := lookup_exec h hd hl.sound newpath
  rcases hscan with ⟨id, hnew⟩ | ⟨hnew, hold⟩
  · rw [hnew] at hlook
    rw [Inode.linkat, exec_bind, hlook]
    rfl
  · have hlook' := lookup_exec h hd hl.sound oldpath
    rw [hnew] at hlook
    rw [hold] at hlook'
    rw [← wp_eq_iff, Inode.linkat, wp_bind_of_exec hlook]
    simp only [Option.isSome_none, Bool.false_eq_true, if_false]
    rw [wp_bind_of_exec hlook', wp_pure]
    exact ⟨rfl, rfl⟩

/-- If `create` returns, the name exists and nothing changed, or the name is new. -/
theorem create_found (hd : IsDir es root) {name : String} {r : Option Inode} {d' : Disk}
    (he : (g.toEfs.rootInode.create g.toEfs name).exec d = some (r, d')) :
    (r = none ∧ d' = d ∧ ∃ id, scan name es = some (some id)) ∨ scan name es = some none := by
  have hlook := lookup_exec h hd hl.sound name
  cases hs : scan name es with
  | none =>
    rw [hs] at hlook
    rw [Inode.create, exec_bind, hlook] at he
    cases he
  | some found =>
    cases found with
    | some id =>
      rw [h.create_old hl hd hs] at he
      cases he
      exact .inl ⟨rfl, rfl, id, rfl⟩
    | none => exact .inr rfl

/-- What `create` does when it returns. -/
theorem create_cases (hd : Dir es root files) {name : String}
    (hadm : files.length + 1 < 3 * g.inodeAreaBlocks.toNat ∧ 32 * es.length + 32 ≤ 16540 * 512 ∧
      g.used d + FileRep.blocksFor (32 * es.length) (32 * es.length + 32) ≤ g.capacity)
    {r : Option Inode} {d' : Disk}
    (he : (g.toEfs.rootInode.create g.toEfs name).exec d = some (r, d')) :
    (r = none ∧ d' = d ∧ ∃ id, scan name es = some (some id)) ∨
      (scan name es = some none ∧ r = some (g.toEfs.inode (UInt32.ofNat (files.length + 1))) ∧
        ∃ bs, Inv g (appended root es (DirEntry.made name (UInt32.ofNat (files.length + 1))) bs ::
          (files ++ [⟨[], 1, .file, []⟩])) d') := by
  obtain ⟨hid, hmax, hspace⟩ := hadm
  rcases h.create_found hl hd.toIsDir he with hold | hs
  · exact .inl hold
  by_cases hfit : (nameBytes name).length ≤ 28
  · exact .inr ⟨hs, (h.create_new hl hd hs hfit hid hmax hspace).wlp r d' he⟩
  · -- the name does not fit the record
    have hwp := wp_eq_iff.mpr he
    have hlook := lookup_exec h hd.toIsDir hl.sound name
    rw [hs] at hlook
    rw [Inode.create, wp_bind_of_exec hlook] at hwp
    simp only [Option.isSome_none, Bool.false_eq_true, if_false,
      DirEntry.new_of_gt (Nat.not_le.mp hfit), wp_bind] at hwp
    obtain ⟨_, _, _, hwp⟩ := hwp
    obtain ⟨_, _, _, hwp⟩ := hwp
    exact absurd hwp append_abort

/-- If `linkat` returns, there is nothing to link and nothing changed, or the old name is that of a file. -/
theorem linkat_found (hd : Dir es root files) {oldpath newpath : String} {r : Int} {d' : Disk}
    (he : (g.toEfs.rootInode.linkat g.toEfs oldpath newpath).exec d = some (r, d')) :
    (r = -1 ∧ d' = d ∧ ((∃ id, scan newpath es = some (some id)) ∨
        scan newpath es = some none ∧ scan oldpath es = some none)) ∨
      ∃ j, j < files.length ∧ scan newpath es = some none ∧ scan oldpath es = some (some (UInt32.ofNat (j + 1))) := by
  have hlook := lookup_exec h hd.toIsDir hl.sound newpath
  have hlook' := lookup_exec h hd.toIsDir hl.sound oldpath
  cases hs : scan newpath es with
  | none =>
    rw [hs] at hlook
    rw [Inode.linkat, exec_bind, hlook] at he
    cases he
  | some found =>
    cases found with
    | some id =>
      rw [h.linkat_old hl hd.toIsDir (.inl ⟨id, hs⟩)] at he
      cases he
      exact .inl ⟨rfl, rfl, .inl ⟨id, rfl⟩⟩
    | none =>
      cases hso : scan oldpath es with
      | none =>
        have hwp := wp_eq_iff.mpr he
        rw [hs] at hlook
        rw [Inode.linkat, wp_bind_of_exec hlook] at hwp
        simp only [Option.isSome_none, Bool.false_eq_true, if_false] at hwp
        rw [hso] at hlook'
        obtain ⟨_, _, hnone, _⟩ := (wp_bind _ _ _ _).mp hwp
        rw [hlook'] at hnone
        cases hnone
      | some old =>
        cases old with
        | none =>
          rw [h.linkat_old hl hd.toIsDir (.inr ⟨hs, hso⟩)] at he
          cases he
          exact .inl ⟨rfl, rfl, .inr ⟨rfl, rfl⟩⟩
        | some id =>
          obtain ⟨j, hj, rfl⟩ := target hd hso
          exact .inr ⟨j, hj, rfl, rfl⟩

/-- What `linkat` does when it returns. -/
theorem linkat_cases (hd : Dir es root files) {oldpath newpath : String}
    (hadm : 32 * es.length + 32 ≤ 16540 * 512 ∧
      g.used d + FileRep.blocksFor (32 * es.length) (32 * es.length + 32) ≤ g.capacity)
    {r : Int} {d' : Disk}
    (he : (g.toEfs.rootInode.linkat g.toEfs oldpath newpath).exec d = some (r, d')) :
    (r = -1 ∧ d' = d ∧ ((∃ id, scan newpath es = some (some id)) ∨
        scan newpath es = some none ∧ scan oldpath es = some none)) ∨
      ∃ j, j < files.length ∧ scan newpath es = some none ∧
        scan oldpath es = some (some (UInt32.ofNat (j + 1))) ∧ r = 0 ∧ ∃ bs,
          Inv g (appended root es (DirEntry.made newpath (UInt32.ofNat (j + 1))) bs ::
            files.modify j fun n => { n with nlink := n.nlink + 1 }) d' := by
  obtain ⟨hmax, hspace⟩ := hadm
  rcases h.linkat_found hl hd he with hold | ⟨j, hj, hs, hso⟩
  · exact .inl hold
  by_cases hfit : (nameBytes newpath).length ≤ 28
  · exact .inr ⟨j, hj, hs, hso, (h.linkat_new hl hd hs hso hj hfit hmax hspace).wlp r d' he⟩
  · have htail := (wp_congr (h.linkat_exec hl hd hs hso hj) _).mp (wp_eq_iff.mpr he)
    simp only [DirEntry.new_of_gt (Nat.not_le.mp hfit), wp_bind, wp_abort] at htail
    obtain ⟨_, _, _, hf⟩ := htail
    exact hf.elim

end Create

end Inv

end RCore.EasyFs
