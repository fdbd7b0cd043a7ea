import RCore.EasyFs.Verify.Calls

/-!
# File contents and block ownership over call sequences

The calls a client makes on a file system, one after the other. `Admissible` collects what the
client has to respect: it writes and clears files it has created, a write is not empty and ends
within the largest file, the inode number that `create` takes is inside the inode area, and the data
area is not exhausted.

`create_refines` says that under these conditions every inode behaves as a byte list, and
`blocksExact_of_runs` that the data bitmap marks exactly the blocks of the inodes.
-/

namespace RCore.EasyFs

open RCore Prog DiskInode

/-! ## Calls -/

/-- A call of a client. -/
inductive Call
  | create (name : String)
  | linkat (oldpath newpath : String)
  | find (name : String)
  | ls
  | writeAt (ino : UInt32) (offset : Nat) (buf : List UInt8)
  | readAt (ino : UInt32) (offset : Nat) (buf : List UInt8)
  | clear (ino : UInt32)

/-- What a call returns; `bytes` is the count and the buffer of a `read_at`. -/
inductive Answer
  | inode (r : Option Inode)
  | status (r : Int)
  | names (l : List String)
  | count (n : Nat)
  | bytes (n : Nat) (buf : List UInt8)
  | done

def Call.run (fs : EasyFileSystem) : Call → EfsM Answer
  | create name => do
    let r ← fs.rootInode.create fs name
    pure (.inode r)
  | linkat oldpath newpath => do
    let r ← fs.rootInode.linkat fs oldpath newpath
    pure (.status r)
  | find name => do
    let r ← fs.rootInode.find fs name
    pure (.inode r)
  | ls => do
    let l ← fs.rootInode.ls
    pure (.names l)
  | writeAt ino offset buf => do
    let n ← (fs.inode ino).writeAt fs offset buf
    pure (.count n)
  | readAt ino offset buf => do
    let (n, buf) ← (fs.inode ino).readAt offset buf
    pure (.bytes n buf)
  | clear ino => do
    (fs.inode ino).clear fs
    pure .done

namespace Geometry

/-- The numbers of the allocated inodes: those that the inode bitmap marks. -/
def allocated (g : Geometry) (d : Disk) : List Nat :=
  (List.range g.toEfs.inodeBitmap.maxBits).filter fun k => g.toEfs.inodeBitmap.bit d k

/-- The number of allocated inodes. -/
def inodes (g : Geometry) (d : Disk) : Nat := (g.allocated d).length

/-- The size of an inode. -/
def sizeOf (g : Geometry) (d : Disk) (i : Nat) : Nat := (g.slot d i).size.toNat

/-- The data area has the blocks that inode `i` needs to grow to `n` bytes. -/
def RoomFor (g : Geometry) (d : Disk) (i n : Nat) : Prop :=
  g.used d + FileRep.blocksFor (g.sizeOf d i) n ≤ g.capacity

/-- The root directory can take one more record. -/
def RoomForRecord (g : Geometry) (d : Disk) : Prop :=
  g.sizeOf d 0 + 32 ≤ indirect2Bound * blockSz ∧ g.RoomFor d 0 (g.sizeOf d 0 + 32)

end Geometry

/-- What a client respects when it makes a call on the disk `d`. -/
def Admissible (g : Geometry) (d : Disk) : Call → Prop
  | .create _ => g.inodes d < 3 * g.inodeAreaBlocks.toNat ∧ g.RoomForRecord d
  | .linkat _ _ => g.RoomForRecord d
  | .find _ => True
  | .ls => True
  | .writeAt ino offset buf => (0 < ino.toNat ∧ ino.toNat < g.inodes d) ∧ buf ≠ [] ∧
      offset + buf.length ≤ indirect2Bound * blockSz ∧
      g.RoomFor d ino.toNat (offset + buf.length)
  | .readAt ino offset buf => ino.toNat < g.inodes d ∧ offset < 2 ^ 64 ∧ buf.length < 2 ^ 63
  | .clear ino => 0 < ino.toNat ∧ ino.toNat < g.inodes d

/-! ## Inodes as byte lists -/

/-- The bytes of the inodes, by number. -/
abbrev Contents := List (List UInt8)

/-- What a call does to the bytes of the inodes. `create` and `linkat` append a record to the root
directory, inode 0. -/
def Call.Spec (fs : EasyFileSystem) : Call → Contents → Answer → Contents → Prop
  | .create _, c, a, c' => (a = .inode none ∧ c' = c) ∨
      ∃ rec : List UInt8, rec.length = direntSz ∧
        a = .inode (some (fs.inode (UInt32.ofNat c.length))) ∧ c' = c.modify 0 (· ++ rec) ++ [[]]
  | .linkat _ _, c, a, c' => (a = .status (-1) ∧ c' = c) ∨
      ∃ rec : List UInt8, rec.length = direntSz ∧ a = .status 0 ∧ c' = c.modify 0 (· ++ rec)
  | .find _, c, _, c' => c' = c
  | .ls, c, _, c' => c' = c
  | .writeAt ino offset buf, c, a, c' => a = .count buf.length ∧
      c' = c.modify ino.toNat fun old => FileRep.writeContent old offset buf
  | .readAt ino offset buf, c, a, c' => c' = c ∧
      ∃ s, s = FileRep.readContent (c.getD ino.toNat []) offset buf.length ∧
        a = .bytes s.length (s ++ buf.drop s.length)
  | .clear ino, c, a, c' => a = .done ∧ c' = c.modify ino.toNat fun _ => []

/-- A call that works on one inode, and on no name. -/
def Call.OnInode : Call → Prop
  | .writeAt .. => True
  | .readAt .. => True
  | .clear _ => True
  | _ => False

/-- From a disk whose inodes hold `c`, each call of the sequence does what it should: a call on an
inode does not panic, and a call that returns answers and changes the bytes as `Call.Spec` says. -/
def Refines (g : Geometry) (fs : EasyFileSystem) : Contents → Disk → List Call → Prop
  | _, _, [] => True
  | c, d, call :: calls => Admissible g d call →
      (call.OnInode → (call.run fs).exec d ≠ none) ∧
        ∀ a d', (call.run fs).exec d = some (a, d') →
          ∃ c', call.Spec fs c a c' ∧ Refines g fs c' d' calls

/-! ## One call -/

/-- The disk `d` stores the root directory with the records `es`, and the files `files`. -/
structure State (g : Geometry) (es : List DirEntry) (root : Node) (files : List Node) (d : Disk) :
    Prop where
  inv : Inv g (root :: files) d
  dir : Dir es root files

/-- The bytes of the inodes. -/
def contents (root : Node) (files : List Node) : Contents := root.content :: files.map Node.content

namespace Dir

variable {es : List DirEntry} {root : Node} {files : List Node}

theorem setFile (h : Dir es root files) (j : Nat) {f : Node → Node}
    (hf : ∀ n, (f n).type = n.type) : Dir es root (files.modify j f) where
  type := h.type
  content := h.content
  targets e he := by
    rw [List.length_modify]
    exact h.targets e he
  areFiles n hn := by
    obtain ⟨k, hk, rfl⟩ := List.mem_iff_getElem.mp hn
    rw [List.length_modify] at hk
    rw [List.getElem_modify]
    split_ifs
    · rw [hf]
      exact h.areFiles _ (List.getElem_mem hk)
    · exact h.areFiles _ (List.getElem_mem hk)
  count := by
    rw [List.length_modify]
    exact h.count

/-- One more record, for a file. -/
theorem addRecord (h : Dir es root files) (name : String) {j : Nat} (hj : j < files.length)
    (hsmall : files.length < 2 ^ 32 - 1) (bs : List UInt32) :
    Dir (es ++ [DirEntry.made name (UInt32.ofNat (j + 1))])
      (Inv.appended root es (DirEntry.made name (UInt32.ofNat (j + 1))) bs) files where
  type := h.type
  content := rfl
  targets e he := by
    rcases List.mem_append.mp he with he | he
    · exact h.targets e he
    · rw [List.mem_singleton.mp he]
      show 0 < (UInt32.ofNat (j + 1)).toNat ∧ (UInt32.ofNat (j + 1)).toNat ≤ files.length
      rw [UInt32.toNat_ofNat']
      omega
  areFiles := h.areFiles
  count := by
    have hc := h.count
    rw [List.length_append]
    omega

/-- One more record, for a new file. -/
theorem addFile (h : Dir es root files) (name : String) (hsmall : files.length + 1 < 2 ^ 32)
    (bs : List UInt32) :
    Dir (es ++ [DirEntry.made name (UInt32.ofNat (files.length + 1))])
      (Inv.appended root es (DirEntry.made name (UInt32.ofNat (files.length + 1))) bs)
      (files ++ [⟨[], 1, .file, []⟩]) where
  type := h.type
  content := rfl
  targets e he := by
    rw [List.length_append, List.length_singleton]
    rcases List.mem_append.mp he with he | he
    · have ht := h.targets e he
      omega
    · rw [List.mem_singleton.mp he]
      show 0 < (UInt32.ofNat (files.length + 1)).toNat ∧
        (UInt32.ofNat (files.length + 1)).toNat ≤ files.length + 1
      rw [UInt32.toNat_ofNat']
      omega
  areFiles n hn := by
    rcases List.mem_append.mp hn with hn | hn
    · exact h.areFiles n hn
    · rw [List.mem_singleton.mp hn]
  count := by
    have hc := h.count
    rw [List.length_append, List.length_append, List.length_singleton, List.length_singleton]
    omega

end Dir

namespace State

variable {g : Geometry} {es : List DirEntry} {root : Node} {files : List Node} {d : Disk}

theorem mem_allocated (hl : g.Laid) (h : State g es root files d) {i : Nat} :
    i ∈ g.allocated d ↔ i < (root :: files).length := by
  have hcov := hl.covered
  have harea := h.inv.inArea
  rw [Geometry.allocated, List.mem_filter, List.mem_range]
  constructor
  · rintro ⟨hk, hbit⟩
    exact (h.inv.bits i hk).mp hbit
  · intro hi
    exact ⟨by omega, (h.inv.bits i (by omega)).mpr hi⟩

theorem allocated_perm (hl : g.Laid) (h : State g es root files d) :
    (g.allocated d).Perm (List.range (root :: files).length) :=
  (List.perm_ext_iff_of_nodup (List.nodup_range.filter _) List.nodup_range).mpr fun _ =>
    (h.mem_allocated hl).trans List.mem_range.symm

theorem inodes_eq (hl : g.Laid) (h : State g es root files d) : g.inodes d = files.length + 1 := by
  rw [Geometry.inodes, (h.allocated_perm hl).length_eq, List.length_range, List.length_cons]

theorem sizeOf_root (h : State g es root files d) : g.sizeOf d 0 = 32 * es.length :=
  records_size (Inv.root_rep h.inv h.dir.toIsDir).2

theorem root_blocks (h : State g es root files d) : root.blocks.length = totalBlocksFor (fileBlocks (32 * es.length)) := by
  have hlong := (Inv.root_rep h.inv h.dir.toIsDir).2.length
  rwa [length_flatMap_packed DirEntry.asBytes_length] at hlong

theorem sizeOf_file (h : State g es root files d) {j : Nat} (hj : j < files.length) :
    g.sizeOf d (j + 1) = files[j].content.length :=
  (h.inv.rep (j + 1) (Nat.succ_lt_succ hj)).file.size

theorem last {n : Node} (h : State g es root (files ++ [n]) d) :
    NodeRep d (g.slot d (files.length + 1)) (files.length + 1) n := by
  have hrep := h.inv.rep (files.length + 1) (by simp)
  simpa using hrep

theorem roomForRecord (h : State g es root files d) (hroom : g.RoomForRecord d) :
    32 * es.length + 32 ≤ 16540 * 512 ∧
      g.used d + FileRep.blocksFor (32 * es.length) (32 * es.length + 32) ≤ g.capacity := by
  unfold Geometry.RoomForRecord Geometry.RoomFor at hroom
  rw [h.sizeOf_root] at hroom
  exact hroom

theorem records_le (h : State g es root files d) : es.length ≤ 264640 := by
  have hbound := (Inv.root_rep h.inv h.dir.toIsDir).2.bound
  rw [length_flatMap_packed DirEntry.asBytes_length] at hbound
  omega

/-- The files are few: each has a record. -/
theorem files_le (h : State g es root files d) : files.length ≤ 264640 :=
  h.dir.count.trans h.records_le

/-- The file number of an inode other than the root. -/
theorem exists_file (hl : g.Laid) (h : State g es root files d) {ino : UInt32}
    (hino : 0 < ino.toNat ∧ ino.toNat < g.inodes d) :
    ∃ j, j < files.length ∧ ino = UInt32.ofNat (j + 1) ∧ ino.toNat = j + 1 := by
  rw [h.inodes_eq hl] at hino
  refine ⟨ino.toNat - 1, by omega, ?_, by omega⟩
  rw [Nat.sub_add_cancel hino.1, UInt32.ofNat_toNat]

theorem writeAt (hl : g.Laid) (h : State g es root files d) {ino : UInt32} {offset : Nat}
    {buf : List UInt8} (hadm : Admissible g d (.writeAt ino offset buf)) :
    ((g.toEfs.inode ino).writeAt g.toEfs offset buf).wp (fun r d' => r = buf.length ∧ ∃ bs,
      State g es root (files.modify (ino.toNat - 1) fun n =>
        { n with content := FileRep.writeContent n.content offset buf, blocks := bs }) d') d := by
  obtain ⟨hino, hbuf, hmax, hroom⟩ := hadm
  obtain ⟨j, hj, rfl, hval⟩ := h.exists_file hl hino
  unfold Geometry.RoomFor at hroom
  rw [hval, h.sizeOf_file hj] at hroom
  rw [hval, Nat.add_sub_cancel]
  refine wp_mono (h.inv.writeAt hl.sound (Nat.succ_lt_succ hj) hbuf hmax hroom) ?_
  rintro r d' ⟨hr, bs, hinv⟩
  refine ⟨hr, bs, ?_, h.dir.setFile j fun _ => rfl⟩
  rw [Inv.modify_eq_set hj]
  exact hinv

theorem clear (hl : g.Laid) (h : State g es root files d) {ino : UInt32}
    (hadm : Admissible g d (.clear ino)) :
    ((g.toEfs.inode ino).clear g.toEfs).wp (fun _ d' =>
      State g es root (files.modify (ino.toNat - 1) fun n =>
        { n with content := [], blocks := [] }) d') d := by
  obtain ⟨j, hj, rfl, hval⟩ := h.exists_file hl hadm
  rw [hval, Nat.add_sub_cancel]
  refine wp_mono (h.inv.clear hl.sound (Nat.succ_lt_succ hj)) ?_
  rintro r d' hinv
  refine ⟨?_, h.dir.setFile j fun _ => rfl⟩
  rw [Inv.modify_eq_set hj]
  exact hinv

theorem readAt (hl : g.Laid) (h : State g es root files d) {ino : UInt32} {offset : Nat}
    {buf : List UInt8} (hadm : Admissible g d (.readAt ino offset buf)) :
    ((g.toEfs.inode ino).readAt offset buf).wp (fun r d' => d' = d ∧
      ∃ s, s = FileRep.readContent ((contents root files).getD ino.toNat []) offset buf.length ∧
        r = (s.length, s ++ buf.drop s.length)) d := by
  obtain ⟨hino, hoff, hbuf⟩ := hadm
  rw [h.inodes_eq hl] at hino
  have hi : ino.toNat < (root :: files).length := hino
  have hget : (contents root files).getD ino.toNat [] = ((root :: files)[ino.toNat]).content := by
    have hmap : contents root files = (root :: files).map Node.content := rfl
    rw [hmap, List.getD_eq_getElem _ _ (by rw [List.length_map]; exact hi), List.getElem_map]
  have hr := h.inv.readAt hl.sound hi hoff hbuf
  rw [UInt32.ofNat_toNat] at hr
  refine wp_mono hr ?_
  rintro ⟨n, b⟩ d' ⟨rfl, h1, h2⟩
  refine ⟨rfl, _, rfl, ?_⟩
  rw [hget]
  exact Prod.ext h1 h2

/-- The state after a new file got its record. -/
theorem addFile (h : State g es root files d) {name : String} {bs : List UInt32} {d' : Disk}
    (hinv : Inv g (Inv.appended root es (DirEntry.made name (UInt32.ofNat (files.length + 1))) bs ::
      (files ++ [⟨[], 1, .file, []⟩])) d') :
    State g (es ++ [DirEntry.made name (UInt32.ofNat (files.length + 1))])
      (Inv.appended root es (DirEntry.made name (UInt32.ofNat (files.length + 1))) bs)
      (files ++ [⟨[], 1, .file, []⟩]) d' := by
  have hfiles := h.files_le
  exact ⟨hinv, h.dir.addFile name (by omega) bs⟩

/-- The state after a file got one more record. -/
theorem addRecord (h : State g es root files d) {name : String} {j : Nat} (hj : j < files.length)
    {bs : List UInt32} {d' : Disk}
    (hinv : Inv g (Inv.appended root es (DirEntry.made name (UInt32.ofNat (j + 1))) bs ::
      files.modify j fun n => { n with nlink := n.nlink + 1 }) d') :
    State g (es ++ [DirEntry.made name (UInt32.ofNat (j + 1))])
      (Inv.appended root es (DirEntry.made name (UInt32.ofNat (j + 1))) bs)
      (files.modify j fun n => { n with nlink := n.nlink + 1 }) d' := by
  have hfiles := h.files_le
  refine ⟨hinv, ?_⟩
  exact (h.dir.setFile j (f := fun n => { n with nlink := n.nlink + 1 }) fun _ => rfl).addRecord
    name (by rw [List.length_modify]; exact hj) (by rw [List.length_modify]; omega) bs

/-- The calls that change names keep the state. -/
theorem create (hl : g.Laid) (h : State g es root files d) {name : String}
    (hadm : Admissible g d (.create name)) {r : Option Inode} {d' : Disk}
    (he : (g.toEfs.rootInode.create g.toEfs name).exec d = some (r, d')) :
    (r = none ∧ d' = d ∧ ∃ id, scan name es = some (some id)) ∨
      (scan name es = some none ∧ r = some (g.toEfs.inode (UInt32.ofNat (files.length + 1))) ∧
        ∃ bs, State g (es ++ [DirEntry.made name (UInt32.ofNat (files.length + 1))])
          (Inv.appended root es (DirEntry.made name (UInt32.ofNat (files.length + 1))) bs)
          (files ++ [⟨[], 1, .file, []⟩]) d') := by
  obtain ⟨hid, hroom⟩ := hadm
  rw [h.inodes_eq hl] at hid
  rcases h.inv.create_cases hl h.dir ⟨hid, h.roomForRecord hroom⟩ he with hold | ⟨hs, hr, bs, hinv⟩
  · exact .inl hold
  · exact .inr ⟨hs, hr, bs, h.addFile hinv⟩

theorem linkat (hl : g.Laid) (h : State g es root files d) {oldpath newpath : String}
    (hadm : Admissible g d (.linkat oldpath newpath)) {r : Int} {d' : Disk}
    (he : (g.toEfs.rootInode.linkat g.toEfs oldpath newpath).exec d = some (r, d')) :
    (r = -1 ∧ d' = d ∧ ((∃ id, scan newpath es = some (some id)) ∨
        scan newpath es = some none ∧ scan oldpath es = some none)) ∨
      ∃ j, j < files.length ∧ scan newpath es = some none ∧
        scan oldpath es = some (some (UInt32.ofNat (j + 1))) ∧ r = 0 ∧ ∃ bs,
          State g (es ++ [DirEntry.made newpath (UInt32.ofNat (j + 1))])
            (Inv.appended root es (DirEntry.made newpath (UInt32.ofNat (j + 1))) bs)
            (files.modify j fun n => { n with nlink := n.nlink + 1 }) d' := by
  rcases h.inv.linkat_cases hl h.dir (h.roomForRecord hadm) he with
    hold | ⟨j, hj, hs, hso, hr, bs, hinv⟩
  · exact .inl hold
  · exact .inr ⟨j, hj, hs, hso, hr, bs, h.addRecord hj hinv⟩

theorem contents_modify (root : Node) (files : List Node) {i : Nat} (hi : 0 < i) {f : Node → Node}
    {p : List UInt8 → List UInt8} (hf : ∀ n, (f n).content = p n.content) :
    contents root (files.modify (i - 1) f) = (contents root files).modify i p := by
  obtain ⟨j, rfl⟩ := Nat.exists_eq_succ_of_ne_zero (Nat.pos_iff_ne_zero.mp hi)
  unfold contents
  rw [List.modify_succ_cons, Nat.succ_sub_one]
  congr 1
  apply List.ext_getElem
  · simp
  · intro k _ _
    rw [List.getElem_map, List.getElem_modify, List.getElem_modify, List.getElem_map]
    split_ifs
    · exact hf _
    · rfl

/-- One call: an admissible call on an inode returns, and a call that returns does to the bytes what
`Call.Spec` says. -/
theorem step (hl : g.Laid) (h : State g es root files d) {call : Call}
    (hadm : Admissible g d call) :
    (call.OnInode → (call.run g.toEfs).exec d ≠ none) ∧
      ∀ a d', (call.run g.toEfs).exec d = some (a, d') → ∃ es' root' files',
        call.Spec g.toEfs (contents root files) a (contents root' files') ∧
          State g es' root' files' d' := by
  cases call with
  | create name =>
    refine ⟨False.elim, fun a d' he => ?_⟩
    rw [Call.run, exec_bind_pure] at he
    obtain ⟨⟨r, e⟩, hexec, heq⟩ := Option.map_eq_some_iff.mp he
    cases heq
    rcases h.create hl hadm hexec with ⟨rfl, rfl, _⟩ | ⟨_, rfl, bs, hst⟩
    · exact ⟨es, root, files, .inl ⟨rfl, rfl⟩, h⟩
    · refine ⟨_, _, _, .inr ⟨(DirEntry.made name (UInt32.ofNat (files.length + 1))).asBytes,
        DirEntry.asBytes_length _, ?_, ?_⟩, hst⟩
      · simp [contents]
      · simp [contents, Inv.appended, h.dir.content]
  | linkat oldpath newpath =>
    refine ⟨False.elim, fun a d' he => ?_⟩
    rw [Call.run, exec_bind_pure] at he
    obtain ⟨⟨r, e⟩, hexec, heq⟩ := Option.map_eq_some_iff.mp he
    cases heq
    rcases h.linkat hl hadm hexec with ⟨rfl, rfl, _⟩ | ⟨j, _, _, _, rfl, bs, hst⟩
    · exact ⟨es, root, files, .inl ⟨rfl, rfl⟩, h⟩
    · refine ⟨_, _, _, .inr ⟨(DirEntry.made newpath (UInt32.ofNat (j + 1))).asBytes,
        DirEntry.asBytes_length _, rfl, ?_⟩, hst⟩
      have hfiles := Inv.map_modify_of_eq files j (p := Node.content)
        (f := fun n => { n with nlink := n.nlink + 1 }) fun _ => rfl
      unfold contents
      rw [hfiles]
      simp [Inv.appended, h.dir.content]
  | find name =>
    refine ⟨False.elim, fun a d' he => ?_⟩
    rw [Call.run, exec_bind_pure, h.inv.find_exec h.dir.toIsDir hl.sound] at he
    obtain ⟨⟨r, e⟩, hexec, heq⟩ := Option.map_eq_some_iff.mp he
    cases heq
    obtain ⟨_, _, heq⟩ := Option.map_eq_some_iff.mp hexec
    cases heq
    exact ⟨es, root, files, rfl, h⟩
  | ls =>
    refine ⟨False.elim, fun a d' he => ?_⟩
    rw [Call.run, exec_bind_pure, h.inv.ls_exec h.dir.toIsDir hl.sound] at he
    obtain ⟨⟨r, e⟩, hexec, heq⟩ := Option.map_eq_some_iff.mp he
    cases heq
    obtain ⟨_, _, heq⟩ := Option.map_eq_some_iff.mp hexec
    cases heq
    exact ⟨es, root, files, rfl, h⟩
  | writeAt ino offset buf =>
    obtain ⟨r, e, hexec, rfl, bs, hst⟩ := h.writeAt hl hadm
    rw [Call.run, exec_bind_pure, hexec]
    refine ⟨fun _ => Option.some_ne_none _, fun a d' he => ?_⟩
    cases he
    exact ⟨es, root, _, ⟨rfl, contents_modify root files hadm.1.1 fun _ => rfl⟩, hst⟩
  | readAt ino offset buf =>
    obtain ⟨r, e, hexec, rfl, s, hs, rfl⟩ := h.readAt hl hadm
    have hrun : ((Call.readAt ino offset buf).run g.toEfs).exec e =
        some (.bytes s.length (s ++ buf.drop s.length), e) := by
      rw [Call.run, exec_bind, hexec]
      rfl
    rw [hrun]
    refine ⟨fun _ => Option.some_ne_none _, fun a d' he => ?_⟩
    cases he
    exact ⟨es, root, files, ⟨rfl, s, hs, rfl⟩, h⟩
  | clear ino =>
    obtain ⟨r, e, hexec, hst⟩ := h.clear hl hadm
    have hrun : ((Call.clear ino).run g.toEfs).exec d = some (.done, e) := by
      rw [Call.run, exec_bind, hexec]
      rfl
    rw [hrun]
    refine ⟨fun _ => Option.some_ne_none _, fun a d' he => ?_⟩
    cases he
    exact ⟨es, root, _, ⟨rfl, contents_modify root files hadm.1 fun _ => rfl⟩, hst⟩

theorem refines (hl : g.Laid) (calls : List Call) :
    ∀ (es : List DirEntry) (root : Node) (files : List Node) (d : Disk),
      State g es root files d → Refines g g.toEfs (contents root files) d calls := by
  induction calls with
  | nil =>
    intro es root files d _
    trivial
  | cons call calls ih =>
    intro es root files d h hadm
    obtain ⟨htotal, hstep⟩ := h.step hl hadm
    refine ⟨htotal, fun a d' he => ?_⟩
    obtain ⟨es', root', files', hspec, h'⟩ := hstep a d' he
    exact ⟨_, hspec, ih es' root' files' d' h'⟩

end State

/-- The state of a fresh file system. -/
theorem State.init {total ib : UInt32} {dev d : Disk} {fs : EasyFileSystem}
    (h : (Geometry.compute total ib).NoUnderflow)
    (harea : 0 < (Geometry.compute total ib).inodeAreaBlocks.toNat)
    (he : (EasyFileSystem.create total ib).exec dev = some (fs, d)) :
    fs = (Geometry.compute total ib).toEfs ∧
      State (Geometry.compute total ib) [] ⟨[], 1, .directory, []⟩ [] d := by
  obtain ⟨hfs, hc⟩ := create_exec h he
  refine ⟨hfs, Inv.init (Geometry.compute_sound h) harea hc, ⟨rfl, rfl⟩, ?_, ?_, Nat.le_refl 0⟩
  · exact fun e he => absurd he List.not_mem_nil
  · exact fun n hn => absurd hn List.not_mem_nil

/-- **Files are byte lists.** On every file system that `create` makes, with the root inode in the
inode area, every sequence of admissible calls treats every inode as a byte list: a write splices
its buffer in, zero-filling a gap; a read returns a slice; `clear` empties the list; and no other
inode changes, but for the record that `create` and `linkat` append to the root directory. -/
theorem create_refines (total ib : UInt32) (dev : Disk) (fs : EasyFileSystem) (d : Disk)
    (h : (Geometry.compute total ib).NoUnderflow)
    (harea : 0 < (Geometry.compute total ib).inodeAreaBlocks.toNat)
    (he : (EasyFileSystem.create total ib).exec dev = some (fs, d)) (calls : List Call) :
    Refines (Geometry.compute total ib) fs [[]] d calls := by
  obtain ⟨rfl, hst⟩ := State.init h harea he
  exact State.refines (Geometry.compute_laid h) calls _ _ _ d hst

/-- A client that creates a file, writes past its end and reads it back. -/
theorem create_refines_packer : ∃ fs d,
    (EasyFileSystem.create 32768 1).exec (fun _ => Bytes.zero blockSz) = some (fs, d) ∧
      Refines (Geometry.compute 32768 1) fs [[]] d
        [.create "a", .writeAt 1 600 [1, 2, 3], .readAt 1 0 (List.replicate 1000 0), .clear 1] := by
  obtain ⟨fs, d, he, _⟩ := create_spec (fun _ => Bytes.zero blockSz)
    (show (Geometry.compute 32768 1).NoUnderflow by decide) (by decide)
  exact ⟨fs, d, he, create_refines 32768 1 _ fs d (by decide) (by decide) he _⟩

/-! ## Block ownership -/

/-- A sequence of admissible calls that all return. -/
inductive Runs (g : Geometry) (fs : EasyFileSystem) : Disk → List Call → Disk → Prop
  | nil {d : Disk} : Runs g fs d [] d
  | cons {d d1 d2 : Disk} {call : Call} {calls : List Call} {a : Answer}
      (hadm : Admissible g d call) (he : (call.run fs).exec d = some (a, d1))
      (hrest : Runs g fs d1 calls d2) : Runs g fs d (call :: calls) d2

/-- The data blocks and index blocks of all allocated inodes. -/
def Geometry.allBlocks (g : Geometry) (d : Disk) : List UInt32 :=
  (g.allocated d).flatMap fun i => inodeBlocks d (g.slot d i)

/-- The data bitmap marks the blocks of the inodes, and each block is in one place of one inode. -/
structure BlocksExact (g : Geometry) (d : Disk) : Prop where
  nodup : (g.allBlocks d).Nodup
  inArea : ∀ b ∈ g.allBlocks d, g.dataStart ≤ b.toNat ∧
    b.toNat < g.dataStart + g.toEfs.dataBitmap.maxBits
  marked : ∀ k, k < g.toEfs.dataBitmap.maxBits →
    (g.toEfs.dataBitmap.bit d k = true ↔ ∃ b ∈ g.allBlocks d, b.toNat = g.dataStart + k)

namespace State

variable {g : Geometry} {es : List DirEntry} {root : Node} {files : List Node} {d : Disk}

theorem allBlocks_perm (hl : g.Laid) (h : State g es root files d) :
    (g.allBlocks d).Perm ((root :: files).flatMap Node.blocks) := by
  have hnode : ∀ i ∈ List.range (root :: files).length,
      (inodeBlocks d (g.slot d i)).Perm (((root :: files).map Node.blocks).getD i []) := by
    intro i hi
    have hi' := List.mem_range.mp hi
    have hfile := (h.inv.rep i hi').file
    have hsize := hfile.dataBlocks_eq
    have hp := inodeBlocks_perm d (g.slot d i)
    rw [hsize, hfile.blocks] at hp
    rw [List.getD_eq_getElem _ _ (by rw [List.length_map]; exact hi'), List.getElem_map]
    exact hp
  have hrange : (List.range (root :: files).length).map
      (fun i => ((root :: files).map Node.blocks).getD i []) = (root :: files).map Node.blocks := by
    apply List.ext_getElem
    · simp
    · intro i _ hi
      rw [List.getElem_map, List.getElem_range, List.getD_eq_getElem _ _ hi]
  calc (g.allBlocks d).Perm ((List.range (root :: files).length).flatMap fun i =>
        inodeBlocks d (g.slot d i)) := (h.allocated_perm hl).flatMap_right _
    _ |>.Perm ((List.range (root :: files).length).flatMap fun i =>
        ((root :: files).map Node.blocks).getD i []) := List.Perm.flatMap_left _ hnode
    _ = (root :: files).flatMap Node.blocks := by
        rw [List.flatMap_def, hrange, ← List.flatMap_def]

theorem blocksExact (hl : g.Laid) (h : State g es root files d) : BlocksExact g d := by
  have ho := h.inv.owned.perm (h.allBlocks_perm hl).symm
  have hcap : g.capacity ≤ g.toEfs.dataBitmap.maxBits := Nat.min_le_right _ _
  refine ⟨ho.nodup, fun b hb => ?_, ho.bits⟩
  have hin := ho.inArea b hb
  omega

theorem runs (hl : g.Laid) {calls : List Call} {d d' : Disk} (hrun : Runs g g.toEfs d calls d') :
    ∀ (es : List DirEntry) (root : Node) (files : List Node), State g es root files d →
      ∃ es' root' files', State g es' root' files' d' := by
  induction hrun with
  | nil => exact fun es root files h => ⟨es, root, files, h⟩
  | cons hadm he _ ih =>
    intro es root files h
    obtain ⟨es', root', files', _, h'⟩ := (h.step hl hadm).2 _ _ he
    exact ih es' root' files' h'

end State

/-- **No block is lost or owned twice.** After every sequence of admissible calls on a file system
that `create` makes, the data bitmap marks exactly the data blocks and index blocks of the allocated
inodes, and no block is in two places. So `clear` of an allocated inode, with the assertions on its
way, does not panic. -/
theorem blocksExact_of_runs (total ib : UInt32) (dev : Disk) (fs : EasyFileSystem) (d : Disk)
    (h : (Geometry.compute total ib).NoUnderflow)
    (harea : 0 < (Geometry.compute total ib).inodeAreaBlocks.toNat)
    (he : (EasyFileSystem.create total ib).exec dev = some (fs, d)) (calls : List Call) (d' : Disk)
    (hrun : Runs (Geometry.compute total ib) fs d calls d') :
    BlocksExact (Geometry.compute total ib) d' ∧
      ∀ i ∈ (Geometry.compute total ib).allocated d',
        ((fs.inode (UInt32.ofNat i)).clear fs).exec d' ≠ none := by
  obtain ⟨rfl, hst⟩ := State.init h harea he
  have hl := Geometry.compute_laid h
  obtain ⟨es', root', files', hst'⟩ := State.runs hl hrun _ _ _ hst
  refine ⟨hst'.blocksExact hl, fun i hi => ?_⟩
  obtain ⟨_, _, hexec, _⟩ := hst'.inv.clear hl.sound ((hst'.mem_allocated hl).mp hi)
  rw [hexec]
  exact Option.some_ne_none _

/-- The first `create` in the packer's image is admissible. -/
theorem packer_admissible {d : Disk}
    (hst : State (Geometry.compute 32768 1) [] ⟨[], 1, .directory, []⟩ [] d) (name : String) :
    Admissible (Geometry.compute 32768 1) d (.create name) := by
  have hl := Geometry.compute_laid (show (Geometry.compute 32768 1).NoUnderflow by decide)
  have hused : (Geometry.compute 32768 1).used d = 0 := hst.inv.owned.used
  have hsize : (Geometry.compute 32768 1).sizeOf d 0 = 0 := hst.sizeOf_root
  refine ⟨?_, ?_, ?_⟩
  · rw [hst.inodes_eq hl]
    decide
  · rw [hsize]
    decide
  · rw [Geometry.RoomFor, hused, hsize]
    decide

/-- `create` of a file in the packer's image. -/
theorem packer_create {name : String} (hfit : (nameBytes name).length ≤ 28) : ∃ d d' r,
    (EasyFileSystem.create 32768 1).exec (fun _ => Bytes.zero blockSz) = some ((Geometry.compute 32768 1).toEfs, d) ∧
    Admissible (Geometry.compute 32768 1) d (.create name) ∧
    ((Geometry.compute 32768 1).toEfs.rootInode.create (Geometry.compute 32768 1).toEfs name).exec d =
      some (some r, d') ∧
    ∃ root, State (Geometry.compute 32768 1) [DirEntry.made name 1] root [⟨[], 1, .file, []⟩] d' := by
  have hu : (Geometry.compute 32768 1).NoUnderflow := by decide
  have hl := Geometry.compute_laid hu
  obtain ⟨fs, d, he, _⟩ := create_spec (fun _ => Bytes.zero blockSz) hu (by decide)
  obtain ⟨rfl, hst⟩ := State.init hu (by decide) he
  have hadm := packer_admissible hst name
  have hid := hadm.1
  rw [hst.inodes_eq hl] at hid
  obtain ⟨hmax, hspace⟩ := hst.roomForRecord hadm.2
  obtain ⟨_, d', hc, rfl, bs, hinv⟩ :=
    hst.inv.create_new hl hst.dir (show scan name [] = some none from rfl) hfit hid hmax hspace
  exact ⟨d, d', _, he, hadm, hc, _, hst.addFile hinv⟩

/-- After `create` of a file in the packer's image. -/
theorem blocksExact_of_runs_packer : ∃ fs d d',
    (EasyFileSystem.create 32768 1).exec (fun _ => Bytes.zero blockSz) = some (fs, d) ∧
      Runs (Geometry.compute 32768 1) fs d [.create "a"] d' ∧
      BlocksExact (Geometry.compute 32768 1) d' ∧
      ∀ i ∈ (Geometry.compute 32768 1).allocated d',
        ((fs.inode (UInt32.ofNat i)).clear fs).exec d' ≠ none := by
  obtain ⟨d, d', r, he, hadm, hc, _⟩ := packer_create (show (nameBytes "a").length ≤ 28 by decide)
  have hexec : ((Call.create "a").run (Geometry.compute 32768 1).toEfs).exec d =
      some (.inode (some r), d') := by
    rw [Call.run, exec_bind_pure, hc]
    rfl
  have hrun : Runs (Geometry.compute 32768 1) (Geometry.compute 32768 1).toEfs d [.create "a"] d' :=
    .cons hadm hexec .nil
  exact ⟨_, d, d', he, hrun, blocksExact_of_runs 32768 1 _ _ d (by decide) (by decide) he _ d' hrun⟩

end RCore.EasyFs
