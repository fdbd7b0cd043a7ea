import RCore.EasyFs.Verify.Contents
import RCore.Fs.Inode

/-!
# Reads and writes in pieces

A system call hands `OSInode::read` and `OSInode::write` the user's buffer cut at the page boundaries, and each piece is a
read or a write of the inode of its own. A write continues where the last one ended (`FileRep.writeContent_append`), and so
does a read (`FileRep.readContent_append`); a read that is short has met the end of the file, and there is nothing left for
the next one. So the cuts do not matter.
-/

namespace RCore.EasyFs

open RCore Prog DiskInode

/-- The bytes of inode `i`. -/
def Geometry.contentOf (g : Geometry) (d : Disk) (i : Nat) : List UInt8 :=
  (List.range (g.sizeOf d i)).map (fileByte d (g.slot d i))

theorem FileRep.content_eq {d : Disk} {di : DiskInode} {c : List UInt8} {bs : List UInt32} (h : FileRep d di c bs) :
    (List.range di.size.toNat).map (fileByte d di) = c := by
  rw [h.size]
  apply List.ext_getElem
  · rw [List.length_map, List.length_range]
  · intro i hi hi'
    rw [List.getElem_map, List.getElem_range, h.bytes i (by unfold fileBlocks; omega), List.getD_eq_getElem _ _ hi']

namespace State

variable {g : Geometry} {es : List DirEntry} {root : Node} {files : List Node} {d d' : Disk} {j : Nat}

theorem contentOf_file (h : State g es root files d) (hj : j < files.length) : g.contentOf d (j + 1) = files[j].content :=
  (h.inv.rep (j + 1) (Nat.succ_lt_succ hj)).file.content_eq

/-- What the change of a file adds to the blocks in use. -/
theorem used_modify (h : State g es root files d) (hj : j < files.length) {f : Node → Node}
    (h' : State g es root (files.modify j f) d') :
    g.used d' + totalBlocksFor (fileBlocks files[j].content.length) =
      g.used d + totalBlocksFor (fileBlocks (f files[j]).content.length) := by
  have hi : j + 1 < (root :: files).length := Nat.succ_lt_succ hj
  rw [Inv.modify_eq_set hj] at h'
  have hold := (h.inv.rep (j + 1) hi).file.length
  have hnew := (h'.inv.rep (j + 1) (by simpa using hj)).file.length
  rw [List.getElem_cons_succ] at hold
  rw [List.getElem_cons_succ, List.getElem_set_self] at hnew
  have hused := h.inv.used_eq hi
  have hused' : g.used d' = ((f files[j]).blocks ++ Inv.others (root :: files) (j + 1)).length :=
    h'.inv.owned.used.trans (Inv.flatMap_set_perm hi (f files[j])).length_eq
  rw [List.length_append] at hused hused'
  rw [List.getElem_cons_succ] at hused
  omega

end State

end RCore.EasyFs

namespace RCore.Fs

open RCore Prog EasyFs DiskInode

/-- The slices of a user buffer: none is empty, and they fit into memory. -/
structure IsBuffer (buf : List (List UInt8)) : Prop where
  nonempty : ∀ slice ∈ buf, slice ≠ []
  small : buf.flatten.length < 2 ^ 63

theorem IsBuffer.flatten_eq_nil {buf : List (List UInt8)} (h : IsBuffer buf) : buf.flatten = [] ↔ buf = [] := by
  constructor
  · intro hnil
    cases buf with
    | nil => rfl
    | cons slice slices => exact absurd (List.append_eq_nil_iff.mp hnil).1 (h.nonempty slice List.mem_cons_self)
  · rintro rfl
    rfl

namespace OSInode

/-- A program that reads into one buffer after the other until a read returns 0: the bytes that it gets. -/
def readUntilZero (file : OSInode) : List (List (List UInt8)) → EfsM (Option (List UInt8 × OSInode))
  | [] => pure none
  | buf :: bufs => do
    let (n, buf, file) ← file.read buf
    if n = 0 then
      pure (some ([], file))
    else do
      let r ← readUntilZero file bufs
      pure (r.map fun (bytes, file) => (buf.flatten.take n ++ bytes, file))

variable {g : Geometry} {es : List DirEntry} {root : Node} {d : Disk} {j : Nat}

/-! ## Writing -/

/-- The bytes go to the file as if they came in one piece, and the link count stays. -/
theorem writeLoop_spec (hl : g.Laid) (slices : List (List UInt8)) : ∀ (files : List Node) (d : Disk) (off t : Nat)
    (hj : j < files.length), State g es root files d → (∀ s ∈ slices, s ≠ []) →
    (slices = [] → off ≤ files[j].content.length) → off + slices.flatten.length ≤ 16540 * 512 →
    g.used d + FileRep.blocksFor files[j].content.length (off + slices.flatten.length) ≤ g.capacity →
      (writeLoop g.toEfs slices ⟨off, g.toEfs.inode (UInt32.ofNat (j + 1))⟩ t).wp (fun r d' =>
        r = (t + slices.flatten.length, ⟨off + slices.flatten.length, g.toEfs.inode (UInt32.ofNat (j + 1))⟩) ∧ ∃ f,
          State g es root (files.modify j f) d' ∧
            (f files[j]).content = FileRep.writeContent files[j].content off slices.flatten ∧
            ∀ n, (f n).nlink = n.nlink) d := by
  induction slices with
  | nil =>
    intro files d off t hj h _ hoff _ _
    rw [OSInode.writeLoop, wp_pure]
    refine ⟨rfl, id, ?_, ?_, fun _ => rfl⟩
    · rw [List.modify_id]
      exact h
    · exact (FileRep.writeContent_nil (hoff rfl)).symm
  | cons slice slices ih =>
    intro files d off t hj h hne _ hmax hroom
    obtain ⟨hs, hne'⟩ := List.forall_mem_cons.mp hne
    rw [List.flatten_cons, List.length_append] at hmax hroom ⊢
    have hfiles := h.files_le
    have hval : (UInt32.ofNat (j + 1)).toNat = j + 1 := by
      rw [UInt32.toNat_ofNat']
      omega
    -- the first piece fits if all do
    generalize hc : files[j].content.length = size at hroom
    have hgrown := totalBlocksFor_mono (fileBlocks_mono (Nat.le_max_left size (off + slice.length)))
    have hmore := totalBlocksFor_mono (fileBlocks_mono (show max size (off + slice.length) ≤
      max size (off + (slice.length + slices.flatten.length)) by omega))
    unfold FileRep.blocksFor at hroom
    have hadm : Admissible g d (.writeAt (UInt32.ofNat (j + 1)) off slice) := by
      refine ⟨?_, hs, show off + slice.length ≤ 16540 * 512 by omega, ?_⟩
      · rw [hval, h.inodes_eq hl]
        omega
      · rw [Geometry.RoomFor, hval, h.sizeOf_file hj, hc, FileRep.blocksFor]
        omega
    rw [OSInode.writeLoop, wp_bind]
    refine wp_mono (h.writeAt hl hadm) ?_
    rintro _ d1 ⟨rfl, bs, h1⟩
    rw [hval, Nat.add_sub_cancel] at h1
    generalize hf : (fun n : Node => { n with content := FileRep.writeContent n.content off slice, blocks := bs }) = f1 at h1
    have hcontent : (f1 files[j]).content = FileRep.writeContent files[j].content off slice := by rw [← hf]
    have hlinks : ∀ n, (f1 n).nlink = n.nlink := fun n => by rw [← hf]
    have hj1 : j < (files.modify j f1).length := by
      rw [List.length_modify]
      exact hj
    have hget : (files.modify j f1)[j] = f1 files[j] := by rw [List.getElem_modify, if_pos rfl]
    have hlen := congrArg List.length hcontent
    rw [FileRep.writeContent_length, hc] at hlen
    have hused := h.used_modify hj h1
    rw [hlen, hc] at hused
    rw [wp_bind, wp_assert]
    refine ⟨rfl, wp_mono (ih (files.modify j f1) d1 (off + slice.length) (t + slice.length) hj1 h1 hne' ?_ (by omega) ?_) ?_⟩
    · intro _
      rw [hget, hlen]
      omega
    · rw [hget, hlen, FileRep.blocksFor, show max (max size (off + slice.length)) (off + slice.length + slices.flatten.length) =
        max size (off + (slice.length + slices.flatten.length)) by omega]
      omega
    · rintro _ d2 ⟨rfl, f, h2, hc2, hlinks2⟩
      rw [List.modify_modify_eq] at h2
      rw [hget, hcontent, FileRep.writeContent_append] at hc2
      exact ⟨by rw [Nat.add_assoc, Nat.add_assoc], f ∘ f1, h2, hc2, fun n => (hlinks2 (f1 n)).trans (hlinks n)⟩

/-! ## Reading -/

section Reads

variable {files : List Node} {inode : Inode} (hl : g.Laid) (h : State g es root files d) (hj : j < files.length)
  (hinode : inode = g.toEfs.inode (UInt32.ofNat (j + 1)))
include hl h hj hinode

theorem readAt_spec {off : Nat} {buf : List UInt8} (hoff : off < 2 ^ 64) (hbuf : buf.length < 2 ^ 63) :
    (inode.readAt off buf).wp (fun r d' => r = ((FileRep.readContent files[j].content off buf.length).length,
      FileRep.readContent files[j].content off buf.length ++
        buf.drop (FileRep.readContent files[j].content off buf.length).length) ∧ d' = d) d := by
  have hfiles := h.files_le
  have hval : (UInt32.ofNat (j + 1)).toNat = j + 1 := by
    rw [UInt32.toNat_ofNat']
    omega
  have hadm : Admissible g d (.readAt (UInt32.ofNat (j + 1)) off buf) := by
    refine ⟨?_, hoff, hbuf⟩
    rw [hval, h.inodes_eq hl]
    omega
  have hget : (contents root files).getD (j + 1) [] = files[j].content := by
    rw [contents, List.getD_cons_succ, List.getD_eq_getElem _ _ (by rw [List.length_map]; exact hj), List.getElem_map]
  rw [hinode]
  refine wp_mono (h.readAt hl hadm) ?_
  rintro _ _ ⟨rfl, s, rfl, rfl⟩
  rw [hval, hget]
  exact ⟨rfl, rfl⟩

/-- The pieces get the bytes as if they were one. -/
theorem readLoop_spec (slices : List (List UInt8)) : ∀ (off t : Nat), off < 2 ^ 64 → (∀ s ∈ slices, s ≠ []) →
    slices.flatten.length < 2 ^ 63 → (OSInode.readLoop slices ⟨off, inode⟩ t).wp (fun r d' => ∃ s slices',
      s = FileRep.readContent files[j].content off slices.flatten.length ∧
      r = (t + s.length, slices', ⟨off + s.length, inode⟩) ∧ slices'.map List.length = slices.map List.length ∧
      slices'.flatten = s ++ slices.flatten.drop s.length ∧ d' = d) d := by
  have hbound := (h.inv.rep (j + 1) (Nat.succ_lt_succ hj)).file.bound
  rw [List.getElem_cons_succ] at hbound
  induction slices with
  | nil =>
    intro off t _ _ _
    rw [OSInode.readLoop, wp_pure]
    exact ⟨[], [], rfl, rfl, rfl, rfl, rfl⟩
  | cons slice slices ih =>
    intro off t hoff hne hlen
    obtain ⟨hs, hne'⟩ := List.forall_mem_cons.mp hne
    rw [List.flatten_cons, List.length_append] at hlen
    rw [List.flatten_cons, List.length_append, FileRep.readContent_append, OSInode.readLoop, wp_bind]
    refine wp_mono (readAt_spec hl h hj hinode hoff (show slice.length < 2 ^ 63 by omega)) ?_
    rintro _ _ ⟨rfl, rfl⟩
    have hshort := FileRep.readContent_length files[j].content off slice.length
    have hpos := List.length_pos_iff.mpr hs
    have hrest : (FileRep.readContent files[j].content off slice.length).length < slice.length →
        FileRep.readContent files[j].content
          (off + (FileRep.readContent files[j].content off slice.length).length) slices.flatten.length = [] := by
      intro hlt
      rw [FileRep.readContent, List.drop_eq_nil_of_le (by omega), List.take_nil]
    generalize FileRep.readContent files[j].content off slice.length = s at hshort hrest ⊢
    have hpiece : (s ++ slice.drop s.length).length = slice.length := by
      rw [List.length_append, List.length_drop]
      omega
    dsimp only
    by_cases hzero : s.length = 0
    · -- nothing was left to read
      obtain rfl := List.eq_nil_of_length_eq_zero hzero
      rw [if_pos hzero, wp_pure, hrest (by omega)]
      exact ⟨[], _, rfl, rfl, congrArg (· :: slices.map List.length) hpiece, rfl, rfl⟩
    · rw [if_neg hzero, wp_bind]
      refine wp_mono (ih (off + s.length) (t + s.length) (by omega) hne' (by omega)) ?_
      rintro _ _ ⟨s2, slices', rfl, rfl, hmap, hflat, rfl⟩
      rw [wp_pure]
      refine ⟨_, (s ++ slice.drop s.length) :: slices', rfl, ?_, ?_, ?_, rfl⟩
      · rw [List.length_append, Nat.add_assoc, Nat.add_assoc]
      · rw [List.map_cons, List.map_cons, hpiece, hmap]
      · rw [List.flatten_cons, hflat]
        by_cases hfull : s.length < slice.length
        · rw [hrest hfull, List.append_nil, List.nil_append, List.length_nil, List.drop_zero, List.append_assoc,
            List.drop_append_of_le_length (Nat.le_of_lt hfull)]
        · rw [List.drop_eq_nil_of_le (Nat.not_lt.mp hfull), List.append_nil, ← List.append_assoc, List.length_append,
            ← List.drop_drop, List.drop_left' (by omega)]

/-- `read_all` returns what is behind the offset. -/
theorem readAllLoop_spec (fuel : Nat) : ∀ (off : Nat) (buffer v : List UInt8), off < 2 ^ 64 → buffer.length = 512 →
    files[j].content.length - off < fuel → (OSInode.readAllLoop fuel ⟨off, inode⟩ buffer v).exec d =
      some (some (v ++ files[j].content.drop off, ⟨off + (files[j].content.drop off).length, inode⟩), d) := by
  have hbound := (h.inv.rep (j + 1) (Nat.succ_lt_succ hj)).file.bound
  rw [List.getElem_cons_succ] at hbound
  induction fuel with
  | zero =>
    intro off _ _ _ _ hfuel
    omega
  | succ fuel ih =>
    intro off buffer v hoff hbuffer hfuel
    obtain ⟨_, _, hexec, rfl, rfl⟩ := readAt_spec hl h hj hinode hoff (show buffer.length < 2 ^ 63 by omega)
    rw [OSInode.readAllLoop, exec_bind, hexec, Option.bind_some]
    have hlen := FileRep.readContent_length files[j].content off buffer.length
    have hdrop : files[j].content.drop off = FileRep.readContent files[j].content off buffer.length ++
        files[j].content.drop (off + (FileRep.readContent files[j].content off buffer.length).length) :=
      FileRep.drop_eq_readContent _ _ _
    generalize FileRep.readContent files[j].content off buffer.length = s at hlen hdrop ⊢
    dsimp only
    by_cases hzero : s.length = 0
    · rw [if_pos hzero, List.drop_eq_nil_of_le (by omega), List.append_nil]
      rfl
    · rw [if_neg hzero, ih (off + s.length) _ _ (by omega) ?_ (by omega)]
      · rw [List.take_left, hdrop, List.length_append, List.append_assoc, Nat.add_assoc]
      · rw [List.length_append, List.length_drop]
        omega

/-- So does a program that reads until a read returns 0. -/
theorem readUntilZero_spec (bufs : List (List (List UInt8))) : ∀ file : OSInode, file.inner.offset < 2 ^ 64 →
    file.inner.inode = inode → (∀ buf ∈ bufs, IsBuffer buf ∧ buf ≠ []) → (file.readUntilZero bufs).wp (fun r d' =>
      (r = some (files[j].content.drop file.inner.offset, { file with
          inner := ⟨file.inner.offset + (files[j].content.drop file.inner.offset).length, inode⟩ }) ∨
        r = none ∧ bufs.length ≤ files[j].content.length - file.inner.offset) ∧ d' = d) d := by
  have hbound := (h.inv.rep (j + 1) (Nat.succ_lt_succ hj)).file.bound
  rw [List.getElem_cons_succ] at hbound
  induction bufs with
  | nil =>
    intro file _ _ _
    rw [OSInode.readUntilZero, wp_pure]
    exact ⟨.inr ⟨rfl, Nat.zero_le _⟩, rfl⟩
  | cons buf bufs ih =>
    rintro ⟨readable, writable, off, _⟩ hoff rfl hbufs
    obtain ⟨⟨hbuf, hne⟩, hbufs⟩ := List.forall_mem_cons.mp hbufs
    rw [OSInode.readUntilZero, wp_bind, OSInode.read, wp_bind]
    refine wp_mono (readLoop_spec hl h hj hinode buf off 0 hoff hbuf.nonempty hbuf.small) ?_
    rintro _ _ ⟨s, buf', hs, rfl, -, hflat, rfl⟩
    have hlen := FileRep.readContent_length files[j].content off buf.flatten.length
    have hdrop := FileRep.drop_eq_readContent files[j].content off buf.flatten.length
    rw [← hs] at hlen hdrop
    have hpos : 0 < buf.flatten.length := List.length_pos_iff.mpr (hne ∘ hbuf.flatten_eq_nil.mp)
    rw [wp_pure]
    dsimp only
    rw [Nat.zero_add]
    by_cases hzero : s.length = 0
    · have hend : files[j].content.drop off = [] := List.drop_eq_nil_of_le (by omega)
      rw [if_pos hzero, wp_pure, hend, hzero]
      exact ⟨.inl rfl, rfl⟩
    · rw [if_neg hzero, wp_bind]
      have hnext : off + s.length < 2 ^ 64 := by omega
      refine wp_mono (ih ⟨readable, writable, off + s.length, _⟩ hnext rfl hbufs) ?_
      rintro r _ ⟨hr, rfl⟩
      rw [wp_pure]
      refine ⟨?_, rfl⟩
      rcases hr with rfl | ⟨rfl, hmany⟩
      · refine .inl ?_
        dsimp only [Option.map_some]
        rw [hflat, List.take_left, hdrop, List.length_append, Nat.add_assoc]
      · refine .inr ⟨rfl, ?_⟩
        dsimp only at hmany
        rw [List.length_cons]
        omega

end Reads

/-- The file with its offset `n` bytes on. -/
def advance (file : OSInode) (n : Nat) : OSInode :=
  { file with inner := { file.inner with offset := file.inner.offset + n } }

/-- What the open file does on the disk `d` with buffers that are cut in different ways. -/
structure CutsAlike (g : Geometry) (fs : EasyFileSystem) (ino : UInt32) (file : OSInode) (d : Disk) : Prop where
  /-- Two buffers with the same bytes: the same count, the same offset and the same file. -/
  writes : ∀ buf buf', IsBuffer buf → IsBuffer buf' → buf.flatten = buf'.flatten →
    file.inner.offset + buf.flatten.length ≤ indirect2Bound * blockSz →
    g.RoomFor d ino.toNat (file.inner.offset + buf.flatten.length) → ∃ d₁ d₂,
      (file.write fs buf).exec d = some ((buf.flatten.length, file.advance buf.flatten.length), d₁) ∧
      (file.write fs buf').exec d = some ((buf.flatten.length, file.advance buf.flatten.length), d₂) ∧
      g.contentOf d₁ ino.toNat = g.contentOf d₂ ino.toNat ∧ (buf ≠ [] → g.contentOf d₁ ino.toNat =
        FileRep.writeContent (g.contentOf d ino.toNat) file.inner.offset buf.flatten)
  /-- Two buffers of the same length: the same count, the same offset and the same bytes in their order. -/
  reads : ∀ buf buf', IsBuffer buf → IsBuffer buf' → buf.flatten.length = buf'.flatten.length → ∃ s r r',
    s = FileRep.readContent (g.contentOf d ino.toNat) file.inner.offset buf.flatten.length ∧
      s.length = min buf.flatten.length (g.sizeOf d ino.toNat - file.inner.offset) ∧
      (file.read buf).exec d = some ((s.length, r, file.advance s.length), d) ∧
      r.map List.length = buf.map List.length ∧ r.flatten = s ++ buf.flatten.drop s.length ∧
      (file.read buf').exec d = some ((s.length, r', file.advance s.length), d) ∧
      r'.map List.length = buf'.map List.length ∧ r'.flatten = s ++ buf'.flatten.drop s.length
  /-- Reads until one returns 0, into buffers that are not empty: the bytes of `read_all`, and its offset. They come to
  their end if they are as many as the bytes that are left. -/
  untilZero : ∃ r, (∀ fuel, g.sizeOf d ino.toNat - file.inner.offset < fuel → (file.readAll fuel).exec d = some (some r, d)) ∧
    ∀ bufs, (∀ buf ∈ bufs, IsBuffer buf ∧ buf ≠ []) → (file.readUntilZero bufs).exec d = some (some r, d) ∨
      (file.readUntilZero bufs).exec d = some (none, d) ∧ bufs.length ≤ g.sizeOf d ino.toNat - file.inner.offset

section Cuts

variable {files : List Node} {file : OSInode} (hl : g.Laid) (h : State g es root files d) (hj : j < files.length)
  (hfile : file.inner.inode = g.toEfs.inode (UInt32.ofNat (j + 1)))
include hl h hj hfile

theorem write_spec {buf : List (List UInt8)} (hbuf : IsBuffer buf)
    (hmax : file.inner.offset + buf.flatten.length ≤ 16540 * 512)
    (hroom : g.used d + FileRep.blocksFor files[j].content.length (file.inner.offset + buf.flatten.length) ≤ g.capacity) :
    ∃ d', (file.write g.toEfs buf).exec d = some ((buf.flatten.length, file.advance buf.flatten.length), d') ∧
      g.contentOf d' (j + 1) = if buf = [] then files[j].content
        else FileRep.writeContent files[j].content file.inner.offset buf.flatten := by
  obtain ⟨readable, writable, off, inode⟩ := file
  obtain rfl : inode = g.toEfs.inode (UInt32.ofNat (j + 1)) := hfile
  by_cases hnil : buf = []
  · subst hnil
    exact ⟨d, rfl, by rw [if_pos rfl, h.contentOf_file hj]⟩
  · obtain ⟨_, d', hexec, rfl, f, h', hcontent, -⟩ :=
      writeLoop_spec hl buf files d off 0 hj h hbuf.nonempty (fun hc => absurd hc hnil) hmax hroom
    refine ⟨d', ?_, ?_⟩
    · rw [OSInode.write, exec_bind, hexec, Option.bind_some, Nat.zero_add]
      rfl
    · have hj' : j < (files.modify j f).length := by
        rw [List.length_modify]
        exact hj
      rw [if_neg hnil, h'.contentOf_file hj', List.getElem_modify, if_pos rfl, hcontent]

theorem read_spec {buf : List (List UInt8)} (hbuf : IsBuffer buf) (hoff : file.inner.offset < 2 ^ 64) {s : List UInt8}
    (hs : s = FileRep.readContent files[j].content file.inner.offset buf.flatten.length) :
    ∃ r, (file.read buf).exec d = some ((s.length, r, file.advance s.length), d) ∧
      r.map List.length = buf.map List.length ∧ r.flatten = s ++ buf.flatten.drop s.length := by
  obtain ⟨readable, writable, off, inode⟩ := file
  obtain ⟨_, _, hexec, s', r, hs', rfl, hmap, hflat, rfl⟩ := readLoop_spec hl h hj hfile buf off 0 hoff hbuf.nonempty hbuf.small
  obtain rfl : s' = s := hs'.trans hs.symm
  refine ⟨r, ?_, hmap, hflat⟩
  rw [OSInode.read, exec_bind, hexec, Option.bind_some, Nat.zero_add]
  obtain rfl : inode = _ := hfile
  rfl

theorem readAll_spec (hoff : file.inner.offset < 2 ^ 64) {fuel : Nat}
    (hfuel : files[j].content.length - file.inner.offset < fuel) : (file.readAll fuel).exec d =
      some (some (files[j].content.drop file.inner.offset, file.advance (files[j].content.drop file.inner.offset).length), d) := by
  obtain ⟨readable, writable, off, inode⟩ := file
  obtain rfl : inode = _ := hfile
  rw [OSInode.readAll, exec_bind, readAllLoop_spec hl h hj rfl fuel off _ [] hoff List.length_replicate hfuel, Option.bind_some,
    List.nil_append]
  rfl

theorem cutsAlike (hoff : file.inner.offset < 2 ^ 64) : CutsAlike g g.toEfs (UInt32.ofNat (j + 1)) file d := by
  have hfiles := h.files_le
  have hval : (UInt32.ofNat (j + 1)).toNat = j + 1 := by
    rw [UInt32.toNat_ofNat']
    omega
  have hcontent := h.contentOf_file hj
  have hsize := h.sizeOf_file hj
  rw [← hval] at hcontent hsize
  refine ⟨fun buf buf' hbuf hbuf' hflat hmax hroom => ?_, fun buf buf' hbuf hbuf' hlen => ?_, ?_⟩
  · rw [Geometry.RoomFor, hsize] at hroom
    obtain ⟨d₁, h₁, hc₁⟩ := write_spec hl h hj hfile hbuf hmax hroom
    obtain ⟨d₂, h₂, hc₂⟩ := write_spec hl h hj hfile hbuf' (by rw [← hflat]; exact hmax) (by rw [← hflat]; exact hroom)
    have hnil : buf' = [] ↔ buf = [] := by rw [← hbuf.flatten_eq_nil, ← hbuf'.flatten_eq_nil, hflat]
    rw [← hflat] at h₂ hc₂
    rw [hcontent, hval]
    refine ⟨d₁, d₂, h₁, h₂, ?_, fun hne => ?_⟩
    · rw [hc₁, hc₂]
      simp only [hnil]
    · rw [hc₁, if_neg hne]
  · obtain ⟨r, hr⟩ := read_spec hl h hj hfile hbuf hoff rfl
    obtain ⟨r', hr'⟩ := read_spec hl h hj hfile hbuf' hoff (congrArg _ hlen)
    rw [hcontent, hsize]
    exact ⟨_, r, r', rfl, FileRep.readContent_length _ _ _, hr.1, hr.2.1, hr.2.2, hr'⟩
  · rw [hsize]
    refine ⟨_, fun fuel hfuel => readAll_spec hl h hj hfile hoff hfuel, fun bufs hbufs => ?_⟩
    obtain ⟨_, _, hexec, rfl | ⟨rfl, hmany⟩, rfl⟩ := readUntilZero_spec hl h hj hfile bufs file hoff rfl hbufs
    · exact .inl hexec
    · exact .inr ⟨hexec, hmany⟩

end Cuts

end OSInode

/-- **Cuts do not matter.** On a file system that `create` makes, after any admissible calls, take an open file at any offset.
Writing the same bytes cut in two ways returns the same count, and leaves the same file and the same offset; reading into
buffers of the same length cut in two ways returns the same count, the same bytes and the same offset; and a program that
reads until a read into a buffer that is not empty returns 0 gets what `read_all` returns. -/
theorem cuts_do_not_matter (total ib : UInt32) (dev : Disk) (fs : EasyFileSystem) (d : Disk)
    (h : (Geometry.compute total ib).NoUnderflow) (harea : 0 < (Geometry.compute total ib).inodeAreaBlocks.toNat)
    (he : (EasyFileSystem.create total ib).exec dev = some (fs, d)) (calls : List EasyFs.Call) (d' : Disk)
    (hrun : Runs (Geometry.compute total ib) fs d calls d') (ino : UInt32)
    (hino : 0 < ino.toNat ∧ ino.toNat < (Geometry.compute total ib).inodes d') (file : OSInode)
    (hfile : file.inner.inode = fs.inode ino) (hoff : file.inner.offset < 2 ^ 64) :
    OSInode.CutsAlike (Geometry.compute total ib) fs ino file d' := by
  obtain ⟨rfl, hst⟩ := State.init h harea he
  have hl := Geometry.compute_laid h
  obtain ⟨es, root, files, hst'⟩ := State.runs hl hrun _ _ _ hst
  obtain ⟨j, hj, rfl, -⟩ := hst'.exists_file hl hino
  exact OSInode.cutsAlike hl hst' hj hfile hoff

/-- A file of one byte in the packer's image. -/
theorem packer_byte : ∃ d d' root files, (EasyFileSystem.create 32768 1).exec (fun _ => Bytes.zero blockSz) =
      some ((Geometry.compute 32768 1).toEfs, d) ∧
    Runs (Geometry.compute 32768 1) (Geometry.compute 32768 1).toEfs d [.create "a", .writeAt 1 0 [7]] d' ∧
    State (Geometry.compute 32768 1) [DirEntry.made "a" 1] root files d' ∧ files.length = 1 ∧
    ∃ hj : 0 < files.length, files[0].content = [7] := by
  have hl := Geometry.compute_laid (show (Geometry.compute 32768 1).NoUnderflow by decide)
  obtain ⟨d, d₁, r, he, hadm, hc, root, hst⟩ := packer_create (show (nameBytes "a").length ≤ 28 by decide)
  have hwrite : Admissible (Geometry.compute 32768 1) d₁ (.writeAt 1 0 [7]) := by
    have hused : (Geometry.compute 32768 1).used d₁ = 1 := by
      rw [hst.inv.owned.used, List.flatMap_cons, List.length_append, hst.root_blocks]
      rfl
    have hsize : (Geometry.compute 32768 1).sizeOf d₁ 1 = 0 := hst.sizeOf_file (j := 0) (by decide)
    refine ⟨⟨by decide, ?_⟩, by decide, by decide, ?_⟩
    · rw [hst.inodes_eq hl]
      decide
    · show Geometry.used _ d₁ + FileRep.blocksFor (Geometry.sizeOf _ d₁ 1) _ ≤ _
      rw [hused, hsize]
      decide
  obtain ⟨n, d', hw, rfl, bs, hst'⟩ := hst.writeAt hl hwrite
  have hmade : ((EasyFs.Call.create "a").run (Geometry.compute 32768 1).toEfs).exec d = some (.inode (some r), d₁) := by
    rw [EasyFs.Call.run, exec_bind_pure, hc]
    rfl
  have hwritten : ((EasyFs.Call.writeAt 1 0 [7]).run (Geometry.compute 32768 1).toEfs).exec d₁ = some (.count 1, d') := by
    rw [EasyFs.Call.run, exec_bind_pure, hw]
    rfl
  exact ⟨d, d', root, _, he, .cons hadm hmade (.cons hwrite hwritten .nil), hst', rfl, Nat.one_pos, rfl⟩

/-- The byte is read into a buffer of two slices. -/
theorem cuts_do_not_matter_packer : ∃ d' r, OSInode.CutsAlike (Geometry.compute 32768 1) (Geometry.compute 32768 1).toEfs 1
      (OSInode.new true true ((Geometry.compute 32768 1).toEfs.inode 1)) d' ∧
    ((OSInode.new true true ((Geometry.compute 32768 1).toEfs.inode 1)).read [[0], [0, 0]]).exec d' =
      some ((1, r, (OSInode.new true true ((Geometry.compute 32768 1).toEfs.inode 1)).advance 1), d') ∧
    r.flatten = [7, 0, 0] := by
  obtain ⟨d, d', root, files, he, hrun, hst, hlen, hj, hcontent⟩ := packer_byte
  have hl := Geometry.compute_laid (show (Geometry.compute 32768 1).NoUnderflow by decide)
  have hino : 0 < (1 : UInt32).toNat ∧ (1 : UInt32).toNat < (Geometry.compute 32768 1).inodes d' := by
    refine ⟨by decide, ?_⟩
    rw [hst.inodes_eq hl, hlen]
    decide
  have hfile : (OSInode.new true true ((Geometry.compute 32768 1).toEfs.inode 1)).inner.inode =
      (Geometry.compute 32768 1).toEfs.inode (UInt32.ofNat (0 + 1)) := rfl
  have hbuf : IsBuffer [[0], [0, 0]] := ⟨by decide, by decide⟩
  have hbytes : ([7] : List UInt8) = FileRep.readContent files[0].content 0 3 := by rw [hcontent]; rfl
  obtain ⟨r, hread, -, hflat⟩ := OSInode.read_spec hl hst hj hfile hbuf (by decide) hbytes
  exact ⟨d', r, cuts_do_not_matter 32768 1 _ _ d (by decide) (by decide) he _ d' hrun 1 hino
    (OSInode.new true true _) rfl (by decide), hread, hflat⟩

/-- A read into an empty buffer returns 0 before the end of the file, and a program that stops there has not got the bytes of
`read_all`. -/
theorem empty_read_returns_zero : ∃ (d d' : Disk) (file : OSInode), (EasyFileSystem.create 32768 1).exec
      (fun _ => Bytes.zero blockSz) = some ((Geometry.compute 32768 1).toEfs, d) ∧
    Runs (Geometry.compute 32768 1) (Geometry.compute 32768 1).toEfs d [.create "a", .writeAt 1 0 [7]] d' ∧
    file = OSInode.new true true ((Geometry.compute 32768 1).toEfs.inode 1) ∧
    (file.readUntilZero [[]]).exec d' = some (some ([], file), d') ∧
    (file.readAll 2).exec d' = some (some ([7], file.advance 1), d') := by
  obtain ⟨d, d', root, files, he, hrun, hst, hlen, hj, hcontent⟩ := packer_byte
  have hl := Geometry.compute_laid (show (Geometry.compute 32768 1).NoUnderflow by decide)
  have hfile : (OSInode.new true true ((Geometry.compute 32768 1).toEfs.inode 1)).inner.inode =
      (Geometry.compute 32768 1).toEfs.inode (UInt32.ofNat (0 + 1)) := rfl
  have hall := OSInode.readAll_spec hl hst hj hfile (by decide) (show files[0].content.length - 0 < 2 by rw [hcontent]; decide)
  rw [hcontent] at hall
  exact ⟨d, d', _, he, hrun, rfl, rfl, hall⟩

end RCore.Fs
